/-
The paths of the fields of a policy, and their ids.

The path of a field joins the names of the structs around it with its own.  `validate`
compares the names of one level only, so two fields can come to the same path: a name may have
the separator in it, a struct may have a subfield twice, and a struct without a name adds
nothing.
-/
import Riets.Bytes
import Riets.JsonIndexing

open FieldRegistry SortedMap Option

/-! ### The ids of a resolved policy -/

def FieldRegistry.Has (r : FieldRegistry) (f : FieldPolicy) : Prop :=
  (∃ id, r.get f.fullPath = some id) ∧ (f.hasExactIndex = true → ∃ id, r.getExact f.fullPath = some id)

theorem FieldRegistry.Has.extends {r r' : FieldRegistry} {f : FieldPolicy} (h : r.Has f)
    (he : r.Extends r') : r'.Has f := by
  obtain ⟨⟨id, hid⟩, hexact⟩ := h
  refine ⟨⟨id, he.ids _ id hid⟩, fun hf => ?_⟩
  obtain ⟨id, hid⟩ := hexact hf
  exact ⟨id, he.exactIds _ id hid⟩

theorem has_registerLeaf (r : FieldRegistry) (above : String) (d : ℕ) (f : FieldPolicy) :
    (registerLeaf r (pathBelow above f.name) f).Has (stampedLeaf above d f) := by
  have hpath : ∀ (r : FieldRegistry) (name : String), ∃ id, (r.resolve name).get name = some id := by
    intro r name
    unfold resolve
    split_ifs with hin
    · exact isSome_iff_exists.mp hin
    · exact ⟨r.nextId, by rw [FieldRegistry.get, get?_insert, if_pos rfl]⟩
  have hexact : ∀ (r : FieldRegistry) (name : String),
      ∃ id, (r.resolveExact name).getExact name = some id := by
    intro r name
    unfold resolveExact
    split_ifs with hin
    · exact isSome_iff_exists.mp hin
    · exact ⟨r.nextId, by rw [getExact, get?_insert, if_pos rfl]⟩
  unfold registerLeaf
  split_ifs with hf
  · obtain ⟨id, hid⟩ := hpath r (pathBelow above f.name)
    exact ⟨⟨id, (extends_resolveExact _ _).ids _ id hid⟩, fun _ => hexact _ _⟩
  · exact ⟨hpath r _, fun h => absurd h hf⟩

namespace FieldPolicy

open List

mutual

def nodes : FieldPolicy → List FieldPolicy
  | f@⟨_, kind, _, _, _, _, _, subfields, _, _, _, _, _⟩ => f :: if kind = .struct then nodesOf subfields else []

def nodesOf : List FieldPolicy → List FieldPolicy
  | [] => []
  | f :: fs => nodes f ++ nodesOf fs

end

theorem nodes_leaf {f : FieldPolicy} (h : f.kind ≠ .struct) : f.nodes = [f] := by
  cases f
  rw [nodes, if_neg h]

theorem nodes_struct {f : FieldPolicy} (h : f.kind = .struct) : f.nodes = f :: nodesOf f.subfields := by
  cases f
  rw [nodes, if_pos h]

mutual

def paths (above : String) : FieldPolicy → List String
  | ⟨name, kind, _, _, _, _, _, subfields, _, _, _, _, _⟩ =>
    pathBelow above name :: if kind = .struct then pathsOf (pathBelow above name) subfields else []

def pathsOf (above : String) : List FieldPolicy → List String
  | [] => []
  | f :: fs => paths above f ++ pathsOf above fs

end

theorem self_mem_nodes (f : FieldPolicy) : f ∈ f.nodes := by
  cases f
  rw [nodes]
  exact mem_cons_self

mutual

theorem leaves_eq : ∀ f : FieldPolicy, f.leaves = f.nodes.filter fun g => g.kind ≠ .struct ∧ g.kind ≠ .none
  | ⟨name, kind, s, l, w, e, rep, subfields, full, a, rk, dep, v⟩ => by
    simp only [leaves]
    split_ifs with hstruct hnone
    · rw [nodes_struct (by exact hstruct), filter_cons_of_neg (by simp [hstruct])]
      exact leavesOf_eq subfields
    · rw [nodes_leaf (by exact hstruct), filter_cons_of_neg (by simp [hnone]), filter_nil]
    · rw [nodes_leaf (by exact hstruct), filter_cons_of_pos (by simp [hstruct, hnone]), filter_nil]

theorem leavesOf_eq : ∀ fs : List FieldPolicy,
    leavesOf fs = (nodesOf fs).filter fun g => g.kind ≠ .struct ∧ g.kind ≠ .none
  | [] => rfl
  | f :: fs => by rw [leavesOf, nodesOf, filter_append, leaves_eq f, leavesOf_eq fs]

end

theorem mem_leavesOf {fs : List FieldPolicy} {g : FieldPolicy} :
    g ∈ leavesOf fs ↔ g ∈ nodesOf fs ∧ g.kind ≠ .struct ∧ g.kind ≠ .none := by
  rw [leavesOf_eq, mem_filter, decide_eq_true_eq]

mutual

theorem byPath_eq (path : String) :
    ∀ f : FieldPolicy, byPath path f = f.nodes.find? fun g => g.fullPath = path
  | ⟨name, kind, s, l, w, e, rep, subfields, full, a, rk, dep, v⟩ => by
    simp only [byPath, nodes, find?_cons]
    by_cases hpath : full = path
    · simp [hpath]
    · by_cases hstruct : kind = .struct
      · simpa [hpath, hstruct] using byPathOf_eq path subfields
      · simp [hpath, hstruct]

theorem byPathOf_eq (path : String) :
    ∀ fs : List FieldPolicy, byPathOf path fs = (nodesOf fs).find? fun g => g.fullPath = path
  | [] => rfl
  | f :: fs => by rw [byPathOf, nodesOf, find?_append, byPath_eq path f, byPathOf_eq path fs]

end

mutual

theorem map_fullPath_stampField (above : String) (d : ℕ) : ∀ (f : FieldPolicy) (r : FieldRegistry),
    (stampField above d f r).1.nodes.map fullPath = f.paths above
  | ⟨name, kind, s, l, w, e, rep, subfields, full, a, rk, dep, v⟩, r => by
    by_cases hstruct : kind = .struct
    · rw [stampField_struct (by exact hstruct), nodes_struct (by exact hstruct), paths, if_pos hstruct, map_cons]
      exact congrArg _ (map_fullPath_stampFields _ (d + 1) subfields r)
    · rw [stampField_leaf (by exact hstruct), nodes_leaf (by exact hstruct), paths, if_neg hstruct]
      rfl

theorem map_fullPath_stampFields (above : String) (d : ℕ) : ∀ (fs : List FieldPolicy) (r : FieldRegistry),
    (nodesOf (stampFields above d fs r).1).map fullPath = pathsOf above fs
  | [], _ => rfl
  | f :: fs, r => by
    simp only [stampFields, nodesOf, pathsOf, map_append, map_fullPath_stampField above d f r,
      map_fullPath_stampFields above d fs (stampField above d f r).2]

end

mutual

theorem has_nodes_stampField (above : String) (d : ℕ) : ∀ (f : FieldPolicy) (r : FieldRegistry),
    ∀ g ∈ (stampField above d f r).1.nodes, g.kind ≠ .struct → (stampField above d f r).2.Has g
  | ⟨name, kind, s, l, w, e, rep, subfields, p, a, rk, dep, v⟩, r, g, hg, hleaf => by
    by_cases hstruct : kind = .struct
    · rw [stampField_struct (by exact hstruct)] at hg ⊢
      rw [nodes_struct (by exact hstruct)] at hg
      rcases mem_cons.mp hg with rfl | hg
      · exact absurd hstruct hleaf
      · exact has_nodes_stampFields _ (d + 1) subfields r g hg hleaf
    · rw [stampField_leaf (by exact hstruct)] at hg ⊢
      rw [nodes_leaf (by exact hstruct), mem_singleton] at hg
      rw [hg]
      exact has_registerLeaf r above d ⟨name, kind, s, l, w, e, rep, subfields, p, a, rk, dep, v⟩

theorem has_nodes_stampFields (above : String) (d : ℕ) : ∀ (fs : List FieldPolicy) (r : FieldRegistry),
    ∀ g ∈ nodesOf (stampFields above d fs r).1, g.kind ≠ .struct → (stampFields above d fs r).2.Has g
  | [], _, g, hg, _ => by cases hg
  | f :: fs, r, g, hg, hleaf => by
    simp only [stampFields, nodesOf, mem_append] at hg
    rcases hg with hg | hg
    · exact (has_nodes_stampField above d f r g hg hleaf).extends (advances_stampFields above d fs _).kept
    · exact has_nodes_stampFields above d fs _ g hg hleaf

end

end FieldPolicy

theorem IndexPolicy.resolve_registered (p : IndexPolicy) (file : Option FieldRegistry) :
    ∀ g ∈ (p.resolve file).indexedFields, (p.resolve file).registry.Has g := by
  intro g hg
  obtain ⟨hnode, hleaf, -⟩ := FieldPolicy.mem_leavesOf.mp hg
  exact FieldPolicy.has_nodes_stampFields "" 0 p.fields (load file) g hnode hleaf

/-! ### What a registry keeps apart -/

namespace FieldRegistry

/-- No id is given to two paths, nor to a path and an exact index. -/
structure Apart (r : FieldRegistry) : Prop where
  ids : ∀ {path path' id}, r.get path = some id → r.get path' = some id → path = path'
  exactIds : ∀ {path path' id}, r.getExact path = some id → r.getExact path' = some id → path = path'
  plain : ∀ {path path' id}, r.get path = some id → r.getExact path' ≠ some id

theorem apart_new : new.Apart := by
  refine ⟨fun {path path' id} h => ?_, fun {path path' id} h => ?_, fun {path path' id} h => ?_⟩
  all_goals cases h

theorem get_resolve (r : FieldRegistry) {name path : String} {id : XPathId} (h : (r.resolve name).get path = some id) :
    r.get path = some id ∨ path = name ∧ id = r.nextId := by
  unfold resolve at h
  split_ifs at h
  · exact .inl h
  · rw [get, get?_insert] at h
    split_ifs at h with heq
    · exact .inr ⟨heq, (some_inj.mp h).symm⟩
    · exact .inl h

theorem getExact_resolveExact (r : FieldRegistry) {name path : String} {id : XPathId}
    (h : (r.resolveExact name).getExact path = some id) :
    r.getExact path = some id ∨ path = name ∧ id = r.nextId := by
  unfold resolveExact at h
  split_ifs at h
  · exact .inl h
  · rw [getExact, get?_insert] at h
    split_ifs at h with heq
    · exact .inr ⟨heq, (some_inj.mp h).symm⟩
    · exact .inl h

theorem getExact_resolve (r : FieldRegistry) (name path : String) : (r.resolve name).getExact path = r.getExact path := by
  unfold resolve
  split_ifs <;> rfl

theorem get_resolveExact (r : FieldRegistry) (name path : String) : (r.resolveExact name).get path = r.get path := by
  unfold resolveExact
  split_ifs <;> rfl

theorem Apart.resolve {r : FieldRegistry} (h : r.Apart) (hfresh : r.Fresh) (name : String) : (r.resolve name).Apart := by
  refine ⟨fun {path path' id} hpath hpath' => ?_, fun {path path' id} hpath hpath' => ?_,
    fun {path path' id} hpath hexact => ?_⟩
  · rcases r.get_resolve hpath with hold | ⟨rfl, hid⟩
    · rcases r.get_resolve hpath' with hold' | ⟨rfl, hid⟩
      · exact h.ids hold hold'
      · exact absurd hid (hfresh.ids path id hold).ne
    · rcases r.get_resolve hpath' with hold' | ⟨rfl, -⟩
      · exact absurd hid (hfresh.ids path' id hold').ne
      · rfl
  · rw [getExact_resolve] at hpath hpath'
    exact h.exactIds hpath hpath'
  · rw [getExact_resolve] at hexact
    rcases r.get_resolve hpath with hold | ⟨-, hid⟩
    · exact h.plain hold hexact
    · exact absurd hid (hfresh.exactIds path' id hexact).ne

theorem Apart.resolveExact {r : FieldRegistry} (h : r.Apart) (hfresh : r.Fresh) (name : String) :
    (r.resolveExact name).Apart := by
  refine ⟨fun {path path' id} hpath hpath' => ?_, fun {path path' id} hpath hpath' => ?_,
    fun {path path' id} hpath hexact => ?_⟩
  · rw [get_resolveExact] at hpath hpath'
    exact h.ids hpath hpath'
  · rcases r.getExact_resolveExact hpath with hold | ⟨rfl, hid⟩
    · rcases r.getExact_resolveExact hpath' with hold' | ⟨rfl, hid⟩
      · exact h.exactIds hold hold'
      · exact absurd hid (hfresh.exactIds path id hold).ne
    · rcases r.getExact_resolveExact hpath' with hold' | ⟨rfl, -⟩
      · exact absurd hid (hfresh.exactIds path' id hold').ne
      · rfl
  · rw [get_resolveExact] at hpath
    rcases r.getExact_resolveExact hexact with hold | ⟨-, hid⟩
    · exact h.plain hpath hold
    · exact absurd hid (hfresh.ids path id hpath).ne

end FieldRegistry

theorem apart_registerLeaf {r : FieldRegistry} (h : r.Apart) (hfresh : r.Fresh) (path : String) (f : FieldPolicy) :
    (registerLeaf r path f).Apart := by
  unfold registerLeaf
  split_ifs
  · exact (h.resolve hfresh path).resolveExact (hfresh.resolve path) path
  · exact h.resolve hfresh path

mutual

theorem apart_stampField (above : String) (d : ℕ) : ∀ (f : FieldPolicy) (r : FieldRegistry), r.Apart → r.Fresh →
    (stampField above d f r).2.Apart
  | ⟨_, kind, _, _, _, _, _, subfields, _, _, _, _, _⟩, r, h, hfresh => by
    by_cases hstruct : kind = .struct
    · rw [stampField_struct (by exact hstruct)]
      exact apart_stampFields _ (d + 1) subfields r h hfresh
    · rw [stampField_leaf (by exact hstruct)]
      exact apart_registerLeaf h hfresh _ _

theorem apart_stampFields (above : String) (d : ℕ) : ∀ (fs : List FieldPolicy) (r : FieldRegistry), r.Apart → r.Fresh →
    (stampFields above d fs r).2.Apart
  | [], _, h, _ => h
  | f :: fs, r, h, hfresh =>
    apart_stampFields above d fs _ (apart_stampField above d f r h hfresh)
      ((advances_stampField above d f r).fresh hfresh)

end

/-! ### Policies resolved one after the other -/

namespace IndexPolicy

/-- The registry file after `resolve`: it is saved when it has new paths. -/
def registrySaved (resolved : IndexPolicy) (file : Option FieldRegistry) : Option FieldRegistry :=
  if resolved.registry.len ≠ (load file).len then some resolved.registry else file

/-- The policies as they are resolved, each with the registry file that the ones before it left. -/
def resolveAll : List IndexPolicy → Option FieldRegistry → List IndexPolicy
  | [], _ => []
  | p :: ps, file => p.resolve file :: resolveAll ps ((p.resolve file).registrySaved file)

/-- The fields of one policy are told apart by their ids and their paths. -/
structure FieldsApart (p : IndexPolicy) : Prop where
  leaves : ((FieldPolicy.nodesOf p.fields).filter fun f => f.kind ≠ .struct).Pairwise fun f g => f.xpath p ≠ g.xpath p
  ids : ∀ path path' id, p.xpathOf path = some id → p.xpathOf path' = some id → path = path'
  plain : ∀ path path' id, p.xpathOf path = some id → p.registry.getExact path' ≠ some id
  found : ∀ f ∈ FieldPolicy.nodesOf p.fields, p.fieldByPath f.fullPath = some f

structure IdsKept (p q : IndexPolicy) : Prop where
  kept : p.registry.Extends q.registry
  ids : ∀ path path' id, p.xpathOf path = some id → q.xpathOf path' = some id → path = path'
  exactIds : ∀ path path' id, p.registry.getExact path = some id → q.registry.getExact path' = some id → path = path'
  plain : ∀ path path' id, p.xpathOf path = some id → q.registry.getExact path' ≠ some id
  exact : ∀ path path' id, p.registry.getExact path = some id → q.xpathOf path' ≠ some id

theorem load_registrySaved (p : IndexPolicy) (file : Option FieldRegistry) :
    load ((p.resolve file).registrySaved file) = (p.resolve file).registry := by
  have hadvances := p.advances_resolve file
  unfold registrySaved
  split_ifs with hlen
  · exact (hadvances.fresh (fresh_load file)).load_eq
  · rcases hadvances.grown with heq | hlt
    · exact heq.symm
    · omega

theorem apart_resolve (p : IndexPolicy) {file : Option FieldRegistry} (h : (load file).Apart) :
    (p.resolve file).registry.Apart :=
  apart_stampFields "" 0 p.fields _ h (fresh_load file)

theorem IdsKept.of_apart {p q : IndexPolicy} (h : p.registry.Extends q.registry) (hq : q.registry.Apart) : IdsKept p q where
  kept := h
  ids := fun path _ id hpath hpath' => hq.ids (h.ids path id hpath) hpath'
  exactIds := fun path _ id hpath hpath' => hq.exactIds (h.exactIds path id hpath) hpath'
  plain := fun path _ id hpath => hq.plain (h.ids path id hpath)
  exact := fun path _ id hpath hpath' => hq.plain hpath' (h.exactIds path id hpath)

theorem resolveAll_kept (ps : List IndexPolicy) {file : Option FieldRegistry} (h : (load file).Apart) :
    (resolveAll ps file).Pairwise IdsKept ∧
      ∀ q ∈ resolveAll ps file, (load file).Extends q.registry ∧ q.registry.Apart := by
  induction ps generalizing file with
  | nil => exact ⟨.nil, fun q hq => by cases hq⟩
  | cons p ps ih =>
    have hp := p.apart_resolve h
    have hkept := (p.advances_resolve file).kept
    have hload := p.load_registrySaved file
    obtain ⟨hpairs, hlater⟩ := ih (by rw [hload]; exact hp)
    rw [hload] at hlater
    rw [resolveAll]
    refine ⟨List.pairwise_cons.mpr ⟨fun q hq => ?_, hpairs⟩, List.forall_mem_cons.mpr ⟨⟨hkept, hp⟩, fun q hq => ?_⟩⟩
    · exact .of_apart (hlater q hq).1 (hlater q hq).2
    · exact ⟨hkept.trans (hlater q hq).1, (hlater q hq).2⟩

end IndexPolicy

/-! ### Fields told apart -/

namespace FieldPolicy

open List

mutual

theorem sizeOf_of_mem_nodes : ∀ (f : FieldPolicy), ∀ g ∈ f.nodes, sizeOf g ≤ sizeOf f
  | ⟨name, kind, s, l, w, e, rep, subfields, full, a, rk, dep, v⟩, g, hg => by
    by_cases hstruct : kind = .struct
    · rw [nodes_struct hstruct] at hg
      rcases mem_cons.mp hg with rfl | hg
      · exact le_rfl
      · have hlt := sizeOf_of_mem_nodesOf subfields g hg
        have hsub : sizeOf subfields < sizeOf (FieldPolicy.mk name kind s l w e rep subfields full a rk dep v) := by
          rw [mk.sizeOf_spec]
          omega
        omega
    · rw [nodes_leaf hstruct, mem_singleton] at hg
      rw [hg]

theorem sizeOf_of_mem_nodesOf : ∀ (fs : List FieldPolicy), ∀ g ∈ nodesOf fs, sizeOf g < sizeOf fs
  | [], g, hg => by cases hg
  | f :: fs, g, hg => by
    rw [nodesOf, mem_append] at hg
    rw [cons.sizeOf_spec]
    rcases hg with hg | hg
    · have := sizeOf_of_mem_nodes f g hg
      omega
    · have := sizeOf_of_mem_nodesOf fs g hg
      omega

end

theorem not_mem_subfields {f : FieldPolicy} : f ∉ nodesOf f.subfields := by
  intro hf
  have hlt := sizeOf_of_mem_nodesOf f.subfields f hf
  have hsub : sizeOf f.subfields < sizeOf f := by
    cases f
    rw [FieldPolicy.mk.sizeOf_spec]
    simp only
    omega
  omega

mutual

theorem count_nodes_le {f g : FieldPolicy} (hstruct : f.kind = .struct) (hg : g ∈ nodesOf f.subfields) :
    ∀ h : FieldPolicy, h.nodes.count f ≤ h.nodes.count g
  | ⟨name, kind, s, l, w, e, rep, subfields, full, a, rk, dep, v⟩ => by
    by_cases hkind : kind = .struct
    · have hbelow := count_nodesOf_le hstruct hg subfields
      rw [nodes_struct (by exact hkind), count_cons, count_cons]
      by_cases heq : (⟨name, kind, s, l, w, e, rep, subfields, full, a, rk, dep, v⟩ : FieldPolicy) == f
      · rw [if_pos heq]
        have hself : f = ⟨name, kind, s, l, w, e, rep, subfields, full, a, rk, dep, v⟩ := (eq_of_beq heq).symm
        have hnone : (nodesOf subfields).count f = 0 := by
          refine count_eq_zero.mpr ?_
          have := not_mem_subfields (f := f)
          rwa [hself] at this ⊢
        have hsome : 0 < (nodesOf subfields).count g := by
          refine count_pos_iff.mpr ?_
          rwa [hself] at hg
        simp only at hnone hsome ⊢
        omega
      · rw [if_neg heq]
        exact Nat.le_add_right_of_le hbelow
    · rw [nodes_leaf (by exact hkind), count_eq_zero.mpr]
      · exact Nat.zero_le _
      · intro hmem
        rw [mem_singleton.mp hmem] at hstruct
        exact hkind hstruct

theorem count_nodesOf_le {f g : FieldPolicy} (hstruct : f.kind = .struct) (hg : g ∈ nodesOf f.subfields) :
    ∀ hs : List FieldPolicy, (nodesOf hs).count f ≤ (nodesOf hs).count g
  | [] => le_rfl
  | h :: hs => by
    rw [nodesOf, count_append, count_append]
    exact Nat.add_le_add (count_nodes_le hstruct hg h) (count_nodesOf_le hstruct hg hs)

end

end FieldPolicy

namespace IndexPolicy

open List Except

theorem validateFields_cons {d : ℕ} {f : FieldPolicy} {fs : List FieldPolicy} :
    validateFields d (f :: fs) = .ok () ↔ validateField d f = .ok () ∧ validateFields d fs = .ok () := by
  constructor
  · intro h
    obtain ⟨_, hf, hfs⟩ := of_bind_ok h
    exact ⟨hf, hfs⟩
  · rintro ⟨hf, hfs⟩
    rw [validateFields, hf]
    exact hfs

theorem validateFields_of_struct {d : ℕ} {f : FieldPolicy} (hstruct : f.kind = .struct) (h : validateField d f = .ok ()) :
    f.subfields ≠ [] ∧ validateFields (d + 1) f.subfields = .ok () := by
  cases f with
  | mk name kind s l w e rep subfields full a rk dep v =>
    rw [validateField, if_pos hstruct] at h
    split_ifs at h with hempty hdeep
    exact ⟨by simpa using hempty, h⟩

theorem validateFields_of_validate {p : IndexPolicy} (h : p.validate = .ok ()) : validateFields 0 p.fields = .ok () := by
  obtain ⟨_, -, h⟩ := of_bind_ok h
  simp only at h
  split_ifs at h
  · cases h
  · obtain ⟨_, hfields, -⟩ := of_bind_ok h
    exact hfields

open FieldPolicy

mutual

theorem validateField_nodes (d : ℕ) : ∀ f : FieldPolicy, validateField d f = .ok () →
    ∀ g ∈ f.nodes, ∃ d', validateField d' g = .ok ()
  | ⟨name, kind, s, l, w, e, rep, subfields, full, a, rk, dep, v⟩, h, g, hg => by
    by_cases hstruct : kind = .struct
    · rw [nodes_struct hstruct] at hg
      rcases mem_cons.mp hg with rfl | hg
      · exact ⟨d, h⟩
      · exact validateFields_nodes (d + 1) subfields (validateFields_of_struct hstruct h).2 g hg
    · rw [nodes_leaf hstruct, mem_singleton] at hg
      exact ⟨d, hg ▸ h⟩

theorem validateFields_nodes (d : ℕ) : ∀ fs : List FieldPolicy, validateFields d fs = .ok () →
    ∀ g ∈ nodesOf fs, ∃ d', validateField d' g = .ok ()
  | [], _, g, hg => by cases hg
  | f :: fs, h, g, hg => by
    obtain ⟨hf, hfs⟩ := validateFields_cons.mp h
    rw [nodesOf, mem_append] at hg
    exact hg.elim (validateField_nodes d f hf g) (validateFields_nodes d fs hfs g)

end

mutual

theorem exists_leaf_of_validateField (d : ℕ) : ∀ f : FieldPolicy, validateField d f = .ok () →
    ∃ g ∈ f.nodes, g.kind ≠ .struct
  | ⟨name, kind, s, l, w, e, rep, subfields, full, a, rk, dep, v⟩, h => by
    by_cases hstruct : kind = .struct
    · obtain ⟨hne, hsub⟩ := validateFields_of_struct hstruct h
      obtain ⟨g, hg, hleaf⟩ := exists_leaf_of_validateFields (d + 1) subfields hsub hne
      rw [nodes_struct hstruct]
      exact ⟨g, mem_cons_of_mem _ hg, hleaf⟩
    · exact ⟨_, self_mem_nodes _, hstruct⟩

theorem exists_leaf_of_validateFields (d : ℕ) : ∀ fs : List FieldPolicy, validateFields d fs = .ok () → fs ≠ [] →
    ∃ g ∈ nodesOf fs, g.kind ≠ .struct
  | [], _, hne => absurd rfl hne
  | f :: fs, h, _ => by
    obtain ⟨g, hg, hleaf⟩ := exists_leaf_of_validateField d f (validateFields_cons.mp h).1
    rw [nodesOf]
    exact ⟨g, mem_append_left _ hg, hleaf⟩

end

theorem nodup_of_apart {fs : List FieldPolicy} {d : ℕ} (hvalid : validateFields d fs = .ok ())
    (hleaves : ((nodesOf fs).filter fun f => f.kind ≠ .struct).Nodup)
    (hpaths : ∀ f ∈ nodesOf fs, ∀ g ∈ nodesOf fs, f.fullPath = g.fullPath → f = g) :
    ((nodesOf fs).map fullPath).Nodup := by
  have hleaf : ∀ g : FieldPolicy, g.kind ≠ .struct → (nodesOf fs).count g ≤ 1 := by
    intro g hg
    rw [← count_filter (p := fun f : FieldPolicy => f.kind ≠ .struct) (by simpa using hg)]
    exact nodup_iff_count_le_one.mp hleaves g
  refine Nodup.map_on (fun f hf g hg heq => hpaths f hf g hg heq) (nodup_iff_count_le_one.mpr fun f => ?_)
  by_cases hmem : f ∈ nodesOf fs
  · by_cases hstruct : f.kind = .struct
    · -- a struct that is there twice has a leaf that is there twice
      obtain ⟨d', hf⟩ := validateFields_nodes d fs hvalid f hmem
      obtain ⟨hne, hsub⟩ := validateFields_of_struct hstruct hf
      obtain ⟨g, hg, hkind⟩ := exists_leaf_of_validateFields (d' + 1) f.subfields hsub hne
      exact (count_nodesOf_le hstruct hg fs).trans (hleaf g hkind)
    · exact hleaf f hstruct
  · rw [count_eq_zero.mpr hmem]
    exact Nat.zero_le 1

theorem fieldsApart_iff {p : IndexPolicy} {file : Option FieldRegistry} (hvalid : p.validate = .ok ())
    (h : (load file).Apart) : (p.resolve file).FieldsApart ↔ (pathsOf "" p.fields).Nodup := by
  have hpaths : (nodesOf (p.resolve file).fields).map fullPath = pathsOf "" p.fields :=
    map_fullPath_stampFields "" 0 p.fields (load file)
  have hregistry := p.apart_resolve h
  rw [← hpaths]
  constructor
  · intro hapart
    have hvalid' := validateFields_of_validate ((p.validate_resolve file).trans hvalid)
    refine nodup_of_apart hvalid' ?_ fun f hf g hg heq => ?_
    · exact hapart.leaves.imp fun hne => ne_of_apply_ne (fun f => f.xpath (p.resolve file)) hne
    · have hfound := hapart.found f hf
      rw [heq, hapart.found g hg] at hfound
      exact (some_inj.mp hfound).symm
  · intro hnodup
    have hpairs : (nodesOf (p.resolve file).fields).Pairwise fun f g => f.fullPath ≠ g.fullPath :=
      pairwise_map.mp hnodup
    refine ⟨?_, fun _ _ _ h h' => hregistry.ids h h', fun _ _ _ h => hregistry.plain h, fun f hf => ?_⟩
    · refine (hpairs.filter _).imp_of_mem fun {f g} hf hg hne hsame => ?_
      obtain ⟨hmem, hkind⟩ := mem_filter.mp hf
      obtain ⟨⟨id, hid⟩, -⟩ := has_nodes_stampFields "" 0 p.fields (load file) f hmem
        (by simpa using hkind)
      exact hne (hregistry.ids hid (hsame.symm.trans hid))
    · rw [fieldByPath, byPathOf_eq]
      cases hfind : (nodesOf (p.resolve file).fields).find? fun g => g.fullPath = f.fullPath with
      | none => exact absurd (find?_eq_none.mp hfind f hf) (by simp)
      | some g =>
        have hpath : g.fullPath = f.fullPath := by simpa using find?_some hfind
        rw [inj_on_of_nodup_map hnodup (mem_of_find?_eq_some hfind) hf hpath]

/-- Over any run of policies, fields have paths and ids of their own, exactly when the names of each
policy join to different paths; a path keeps its id in any case. -/
theorem paths_unique_iff (ps : List IndexPolicy) (hvalid : ∀ p ∈ ps, p.validate = .ok ()) :
    ((∀ q ∈ resolveAll ps none, q.FieldsApart) ∧ (resolveAll ps none).Pairwise IdsKept) ↔
      ∀ p ∈ ps, (pathsOf "" p.fields).Nodup := by
  have hfile : (load none).Apart := apart_new
  rw [and_iff_left (resolveAll_kept ps hfile).1]
  generalize none = file at hfile ⊢
  induction ps generalizing file with
  | nil => simp [resolveAll]
  | cons p ps ih =>
    obtain ⟨hp, hps⟩ := forall_mem_cons.mp hvalid
    have hrest := ih hps ((p.resolve file).registrySaved file) (by
      rw [load_registrySaved]
      exact p.apart_resolve hfile)
    rw [resolveAll, forall_mem_cons, forall_mem_cons]
    exact and_congr (fieldsApart_iff hp hfile) hrest

def slashed : IndexPolicy :=
  .new .empty [.new "id" .id, .new "a/b" .text, { FieldPolicy.new "a" .struct with subfields := [.new "b" .text] }]

theorem paths_unique_default : (∀ q ∈ resolveAll [defaultDocument, .new .empty [.new "id" .id,
      { FieldPolicy.new "a" .struct with subfields := [.new "id" .text, .new "b" .text] }]] none, q.FieldsApart) ∧
    (resolveAll [defaultDocument, .new .empty [.new "id" .id,
      { FieldPolicy.new "a" .struct with subfields := [.new "id" .text, .new "b" .text] }]] none).Pairwise IdsKept := by
  refine (paths_unique_iff _ ?_).mpr ?_
  · simp only [forall_mem_cons, not_mem_nil, false_imp_iff, implies_true, and_true]
    constructor <;> rfl
  · decide

/-- The text and the field of the struct come to one path. -/
theorem paths_shared : slashed.validate = .ok () ∧ ¬ ((∀ q ∈ resolveAll [slashed] none, q.FieldsApart) ∧
    (resolveAll [slashed] none).Pairwise IdsKept) := by
  have hvalid : slashed.validate = .ok () := rfl
  have hfile : (load none).Apart := apart_new
  refine ⟨hvalid, fun h => ?_⟩
  have hnodup := (fieldsApart_iff hvalid hfile).mp (h.1 _ mem_cons_self)
  exact absurd hnodup (by decide)

end IndexPolicy

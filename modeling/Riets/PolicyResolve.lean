/-
Resolving a policy.

The registry hands out the ids of field paths.  It only grows: an id, once
given to a path, stays with it, and no id is given out twice.
-/
import Riets.IndexPolicy

namespace FieldRegistry

open SortedMap Nat List

structure Extends (r r' : FieldRegistry) : Prop where
  ids : ∀ name id, r.get name = some id → r'.get name = some id
  exactIds : ∀ name id, r.getExact name = some id → r'.getExact name = some id

theorem Extends.refl (r : FieldRegistry) : r.Extends r := ⟨fun _ _ h => h, fun _ _ h => h⟩

variable {r r' r'' : FieldRegistry}

theorem Extends.trans (h : r.Extends r') (h' : r'.Extends r'') : r.Extends r'' :=
  ⟨fun name id hid => h'.ids name id (h.ids name id hid),
    fun name id hid => h'.exactIds name id (h.exactIds name id hid)⟩

theorem extends_resolve (r : FieldRegistry) (name : String) : r.Extends (r.resolve name) := by
  unfold resolve
  split_ifs with h
  · exact .refl r
  · refine ⟨fun name' id hid => ?_, fun _ _ hid => hid⟩
    have hne : name' ≠ name := by
      rintro rfl
      rw [show r.ids.get? name' = some id from hid] at h
      simp at h
    rw [get, get?_insert, if_neg hne]
    exact hid

theorem extends_resolveExact (r : FieldRegistry) (name : String) : r.Extends (r.resolveExact name) := by
  unfold resolveExact
  split_ifs with h
  · exact .refl r
  · refine ⟨fun _ _ hid => hid, fun name' id hid => ?_⟩
    have hne : name' ≠ name := by
      rintro rfl
      rw [show r.exactIds.get? name' = some id from hid] at h
      simp at h
    rw [getExact, get?_insert, if_neg hne]
    exact hid

theorem resolve_eq_self {name : String} (h : (r.resolve name).Extends r') :
    r'.resolve name = r' := by
  have hmem : ∃ id, (r.resolve name).get name = some id := by
    unfold resolve
    split_ifs with hin
    · exact Option.isSome_iff_exists.mp hin
    · exact ⟨r.nextId, by simp [get]⟩
  obtain ⟨id, hid⟩ := hmem
  have := h.ids name id hid
  rw [resolve, if_pos]
  rw [show r'.ids.get? name = some id from this]
  rfl

theorem resolveExact_eq_self {name : String} (h : (r.resolveExact name).Extends r') :
    r'.resolveExact name = r' := by
  have hmem : ∃ id, (r.resolveExact name).getExact name = some id := by
    unfold resolveExact
    split_ifs with hin
    · exact Option.isSome_iff_exists.mp hin
    · exact ⟨r.nextId, by simp [getExact]⟩
  obtain ⟨id, hid⟩ := hmem
  have := h.exactIds name id hid
  rw [resolveExact, if_pos]
  rw [show r'.exactIds.get? name = some id from this]
  rfl

/-! ### What registering adds -/

structure Fresh (r : FieldRegistry) : Prop where
  pos : 0 < r.nextId
  ids : ∀ name id, r.get name = some id → id < r.nextId
  exactIds : ∀ name id, r.getExact name = some id → id < r.nextId

theorem Fresh.resolve (h : r.Fresh) (name : String) : (r.resolve name).Fresh := by
  unfold FieldRegistry.resolve
  split_ifs with hin
  · exact h
  · refine ⟨succ_pos _, fun name' id hid => ?_, fun name' id hid => ?_⟩
    · rw [get, get?_insert] at hid
      split_ifs at hid with heq
      · rw [← Option.some.inj hid]
        exact lt_succ_self r.nextId
      · exact lt_succ_of_lt (h.ids name' id hid)
    · exact lt_succ_of_lt (h.exactIds name' id hid)

theorem Fresh.resolveExact (h : r.Fresh) (name : String) : (r.resolveExact name).Fresh := by
  unfold FieldRegistry.resolveExact
  split_ifs with hin
  · exact h
  · refine ⟨succ_pos _, fun name' id hid => ?_, fun name' id hid => ?_⟩
    · exact lt_succ_of_lt (h.ids name' id hid)
    · rw [getExact, get?_insert] at hid
      split_ifs at hid with heq
      · rw [← Option.some.inj hid]
        exact lt_succ_self r.nextId
      · exact lt_succ_of_lt (h.exactIds name' id hid)

theorem fresh_new : new.Fresh := by
  refine ⟨one_pos, fun name id hid => ?_, fun name id hid => ?_⟩
  · cases hid
  · cases hid

def maxId (m : SortedMap String XPathId) : ℕ := (m.entries.map Prod.snd).foldl max 0

theorem le_maxId {m : SortedMap String XPathId} {name : String} {id : XPathId} (h : m.get? name = some id) :
    id ≤ maxId m :=
  (Keyed.le_foldl_max _ _).2 id (mem_map.mpr ⟨(name, id), mem_entries.mpr h, rfl⟩)

theorem maxId_lt {m : SortedMap String XPathId} {n : ℕ} (hpos : 0 < n)
    (h : ∀ name id, m.get? name = some id → id < n) : maxId m < n := by
  refine foldlRecOn (motive := fun a => a < n) _ _ hpos fun a ha id hid => ?_
  obtain ⟨e, he, rfl⟩ := mem_map.mp hid
  exact max_lt ha (h e.1 e.2 (mem_entries.mp he))

theorem load_some (r : FieldRegistry) :
    load (some r) = { r with nextId := max (max r.nextId (maxId r.ids + 1)) (maxId r.exactIds + 1) } := rfl

theorem fresh_load (file : Option FieldRegistry) : (load file).Fresh := by
  cases file with
  | none => exact fresh_new
  | some r =>
    rw [load_some]
    refine ⟨lt_of_lt_of_le (succ_pos _) (le_max_right _ _), fun name id hid => ?_, fun name id hid => ?_⟩
    · exact lt_of_lt_of_le (lt_succ_of_le (le_maxId hid)) (le_trans (le_max_right _ _) (le_max_left _ _))
    · exact lt_of_lt_of_le (lt_succ_of_le (le_maxId hid)) (le_max_right _ _)

theorem Fresh.load_eq (h : r.Fresh) : load (some r) = r := by
  have hids : maxId r.ids + 1 ≤ r.nextId := maxId_lt h.pos h.ids
  have hexact : maxId r.exactIds + 1 ≤ r.nextId := maxId_lt h.pos h.exactIds
  rw [load_some, max_eq_left hids, max_eq_left hexact]

/-- `r'` is `r`, or has more paths: the test by which `resolve` decides whether to save. -/
def Grown (r r' : FieldRegistry) : Prop := r' = r ∨ r.len < r'.len

theorem Grown.trans (h : r.Grown r') (h' : r'.Grown r'') : r.Grown r'' := by
  rcases h with rfl | h
  · exact h'
  · rcases h' with rfl | h'
    · exact .inr h
    · exact .inr (h.trans h')

theorem grown_resolve (r : FieldRegistry) (name : String) : r.Grown (r.resolve name) := by
  unfold resolve
  split_ifs with h
  · exact .inl rfl
  · right
    have hnone : r.ids.get? name = none := by simpa using h
    simp only [len, size_insert_of_none hnone]
    omega

theorem grown_resolveExact (r : FieldRegistry) (name : String) : r.Grown (r.resolveExact name) := by
  unfold resolveExact
  split_ifs with h
  · exact .inl rfl
  · right
    have hnone : r.exactIds.get? name = none := by simpa using h
    simp only [len, size_insert_of_none hnone]
    omega

structure Advances (r r' : FieldRegistry) : Prop where
  kept : r.Extends r'
  grown : r.Grown r'
  fresh : r.Fresh → r'.Fresh

theorem Advances.refl (r : FieldRegistry) : r.Advances r := ⟨.refl r, .inl rfl, id⟩

theorem Advances.trans (h : r.Advances r') (h' : r'.Advances r'') : r.Advances r'' :=
  ⟨h.kept.trans h'.kept, h.grown.trans h'.grown, fun hr => h'.fresh (h.fresh hr)⟩

theorem advances_resolve (r : FieldRegistry) (name : String) : r.Advances (r.resolve name) :=
  ⟨extends_resolve r name, grown_resolve r name, fun h => h.resolve name⟩

theorem advances_resolveExact (r : FieldRegistry) (name : String) : r.Advances (r.resolveExact name) :=
  ⟨extends_resolveExact r name, grown_resolveExact r name, fun h => h.resolveExact name⟩

end FieldRegistry

/-! ### Stamping -/

open FieldRegistry

def stampedLeaf (above : String) (d : ℕ) (f : FieldPolicy) : FieldPolicy :=
  { f with
    fullPath := pathBelow above f.name
    rowKeyed := 0 < d ∨ (f.repeated = true ∧ ¬ (f.kind = .text ∨ f.kind.isId))
    depth := if f.repeated then 1 else d }

def registerLeaf (r : FieldRegistry) (path : String) (f : FieldPolicy) : FieldRegistry :=
  if f.hasExactIndex then (r.resolve path).resolveExact path else r.resolve path

variable {f : FieldPolicy}

theorem stampField_leaf (h : f.kind ≠ .struct) (above : String) (d : ℕ) (r : FieldRegistry) :
    stampField above d f r = (stampedLeaf above d f, registerLeaf r (pathBelow above f.name) f) := by
  cases f
  unfold stampField
  rw [if_neg h]
  rfl

theorem stampField_struct (h : f.kind = .struct) (above : String) (d : ℕ) (r : FieldRegistry) :
    stampField above d f r =
      ({ f with
          fullPath := pathBelow above f.name
          depth := d + 1
          subfields := (stampFields (pathBelow above f.name) (d + 1) f.subfields r).1 },
        (stampFields (pathBelow above f.name) (d + 1) f.subfields r).2) := by
  cases f
  unfold stampField
  rw [if_pos h]

theorem advances_registerLeaf (r : FieldRegistry) (path : String) (f : FieldPolicy) :
    r.Advances (registerLeaf r path f) := by
  unfold registerLeaf
  split_ifs
  · exact (advances_resolve r path).trans (advances_resolveExact _ path)
  · exact advances_resolve r path

theorem registerLeaf_eq_self {r r' : FieldRegistry} {path : String}
    (h : (registerLeaf r path f).Extends r') : registerLeaf r' path f = r' := by
  unfold registerLeaf at h ⊢
  split_ifs at h ⊢
  · have hpath := (advances_resolveExact (r.resolve path) path).kept.trans h
    rw [resolve_eq_self hpath, resolveExact_eq_self h]
  · exact resolve_eq_self h

mutual

theorem advances_stampField (above : String) (d : ℕ) :
    ∀ (f : FieldPolicy) (r : FieldRegistry), r.Advances (stampField above d f r).2
  | ⟨_, kind, _, _, _, _, _, subfields, _, _, _, _, _⟩, r => by
    by_cases hstruct : kind = .struct
    · rw [stampField_struct (by exact hstruct)]
      exact advances_stampFields _ (d + 1) subfields r
    · rw [stampField_leaf (by exact hstruct)]
      exact advances_registerLeaf r _ _

theorem advances_stampFields (above : String) (d : ℕ) :
    ∀ (fs : List FieldPolicy) (r : FieldRegistry), r.Advances (stampFields above d fs r).2
  | [], r => .refl r
  | f :: fs, r => by
    have hf := advances_stampField above d f r
    have hfs := advances_stampFields above d fs (stampField above d f r).2
    exact hf.trans hfs

end

mutual

theorem stampField_stampField (above : String) (d : ℕ) :
    ∀ (f : FieldPolicy) (r r' : FieldRegistry), (stampField above d f r).2.Extends r' →
      stampField above d (stampField above d f r).1 r' = ((stampField above d f r).1, r')
  | ⟨name, kind, s, l, w, e, rep, subfields, p, a, rk, dep, v⟩, r, r', h => by
    by_cases hstruct : kind = .struct
    · rw [stampField_struct (f := ⟨name, kind, s, l, w, e, rep, subfields, p, a, rk, dep, v⟩) hstruct] at h ⊢
      have hsub := stampFields_stampFields (pathBelow above name) (d + 1) subfields r r' h
      rw [stampField_struct (by exact hstruct)]
      simp only [hsub]
    · rw [stampField_leaf (f := ⟨name, kind, s, l, w, e, rep, subfields, p, a, rk, dep, v⟩) hstruct] at h ⊢
      rw [stampField_leaf (by exact hstruct)]
      exact Prod.ext rfl (registerLeaf_eq_self h)

theorem stampFields_stampFields (above : String) (d : ℕ) :
    ∀ (fs : List FieldPolicy) (r r' : FieldRegistry), (stampFields above d fs r).2.Extends r' →
      stampFields above d (stampFields above d fs r).1 r' = ((stampFields above d fs r).1, r')
  | [], _, _, _ => rfl
  | f :: fs, r, r', h => by
    have hlater := advances_stampFields above d fs (stampField above d f r).2
    have hf := stampField_stampField above d f r r' (hlater.kept.trans h)
    have hfs := stampFields_stampFields above d fs (stampField above d f r).2 r' h
    simp only [stampFields, hf, hfs]

end

/-! ### What the checks see of a stamped field -/

open IndexPolicy

theorem stampField_kind (above : String) (d : ℕ) (f : FieldPolicy) (r : FieldRegistry) :
    (stampField above d f r).1.kind = f.kind := by
  by_cases hstruct : f.kind = .struct
  · rw [stampField_struct hstruct]
  · rw [stampField_leaf hstruct]
    rfl

theorem stampField_name (above : String) (d : ℕ) (f : FieldPolicy) (r : FieldRegistry) :
    (stampField above d f r).1.name = f.name := by
  by_cases hstruct : f.kind = .struct
  · rw [stampField_struct hstruct]
  · rw [stampField_leaf hstruct]
    rfl

theorem stampField_weight (above : String) (d : ℕ) (f : FieldPolicy) (r : FieldRegistry) :
    (stampField above d f r).1.weight = f.weight := by
  by_cases hstruct : f.kind = .struct
  · rw [stampField_struct hstruct]
  · rw [stampField_leaf hstruct]
    rfl

theorem length_stampFields (above : String) (d : ℕ) (fs : List FieldPolicy) (r : FieldRegistry) :
    (stampFields above d fs r).1.length = fs.length := by
  induction fs generalizing r with
  | nil => rfl
  | cons f fs ih => exact congrArg (· + 1) (ih _)

mutual

theorem validateField_stampField (above : String) (d n : ℕ) :
    ∀ (f : FieldPolicy) (r : FieldRegistry), validateField n (stampField above d f r).1 = validateField n f
  | ⟨name, kind, s, l, w, e, rep, subfields, p, a, rk, dep, v⟩, r => by
    by_cases hstruct : kind = .struct
    · rw [stampField_struct (by exact hstruct)]
      have hsub := validateFields_stampFields (pathBelow above name) (d + 1) (n + 1) subfields r
      have hempty : (stampFields (pathBelow above name) (d + 1) subfields r).1.isEmpty = subfields.isEmpty := by
        rw [Bool.eq_iff_iff, List.isEmpty_iff_length_eq_zero, List.isEmpty_iff_length_eq_zero,
          length_stampFields]
      simp only [validateField, hsub, hempty]
    · rw [stampField_leaf (by exact hstruct)]
      simp only [stampedLeaf, validateField, if_neg hstruct]

theorem validateFields_stampFields (above : String) (d n : ℕ) :
    ∀ (fs : List FieldPolicy) (r : FieldRegistry), validateFields n (stampFields above d fs r).1 = validateFields n fs
  | [], _ => rfl
  | f :: fs, r => by
    have hf := validateField_stampField above d n f r
    have hfs := validateFields_stampFields above d n fs (stampField above d f r).2
    simp only [stampFields, validateFields, hf, hfs]

end

theorem validateNames_stampFields (d : ℕ) (above : String) (names : List String) (fs : List FieldPolicy)
    (r : FieldRegistry) : validateNames names (stampFields above d fs r).1 = validateNames names fs := by
  induction fs generalizing names r with
  | nil => rfl
  | cons f fs ih => simp only [stampFields, validateNames, stampField_name, stampField_weight, ih]

theorem filter_isId_stampFields (d : ℕ) (above : String) (fs : List FieldPolicy) (r : FieldRegistry) :
    ((stampFields above d fs r).1.filter (·.kind.isId)).length = (fs.filter (·.kind.isId)).length := by
  induction fs generalizing r with
  | nil => rfl
  | cons f fs ih =>
    simp only [stampFields, List.filter_cons, stampField_kind]
    split_ifs
    · simp only [List.length_cons, ih]
    · exact ih _

mutual

theorem forM_leaves_stampField {m : Type → Type} [Monad m] [LawfulMonad m] {check : FieldPolicy → m Unit}
    (hcheck : ∀ f above d, check (stampedLeaf above d f) = check f) (above : String) (d : ℕ) :
    ∀ (f : FieldPolicy) (r : FieldRegistry),
      forM (stampField above d f r).1.leaves check = forM f.leaves check
  | ⟨name, kind, s, l, w, e, rep, subfields, p, a, rk, dep, v⟩, r => by
    by_cases hstruct : kind = .struct
    · rw [stampField_struct (by exact hstruct)]
      have hsub := forM_leaves_stampFields hcheck (pathBelow above name) (d + 1) subfields r
      simp only [FieldPolicy.leaves, if_pos hstruct, hsub]
    · rw [stampField_leaf (by exact hstruct)]
      by_cases hnone : kind = .none
      · simp only [stampedLeaf, FieldPolicy.leaves, if_neg hstruct, if_pos hnone]
      · have := hcheck ⟨name, kind, s, l, w, e, rep, subfields, p, a, rk, dep, v⟩ above d
        simp only [stampedLeaf] at this
        simp only [stampedLeaf, FieldPolicy.leaves, if_neg hstruct, if_neg hnone, List.forM_cons, this]

theorem forM_leaves_stampFields {m : Type → Type} [Monad m] [LawfulMonad m] {check : FieldPolicy → m Unit}
    (hcheck : ∀ f above d, check (stampedLeaf above d f) = check f) (above : String) (d : ℕ) :
    ∀ (fs : List FieldPolicy) (r : FieldRegistry),
      forM (FieldPolicy.leavesOf (stampFields above d fs r).1) check = forM (FieldPolicy.leavesOf fs) check
  | [], _ => rfl
  | f :: fs, r => by
    have hf := forM_leaves_stampField hcheck above d f r
    have hfs := forM_leaves_stampFields hcheck above d fs (stampField above d f r).2
    simp only [stampFields, FieldPolicy.leavesOf, List.forM_append, hf, hfs]

end

namespace IndexPolicy

theorem advances_resolve (p : IndexPolicy) (file : Option FieldRegistry) :
    (load file).Advances (p.resolve file).registry :=
  advances_stampFields "" 0 p.fields (load file)

theorem resolve_resolve (p : IndexPolicy) (file file' : Option FieldRegistry)
    (h : load file' = (p.resolve file).registry) : (p.resolve file).resolve file' = p.resolve file := by
  have hstamped := stampFields_stampFields "" 0 p.fields (load file) (p.resolve file).registry (.refl _)
  rw [resolve, h]
  rw [show (p.resolve file).fields = (stampFields "" 0 p.fields (load file)).1 from rfl, hstamped]
  rfl

theorem validate_resolve (p : IndexPolicy) (file : Option FieldRegistry) :
    (p.resolve file).validate = p.validate := by
  have hnames := validateNames_stampFields 0 "" [] p.fields (load file)
  have hids := filter_isId_stampFields 0 "" p.fields (load file)
  have hfields := validateFields_stampFields "" 0 0 p.fields (load file)
  have hanalyzers := @forM_leaves_stampFields _ _ _ (checkAnalyzer p.analyzers)
    (fun _ _ _ => rfl) "" 0 p.fields (load file)
  unfold validate resolve
  simp only [indexedFields, hnames, hids, hfields, hanalyzers]

end IndexPolicy

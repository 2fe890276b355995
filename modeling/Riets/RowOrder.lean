/-
The order of the rows of a document.

The elements of a document that become rows form a forest, and a row names the row above it
as its parent.  Ids are given out from the roots on; rows are added after the rows inside
them.  Both orders are the same only where no row has rows inside it.
-/
import Riets.FieldPaths

namespace FieldPolicy

open List

theorem mem_leavesOf_of_byPath {path : String} {fs : List FieldPolicy} {g : FieldPolicy}
    (h : byPathOf path fs = some g) (hstruct : g.kind ≠ .struct) (hnone : g.kind ≠ .none) : g ∈ leavesOf fs := by
  rw [byPathOf_eq] at h
  exact mem_leavesOf.mpr ⟨mem_of_find?_eq_some h, hstruct, hnone⟩

mutual

theorem leafByPath_eq (path : String) :
    ∀ f : FieldPolicy, leafByPath path f = f.nodes.find? fun g => g.kind ≠ .struct ∧ g.fullPath = path
  | ⟨name, kind, s, l, w, e, rep, subfields, full, a, rk, dep, v⟩ => by
    simp only [leafByPath, nodes, find?_cons]
    by_cases hstruct : kind = .struct
    · simpa [hstruct] using leafByPathOf_eq path subfields
    · by_cases hpath : full = path
      · simp [hstruct, hpath]
      · simp [hstruct, hpath]

theorem leafByPathOf_eq (path : String) :
    ∀ fs : List FieldPolicy, leafByPathOf path fs = (nodesOf fs).find? fun g => g.kind ≠ .struct ∧ g.fullPath = path
  | [] => rfl
  | f :: fs => by rw [leafByPathOf, nodesOf, find?_append, leafByPath_eq path f, leafByPathOf_eq path fs]

end

theorem mem_leavesOf_of_leafByPath {path : String} {fs : List FieldPolicy} {g : FieldPolicy}
    (h : leafByPathOf path fs = some g) (hnone : g.kind ≠ .none) : g ∈ leavesOf fs := by
  rw [leafByPathOf_eq] at h
  have hleaf : g.kind ≠ .struct ∧ g.fullPath = path := by simpa using find?_some h
  exact mem_leavesOf.mpr ⟨mem_of_find?_eq_some h, hleaf.1, hnone⟩

end FieldPolicy

namespace JsonIndexing

open List Option ArrayRow FieldPolicy

/-! ### Forests of rows -/

inductive RowTree where
  | node (element : ParsedNode) (row : ArrayRow) (below : List RowTree)

namespace RowTree

def element : RowTree → ParsedNode
  | node element _ _ => element

def row : RowTree → ArrayRow
  | node _ row _ => row

def inside : RowTree → List RowTree
  | node _ _ below => below

mutual

def allocated : RowTree → List ArrayRow
  | node _ row below => row :: allocatedOf below

def allocatedOf : List RowTree → List ArrayRow
  | [] => []
  | t :: ts => allocated t ++ allocatedOf ts

end

mutual

def added : RowTree → List ArrayRow
  | node _ row below => addedOf below ++ [row]

def addedOf : List RowTree → List ArrayRow
  | [] => []
  | t :: ts => added t ++ addedOf ts

end

mutual

theorem perm_added : ∀ t : RowTree, (added t).Perm (allocated t)
  | node _ row below => by
    rw [added, allocated]
    exact (perm_append_singleton row _).trans ((perm_addedOf below).cons row)

theorem perm_addedOf : ∀ ts : List RowTree, (addedOf ts).Perm (allocatedOf ts)
  | [] => .nil
  | t :: ts => by
    rw [addedOf, allocatedOf]
    exact (perm_added t).append (perm_addedOf ts)

end

theorem length_added (t : RowTree) : (added t).length = (allocated t).length := (perm_added t).length_eq

theorem allocatedOf_append (ts us : List RowTree) :
    allocatedOf (ts ++ us) = allocatedOf ts ++ allocatedOf us := by
  induction ts with
  | nil => rfl
  | cons t ts ih => rw [cons_append, allocatedOf, ih, allocatedOf, append_assoc]

theorem addedOf_append (ts us : List RowTree) : addedOf (ts ++ us) = addedOf ts ++ addedOf us := by
  induction ts with
  | nil => rfl
  | cons t ts ih => rw [cons_append, addedOf, ih, addedOf, append_assoc]

theorem addedOf_eq {ts : List RowTree} (h : ∀ t ∈ ts, t.inside = []) : addedOf ts = allocatedOf ts := by
  induction ts with
  | nil => rfl
  | cons t ts ih =>
    obtain ⟨element, row, below⟩ := t
    have hbelow : below = [] := h _ mem_cons_self
    subst hbelow
    rw [addedOf, allocatedOf, ih fun t ht => h t (mem_cons_of_mem _ ht), added, allocated]
    rfl

theorem inside_eq_nil {ts : List RowTree}
    (hids : ((allocatedOf ts).map arrayRowId).Nodup)
    (horder : (addedOf ts).map arrayRowId = (allocatedOf ts).map arrayRowId) :
    ∀ t ∈ ts, t.inside = [] := by
  induction ts with
  | nil => exact fun t ht => by cases ht
  | cons t ts ih =>
    rw [addedOf, allocatedOf, map_append, map_append] at horder
    rw [allocatedOf, map_append, nodup_append] at hids
    obtain ⟨hfirst, hrest⟩ := append_inj horder (by
      rw [length_map, length_map, length_added])
    intro u hu
    rcases mem_cons.mp hu with rfl | hu
    · obtain ⟨element, row, below⟩ := u
      cases below with
      | nil => rfl
      | cons b bs =>
        -- the first row added is one of those inside
        exfalso
        rw [added, allocated, map_append, map_cons] at hfirst
        have hne : addedOf (b :: bs) ≠ [] := by
          intro hnil
          have hlen := (perm_addedOf (b :: bs)).length_eq
          obtain ⟨element', row', below'⟩ := b
          rw [hnil, allocatedOf, allocated] at hlen
          simp at hlen
        obtain ⟨r, rs, hrs⟩ := exists_cons_of_ne_nil hne
        rw [hrs, map_cons, cons_append] at hfirst
        have hid : r.arrayRowId = row.arrayRowId := (List.cons.inj hfirst).1
        have hin : r ∈ allocatedOf (b :: bs) :=
          (perm_addedOf (b :: bs)).mem_iff.mp (hrs ▸ mem_cons_self)
        have hnodup := hids.1
        rw [allocated, map_cons, nodup_cons] at hnodup
        exact hnodup.1 (mem_map.mpr ⟨r, hin, hid⟩)
    · exact ih hids.2.1 hrest u hu

end RowTree

section Rows

variable (parseFloat : String → Option NumericValue) (p : IndexPolicy)

def rowElements (arrays : List ArrayField) : List ParsedNode :=
  arrays.flatMap fun a =>
    match p.fieldByPath a.path with
    | some field => if IsFlat field then [] else a.elements
    | none => []

/-- The tree has a row for the element and for each element inside it that becomes one, with the
element's values and with the row above as its parent. -/
inductive RowTree.Encloses : Option ArrayRowId → RowTree → Prop
  | node {parent : Option ArrayRowId} {element : ParsedNode} {row : ArrayRow} {below : List RowTree}
      {parts : List DocumentPart} :
      indexLeaves parseFloat p element.leaves = some ⟨parts, row.numericPoints, row.boolPoints⟩ →
      parts <+: row.parts → row.parent = parent →
      below.map RowTree.element = rowElements p element.arrays →
      (∀ t ∈ below, RowTree.Encloses (some row.arrayRowId) t) →
      RowTree.Encloses parent (.node element row below)

structure Adds (parent : Option ArrayRowId) (elements : List ParsedNode) (st st' : ArrayState)
    (forest : List RowTree) : Prop where
  elements_eq : forest.map RowTree.element = elements
  encloses : ∀ t ∈ forest, t.Encloses parseFloat p parent
  rows : st'.rows = st.rows ++ RowTree.addedOf forest
  ids : (RowTree.allocatedOf forest).map arrayRowId =
    range' st.allocator.next (RowTree.allocatedOf forest).length
  next : st'.allocator.next = st.allocator.next + (RowTree.allocatedOf forest).length
  parts : st.parts <+: st'.parts

variable {parseFloat p}

theorem Adds.none (parent : Option ArrayRowId) (st : ArrayState) : Adds parseFloat p parent [] st st [] where
  elements_eq := rfl
  encloses _ ht := by cases ht
  rows := (append_nil _).symm
  ids := rfl
  next := rfl
  parts := prefix_rfl

theorem Adds.append {parent : Option ArrayRowId} {es fs : List ParsedNode} {st st' st'' : ArrayState}
    {ts us : List RowTree} (h : Adds parseFloat p parent es st st' ts)
    (h' : Adds parseFloat p parent fs st' st'' us) :
    Adds parseFloat p parent (es ++ fs) st st'' (ts ++ us) where
  elements_eq := by rw [map_append, h.elements_eq, h'.elements_eq]
  encloses t ht := (mem_append.mp ht).elim (h.encloses t) (h'.encloses t)
  rows := by rw [h'.rows, h.rows, RowTree.addedOf_append, append_assoc]
  ids := by
    rw [RowTree.allocatedOf_append, map_append, h.ids, h'.ids, h.next, length_append,
      range'_append_1]
  next := by rw [h'.next, h.next, RowTree.allocatedOf_append, length_append, Nat.add_assoc]
  parts := h.parts.trans h'.parts

mutual

theorem indexArrays_forest (parent : Option ArrayRowId) :
    ∀ (arrays : List ArrayField) {st st' : ArrayState},
      indexArrays parseFloat p parent arrays st = some st' →
        ∃ forest, Adds parseFloat p parent (rowElements p arrays) st st' forest
  | [], st, st', h => by
    rw [indexArrays, some_inj] at h
    subst h
    exact ⟨[], .none parent st⟩
  | ⟨path, elements⟩ :: arrays, st, st', h => by
    rw [indexArrays] at h
    cases hfield : p.fieldByPath path with
    | none =>
      simp only [hfield] at h
      obtain ⟨forest, hadds⟩ := indexArrays_forest parent arrays h
      refine ⟨forest, ?_⟩
      have hskip : rowElements p (⟨path, elements⟩ :: arrays) = rowElements p arrays := by
        rw [rowElements, flatMap_cons]
        simp only [ArrayField.path, hfield, nil_append]
        rfl
      rwa [hskip]
    | some field =>
      simp only [hfield] at h
      split_ifs at h with hflat
      · obtain ⟨parts, -, h⟩ := bind_eq_some_iff.mp h
        obtain ⟨forest, hadds⟩ := indexArrays_forest parent arrays h
        have hskip : rowElements p (⟨path, elements⟩ :: arrays) = rowElements p arrays := by
          rw [rowElements, flatMap_cons]
          simp only [ArrayField.path, hfield, if_pos hflat, nil_append]
          rfl
        rw [hskip]
        exact ⟨forest, { hadds with
          rows := hadds.rows
          ids := hadds.ids
          next := hadds.next
          parts := (prefix_append _ _).trans hadds.parts }⟩
      · obtain ⟨mid, hmid, h⟩ := bind_eq_some_iff.mp h
        obtain ⟨ts, hts⟩ := indexElements_forest parent elements hmid
        obtain ⟨us, hus⟩ := indexArrays_forest parent arrays h
        have hrows : rowElements p (⟨path, elements⟩ :: arrays) = elements ++ rowElements p arrays := by
          rw [rowElements, flatMap_cons]
          simp only [ArrayField.path, ArrayField.elements, hfield, if_neg hflat]
          rfl
        rw [hrows]
        exact ⟨ts ++ us, hts.append hus⟩

theorem indexElements_forest (parent : Option ArrayRowId) :
    ∀ (elements : List ParsedNode) {st st' : ArrayState},
      indexElements parseFloat p parent elements st = some st' →
        ∃ forest, Adds parseFloat p parent elements st st' forest
  | [], st, st', h => by
    rw [indexElements, some_inj] at h
    subst h
    exact ⟨[], .none parent st⟩
  | ⟨leaves, arrays⟩ :: elements, st, st', h => by
    rw [indexElements] at h
    obtain ⟨points, hpoints, h⟩ := bind_eq_some_iff.mp h
    obtain ⟨inner, hinner, h⟩ := bind_eq_some_iff.mp h
    obtain ⟨below, hbelow⟩ := indexArrays_forest (some st.allocator.alloc.1) arrays hinner
    obtain ⟨us, hus⟩ := indexElements_forest parent elements h
    refine ⟨[.node ⟨leaves, arrays⟩ ⟨st.allocator.alloc.1, parent, inner.parts, points.numericPoints,
      points.boolPoints⟩ below] ++ us, ?_⟩
    refine @Adds.append _ _ _ [⟨leaves, arrays⟩] _ _ _ _ _ _ ?_ hus
    have halloc : RowTree.allocatedOf [.node ⟨leaves, arrays⟩ ⟨st.allocator.alloc.1, parent,
        inner.parts, points.numericPoints, points.boolPoints⟩ below] =
        ⟨st.allocator.alloc.1, parent, inner.parts, points.numericPoints, points.boolPoints⟩ ::
          RowTree.allocatedOf below := by
      rw [RowTree.allocatedOf, RowTree.allocated, RowTree.allocatedOf, append_nil]
    refine ⟨rfl, fun t ht => ?_, ?_, ?_, ?_, prefix_rfl⟩
    · obtain rfl := mem_singleton.mp ht
      exact .node hpoints hbelow.parts rfl hbelow.elements_eq hbelow.encloses
    · rw [RowTree.addedOf, RowTree.added, RowTree.addedOf, append_nil, ← append_assoc]
      exact congrArg (· ++ _) hbelow.rows
    · -- the row takes the next id, those inside it the ones behind
      rw [halloc, map_cons, hbelow.ids, length_cons, range'_succ]
      rfl
    · rw [halloc, length_cons]
      show inner.allocator.next = _
      rw [hbelow.next]
      show st.allocator.next + 1 + _ = st.allocator.next + (_ + 1)
      rw [Nat.add_assoc, Nat.add_comm 1]

end

end Rows

/-! ### A resolved policy indexes every document -/

def Registered (p : IndexPolicy) : Prop := ∀ g ∈ p.indexedFields, p.registry.Has g

section Total

variable {parseFloat : String → Option NumericValue} {p : IndexPolicy}

theorem xpath_of_has {f : FieldPolicy} (h : p.registry.Has f) :
    (∃ x, f.xpath p = some x) ∧ ∃ e, f.exactXPath p = some e := by
  obtain ⟨hid, hexact⟩ := h
  refine ⟨hid, ?_⟩
  rw [exactXPath]
  split_ifs with hf
  · obtain ⟨id, hid⟩ := hexact hf
    exact ⟨some id, by rw [hid]; rfl⟩
  · exact ⟨none, rfl⟩

theorem indexLeaf_isSome (hp : Registered p) (leaf : LeafValue) :
    ∃ points, indexLeaf parseFloat p leaf = some points := by
  rw [indexLeaf]
  cases hleaf : p.leafByPath leaf.path with
  | none => exact ⟨_, rfl⟩
  | some field =>
    by_cases hnone : field.kind = .none
    · simp only [hnone]
      exact ⟨_, rfl⟩
    · obtain ⟨⟨x, hx⟩, e, he⟩ :=
        xpath_of_has (hp field (mem_leavesOf_of_leafByPath hleaf hnone))
      have htext : ∀ raw names, ∃ parts, textParts p field raw names = some parts := by
        intro raw names
        exact ⟨_, by rw [textParts, hx, he]; rfl⟩
      have hnumeric : ∀ raw value, ∃ points, numericLeaf p field raw value = some points := by
        intro raw value
        cases value with
        | none => exact ⟨_, rfl⟩
        | some value => exact ⟨_, by rw [numericLeaf, hx]; rfl⟩
      have hid : ∃ points, (if field.searchable = true then
          (textParts p field leaf.value false).map fun parts => (⟨parts, [], []⟩ : LeafPoints)
          else some ⟨[], [], []⟩) = some points := by
        obtain ⟨parts, hparts⟩ := htext leaf.value false
        split_ifs
        · exact ⟨_, by rw [hparts, map_some]⟩
        · exact ⟨_, rfl⟩
      cases hkind : field.kind with
      | text =>
        obtain ⟨parts, hparts⟩ := htext leaf.value true
        simp only [hkind]
        exact ⟨_, by rw [hparts, map_some]⟩
      | id =>
        simp only [hkind]
        exact hid
      | idAuto =>
        simp only [hkind]
        exact hid
      | integer =>
        simp only [hkind]
        exact hnumeric _ _
      | float =>
        simp only [hkind]
        exact hnumeric _ _
      | bool =>
        simp only [hkind]
        cases parseBool leaf.value with
        | none => exact ⟨_, rfl⟩
        | some value => exact ⟨⟨[], [], [⟨x, value⟩]⟩, by rw [hx]; rfl⟩
      | none => exact absurd hkind hnone
      | date =>
        simp only [hkind]
        exact ⟨_, rfl⟩
      | struct =>
        simp only [hkind]
        exact ⟨_, rfl⟩

theorem indexLeaves_isSome (hp : Registered p) (leaves : List LeafValue) :
    ∃ points, indexLeaves parseFloat p leaves = some points := by
  induction leaves with
  | nil => exact ⟨_, rfl⟩
  | cons leaf leaves ih =>
    obtain ⟨first, hfirst⟩ := indexLeaf_isSome hp leaf
    obtain ⟨rest, hrest⟩ := ih
    exact ⟨_, by rw [indexLeaves, hfirst, hrest]; rfl⟩

theorem flattenScalarArray_isSome (hp : Registered p) (elements : List ParsedNode)
    {path : String} {field : FieldPolicy} (hfield : p.fieldByPath path = some field)
    (hflat : IsFlat field) : ∃ parts, flattenScalarArray p elements field = some parts := by
  have hnone : field.kind ≠ .none := by
    rcases hflat.2 with h | h | h <;> rw [h] <;> decide
  obtain ⟨⟨x, hx⟩, e, he⟩ :=
    xpath_of_has (hp field (mem_leavesOf_of_byPath hfield hflat.1 hnone))
  rw [flattenScalarArray]
  simp only [hx, he]
  split_ifs
  · exact ⟨_, rfl⟩
  · exact ⟨_, rfl⟩

mutual

theorem indexArrays_isSome (hp : Registered p) (parent : Option ArrayRowId) :
    ∀ (arrays : List ArrayField) (st : ArrayState),
      ∃ st', indexArrays parseFloat p parent arrays st = some st'
  | [], st => ⟨st, by rw [indexArrays]⟩
  | ⟨path, elements⟩ :: arrays, st => by
    rw [indexArrays]
    cases hfield : p.fieldByPath path with
    | none => exact indexArrays_isSome hp parent arrays st
    | some field =>
      simp only
      split_ifs with hflat
      · obtain ⟨parts, hparts⟩ := flattenScalarArray_isSome hp elements hfield hflat
        rw [hparts, bind_some]
        exact indexArrays_isSome hp parent arrays _
      · obtain ⟨st', hst'⟩ := indexElements_isSome hp parent elements st
        rw [hst', bind_some]
        exact indexArrays_isSome hp parent arrays st'

theorem indexElements_isSome (hp : Registered p) (parent : Option ArrayRowId) :
    ∀ (elements : List ParsedNode) (st : ArrayState),
      ∃ st', indexElements parseFloat p parent elements st = some st'
  | [], st => ⟨st, by rw [indexElements]⟩
  | ⟨leaves, arrays⟩ :: elements, st => by
    rw [indexElements]
    obtain ⟨points, hpoints⟩ := indexLeaves_isSome hp leaves
    rw [hpoints, bind_some]
    obtain ⟨inner, hinner⟩ := indexArrays_isSome hp (some st.allocator.alloc.1) arrays
      ⟨points.parts, st.rows, st.allocator.alloc.2⟩
    rw [hinner, bind_some]
    exact indexElements_isSome hp parent elements _

end

theorem indexDocument_isSome (hp : Registered p) (docId : DocId) (parsed : ParsedNode)
    (allocator : ArrayRowAllocator) :
    ∃ indexed allocator', indexDocument parseFloat p docId parsed allocator = some (indexed, allocator') := by
  obtain ⟨points, hpoints⟩ := indexLeaves_isSome hp parsed.leaves
  obtain ⟨st, hst⟩ := indexArrays_isSome hp none parsed.arrays
    ⟨points.parts, [], allocator⟩
  exact ⟨_, _, by rw [indexDocument, hpoints, bind_some, hst]; rfl⟩

end Total

/-- The rows are those of the elements, each with the row around its element as its parent. -/
def ParentsEnclose (parseFloat : String → Option NumericValue) (p : IndexPolicy) (parsed : ParsedNode)
    (rows : List ArrayRow) : Prop :=
  ∃ forest : List RowTree, forest.map RowTree.element = rowElements p parsed.arrays ∧
    (∀ t ∈ forest, t.Encloses parseFloat p none) ∧ rows.Perm (RowTree.allocatedOf forest)

/-- No element that becomes a row has elements inside it that become rows. -/
def FlatRows (p : IndexPolicy) (parsed : ParsedNode) : Prop :=
  ∀ e ∈ rowElements p parsed.arrays, rowElements p e.arrays = []

/-- The rows of a document have the parents they should have; and they carry consecutive ids in the
order in which they are added exactly when none of them has rows inside it. -/
theorem rows_in_order_iff (parseFloat : String → Option NumericValue) (policy : IndexPolicy)
    (registryFile : Option FieldRegistry) (docId : DocId) (parsed : ParsedNode)
    (allocator : ArrayRowAllocator) :
    ∃ indexed allocator', indexDocument parseFloat (policy.resolve registryFile) docId parsed allocator
        = some (indexed, allocator') ∧
      ((indexed.arrayRows.map arrayRowId = range' allocator.next indexed.arrayRows.length ∧
          ParentsEnclose parseFloat (policy.resolve registryFile) parsed indexed.arrayRows) ↔
        FlatRows (policy.resolve registryFile) parsed) := by
  set p := policy.resolve registryFile
  obtain ⟨indexed, allocator', hindexed⟩ := indexDocument_isSome
    (policy.resolve_registered registryFile) docId parsed allocator
  refine ⟨indexed, allocator', hindexed, ?_⟩
  obtain ⟨points, hpoints, hrest⟩ := bind_eq_some_iff.mp hindexed
  obtain ⟨st, hst, heq⟩ := map_eq_some_iff.mp hrest
  cases heq
  obtain ⟨forest, hadds⟩ := indexArrays_forest none parsed.arrays hst
  have hrows : st.rows = RowTree.addedOf forest := hadds.rows
  have hlen : st.rows.length = (RowTree.allocatedOf forest).length :=
    hrows ▸ (RowTree.perm_addedOf forest).length_eq
  have hparents : ParentsEnclose parseFloat p parsed st.rows :=
    ⟨forest, hadds.elements_eq, hadds.encloses, hrows ▸ RowTree.perm_addedOf forest⟩
  have hids : (RowTree.allocatedOf forest).map arrayRowId =
      range' allocator.next st.rows.length := by
    rw [hlen]
    exact hadds.ids
  -- a tree has rows inside its root when its element has elements inside it
  have hinside : ∀ t ∈ forest, t.inside.map RowTree.element = rowElements p t.element.arrays := by
    intro t ht
    cases hadds.encloses t ht with
    | node _ _ _ hbelow _ => exact hbelow
  constructor
  · rintro ⟨horder, -⟩ e he
    have hnodup : ((RowTree.allocatedOf forest).map arrayRowId).Nodup := by
      rw [hids]
      exact nodup_range'
    have hflat := RowTree.inside_eq_nil hnodup (by rw [← hrows, hids]; exact horder)
    rw [← hadds.elements_eq] at he
    obtain ⟨t, ht, rfl⟩ := mem_map.mp he
    rw [← hinside t ht, hflat t ht]
    rfl
  · intro hflat
    have hleaf : ∀ t ∈ forest, t.inside = [] := by
      intro t ht
      have hnone := hflat t.element (hadds.elements_eq ▸ mem_map_of_mem ht)
      rw [← hinside t ht] at hnone
      exact map_eq_nil_iff.mp hnone
    refine ⟨?_, hparents⟩
    show st.rows.map arrayRowId = range' allocator.next st.rows.length
    rw [← hids, hrows, RowTree.addedOf_eq hleaf]

def castPolicy : IndexPolicy :=
  (IndexPolicy.new .empty [{ FieldPolicy.new "cast" .struct with
    subfields := [.new "name" .text, { FieldPolicy.new "roles" .struct with
      subfields := [.new "role" .text] }] }]).resolve none

/-- `{"cast": [{"name": "Ann", "roles": [{"role": "Eve"}]}]}` as it is parsed. -/
def castDocument : ParsedNode :=
  .mk [] [.mk "cast" [.mk [⟨"cast/name", "Ann"⟩] [.mk "cast/roles" [.mk [⟨"cast/roles/role", "Eve"⟩] []]]]]

/-- The row of the role is added first and has the second id. -/
theorem nested_rows_out_of_order :
    ∃ indexed allocator', indexDocument (fun _ => none) castPolicy 1 castDocument ⟨0⟩
        = some (indexed, allocator') ∧
      indexed.arrayRows.map arrayRowId = [1, 0] ∧
      ¬(indexed.arrayRows.map arrayRowId = range' 0 indexed.arrayRows.length ∧
        ParentsEnclose (fun _ => none) castPolicy castDocument indexed.arrayRows) := by
  have hrun : (indexDocument (fun _ => none) castPolicy 1 castDocument ⟨0⟩).map
      (fun r => r.1.arrayRows.map arrayRowId) = some [1, 0] := by
    decide +kernel
  obtain ⟨⟨indexed, allocator'⟩, hindexed, hids⟩ := map_eq_some_iff.mp hrun
  have hids : indexed.arrayRows.map arrayRowId = [1, 0] := hids
  refine ⟨indexed, allocator', hindexed, hids, ?_⟩
  intro h
  have hlen : indexed.arrayRows.length = 2 := by
    rw [← length_map, hids]
    rfl
  rw [hids, hlen] at h
  exact absurd h.1 (by decide)

end JsonIndexing

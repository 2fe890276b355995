/-
Posting lists.

A posting says where a term occurs in one document; a posting list holds the
postings of one term in ascending document order.  The order is a field of
`PostingList`, so a list is a finite map from document ids to postings
(`PostingList.find`), and each operation is described by what it does to that
map.
-/
import Riets.SortedMap
import Mathlib.Data.Prod.Lex
import Mathlib.Data.String.Basic

/-- Global document id (`u64`); array rows are posted under ids of the same type. -/
abbrev DocId := ℕ

abbrev XPathId := ℕ

/-- Dictionary key: terms are grouped by field, then ordered by their bytes. -/
structure TermKey where
  xpath : XPathId
  term : String
  deriving Repr

namespace TermKey

def toPair (k : TermKey) : ℕ ×ₗ String := toLex (k.xpath, k.term)

theorem toPair_injective : Function.Injective toPair := by
  rintro ⟨x, t⟩ ⟨x', t'⟩ h
  have h' : (x, t) = (x', t') := toLex_inj.mp h
  simp only [Prod.mk.injEq] at h'
  rw [h'.1, h'.2]

instance : LinearOrder TermKey := LinearOrder.lift' toPair toPair_injective

theorem xpath_le {k k' : TermKey} (h : k ≤ k') : k.xpath ≤ k'.xpath := by
  have hle : toPair k ≤ toPair k' := h
  rcases Prod.Lex.le_iff.mp hle with hlt | ⟨heq, -⟩
  · exact hlt.le
  · exact heq.le

end TermKey

structure Posting where
  docId : DocId
  positions : List ℕ
  weight : ℕ
  deriving DecidableEq, Repr

/-- `sort_unstable` followed by `dedup`. -/
def sortDedup (l : List ℕ) : List ℕ :=
  Keyed.collapse id (fun a _ => a) (Keyed.sortBy id l)

theorem ascending_sortDedup (l : List ℕ) : (sortDedup l).Pairwise (· < ·) :=
  Keyed.ascending_collapse (fun _ _ => rfl) (Keyed.sorted_sortBy l)

theorem foldRun_const {l : List ℕ} {d : ℕ} :
    Keyed.foldRun (fun a _ => a) (l.filter fun a => a = d) = if d ∈ l then some d else none := by
  have hfold : ∀ (l : List ℕ) (a : ℕ), l.foldl (fun a _ => a) a = a := by
    intro l
    induction l with
    | nil => exact fun _ => rfl
    | cons b l ih => exact fun a => ih a
  cases hf : l.filter fun a => a = d with
  | nil =>
    rw [List.filter_eq_nil_iff] at hf
    rw [if_neg fun hd => hf d hd (by simp), Keyed.foldRun]
  | cons a t =>
    have ha : a ∈ l.filter fun a => a = d := by simp [hf]
    obtain ⟨hmem, had⟩ := List.mem_filter.mp ha
    obtain rfl : a = d := by simpa using had
    rw [if_pos hmem, Keyed.foldRun, hfold]

theorem mem_sortDedup {l : List ℕ} {d : ℕ} : d ∈ sortDedup l ↔ d ∈ l := by
  have hasc : Keyed.Ascending id (sortDedup l) :=
    Keyed.ascending_collapse (fun _ _ => rfl) (Keyed.sorted_sortBy l)
  have habs : ∀ a b : ℕ, id ((fun a _ => a) a b) = id a := fun _ _ => rfl
  have hsorted : Keyed.Sorted id (Keyed.sortBy id l) := Keyed.sorted_sortBy l
  have hfind := Keyed.find_collapse habs hsorted d
  rw [Keyed.filter_sortBy] at hfind
  rw [Keyed.mem_iff_find hasc, sortDedup]
  simp only [id] at hfind ⊢
  rw [hfind, foldRun_const]
  simp

def Posting.absorb (last item : Posting) : Posting where
  docId := last.docId
  positions := sortDedup (last.positions ++ item.positions)
  weight := max last.weight item.weight

@[simp] theorem Posting.absorb_docId (a b : Posting) : (a.absorb b).docId = a.docId := rfl

/-- The postings of a term, in ascending document order, with a bound on their
weights. -/
structure PostingList where
  items : List Posting
  maxWeight : ℕ
  ascending : Keyed.Ascending Posting.docId items
  deriving DecidableEq

namespace PostingList

open List Keyed Posting

def new : PostingList := ⟨[], 0, Pairwise.nil⟩

instance : Inhabited PostingList := ⟨new⟩

def weightBound (items : List Posting) : ℕ := (items.map Posting.weight).foldl max 0

/-- Appends extra positions, sorting only when the new ones start lower. -/
def extendPositionsSorted (positions extra : List ℕ) : List ℕ :=
  match positions.getLast? with
  | none => positions ++ extra
  | some last =>
    match extra.head? with
    | some first => if last ≤ first then positions ++ extra else sortDedup (positions ++ extra)
    | none => sortDedup (positions ++ extra)

/-- Builds a list from postings sorted by document; neighbours of one document
are merged. -/
def fromSorted (items : List Posting) (h : Sorted Posting.docId items) : PostingList where
  items := collapse Posting.docId absorb items
  maxWeight := weightBound (collapse Posting.docId absorb items)
  ascending := ascending_collapse absorb_docId h

def fromItems (items : List Posting) : PostingList :=
  fromSorted (sortBy Posting.docId items) (sorted_sortBy items)

def retain (list : PostingList) (keep : Posting → Bool) : PostingList where
  items := list.items.filter keep
  maxWeight := list.maxWeight
  ascending := ascending_filter list.ascending keep

def WeightsOk (list : PostingList) : Prop := ∀ p ∈ list.items, p.weight ≤ list.maxWeight

theorem weightsOk_new : WeightsOk new := by
  intro p hp
  exact absurd hp not_mem_nil

theorem weightsOk_fromItems (items : List Posting) : (fromItems items).WeightsOk := by
  intro p hp
  exact (le_foldl_max _ 0).2 p.weight (mem_map.mpr ⟨p, hp, rfl⟩)

theorem WeightsOk.retain {list : PostingList} (h : list.WeightsOk) (keep : Posting → Bool) :
    (list.retain keep).WeightsOk := by
  intro p hp
  exact h p (mem_of_mem_filter hp)

/-- Adds one document's occurrences.  The source first tries the last posting
and otherwise binary searches; both find the place `Keyed.upsert` walks to. -/
def insertPosting (list : PostingList) (docId : DocId) (positions : List ℕ) (weight : ℕ) :
    PostingList :=
  if positions = [] then list
  else
    { items := upsert Posting.docId docId
        (fun old => match old with
          | none => ⟨docId, sortDedup positions, weight⟩
          | some p => ⟨docId, extendPositionsSorted p.positions (sortDedup positions),
              max p.weight weight⟩) list.items
      maxWeight := max list.maxWeight weight
      ascending := ascending_upsert (by intro o; cases o <;> rfl) list.ascending }

theorem ascending_append {a b : List Posting} (ha : Ascending docId a)
    (hb : Ascending docId b) {last first : Posting}
    (hl : a.getLast? = some last) (hf : b.head? = some first)
    (h : last.docId < first.docId) : Ascending docId (a ++ b) := by
  refine pairwise_append.mpr ⟨ha, hb, fun x hx y hy => ?_⟩
  obtain ⟨init, rfl⟩ := getLast?_eq_some_iff.mp hl
  obtain ⟨rest, rfl⟩ := head?_eq_some_iff.mp hf
  have hx' : x.docId ≤ last.docId := by
    rcases mem_append.mp hx with hx | hx
    · exact ((pairwise_append.mp ha).2.2 x hx last (by simp)).le
    · rw [mem_singleton.mp hx]
  have hy' : first.docId ≤ y.docId := by
    rcases mem_cons.mp hy with rfl | hy
    · exact le_rfl
    · exact (hb.head_lt hy).le
  exact lt_of_le_of_lt hx' (lt_of_lt_of_le h hy')

def append (list other : PostingList) : PostingList :=
  match hf : other.items.head? with
  | none => list
  | some first =>
    match hl : list.items.getLast? with
    | none => other
    | some last =>
      if h : last.docId < first.docId then
        { items := list.items ++ other.items
          maxWeight := max list.maxWeight other.maxWeight
          ascending := ascending_append list.ascending other.ascending hl hf h }
      else fromItems (list.items ++ other.items)

/-- Merges lists with a heap on `(docId, list)`; postings of one document are
joined. -/
def unionMany (lists : List PostingList) : PostingList :=
  let sources := (lists.map items).filter fun s => s ≠ []
  fromSorted (kmerge Posting.docId sources.flatten.length sources)
    (pairwise_kmerge fun s hs => by
      obtain ⟨l, -, rfl⟩ := mem_map.mp (mem_of_mem_filter hs)
      exact l.ascending.sorted)

def find (list : PostingList) (d : DocId) : Option Posting :=
  Keyed.find Posting.docId d list.items

def ids (list : PostingList) : List DocId := list.items.map Posting.docId

/-! ### Each operation on the map from documents to postings -/

def join : Option Posting → Option Posting → Option Posting
  | none, q => q
  | some p, none => some p
  | some p, some q => some (p.absorb q)

@[simp] theorem join_none_left (o : Option Posting) : join none o = o := rfl

@[simp] theorem join_none_right (o : Option Posting) : join o none = o := by
  cases o <;> rfl

def joinAll (l : List (Option Posting)) : Option Posting := l.foldl join none

theorem joinAll_ne_none {l : List (Option Posting)} : joinAll l ≠ none ↔ ∃ o ∈ l, o ≠ none := by
  have hacc : ∀ (l : List (Option Posting)) (o : Option Posting),
      l.foldl join o ≠ none ↔ o ≠ none ∨ ∃ q ∈ l, q ≠ none := by
    intro l
    induction l with
    | nil => simp
    | cons q l ih =>
      intro o
      rw [foldl_cons, ih]
      cases o <;> cases q <;> simp [join]
  rw [joinAll, hacc]
  simp

theorem joinAll_map {α : Type*} (f : α → Option Posting) (l : List α) :
    joinAll (l.map f) = foldRun absorb (l.filterMap f) := by
  have hsome : ∀ (l : List α) (p : Posting),
      (l.map f).foldl join (some p) = some ((l.filterMap f).foldl absorb p) := by
    intro l
    induction l with
    | nil => exact fun _ => rfl
    | cons a l ih =>
      intro p
      rw [map_cons, foldl_cons, filterMap_cons]
      cases f a with
      | none => exact ih p
      | some q => exact ih (p.absorb q)
  rw [joinAll]
  induction l with
  | nil => rfl
  | cons a l ih =>
    rw [map_cons, foldl_cons, filterMap_cons]
    cases f a with
    | none => exact ih
    | some p => exact hsome l p

@[simp] theorem find_new (d : DocId) : new.find d = none := rfl

theorem find_docId {list : PostingList} {d : DocId} {p : Posting} (h : list.find d = some p) :
    p.docId = d :=
  find_key h

theorem mem_ids {list : PostingList} {d : DocId} : d ∈ list.ids ↔ list.find d ≠ none := by
  rw [find, Ne, find_eq_none, ids, mem_map]
  push Not
  exact Iff.rfl

theorem ext_items {a b : PostingList} (h : ∀ d, a.find d = b.find d) : a.items = b.items :=
  ext_find a.ascending b.ascending h

theorem find_fromSorted {items : List Posting} (h : Sorted docId items)
    (d : DocId) :
    (fromSorted items h).find d
      = foldRun absorb (items.filter fun p => p.docId = d) :=
  find_collapse absorb_docId h d

theorem find_fromItems (items : List Posting) (d : DocId) :
    (fromItems items).find d
      = foldRun absorb (items.filter fun p => p.docId = d) := by
  rw [fromItems, find_fromSorted, filter_sortBy]

theorem find_retain (list : PostingList) (keep : Posting → Bool) (d : DocId) :
    (list.retain keep).find d = (list.find d).filter keep :=
  find_filter list.ascending keep d

theorem find_insertPosting (list : PostingList) (docId : DocId) (positions : List ℕ)
    (weight : ℕ) (d : DocId) (h : d ≠ docId) :
    (list.insertPosting docId positions weight).find d = list.find d := by
  rw [insertPosting]
  split_ifs
  · rfl
  · rw [find, find_upsert (by intro o; cases o <;> rfl) list.ascending, if_neg h]
    rfl

theorem find_insertPosting_self (list : PostingList) (docId : DocId) (positions : List ℕ)
    (weight : ℕ) :
    (list.insertPosting docId positions weight).find docId
      = if positions = [] then list.find docId
        else match list.find docId with
          | none => some ⟨docId, sortDedup positions, weight⟩
          | some p => some ⟨docId, extendPositionsSorted p.positions (sortDedup positions),
              max p.weight weight⟩ := by
  rw [insertPosting]
  split_ifs
  · rfl
  · rw [find, find_upsert (by intro o; cases o <;> rfl) list.ascending, if_pos rfl]
    cases h : list.find docId <;> rw [find] at h <;> rw [h]

theorem find_append (list other : PostingList) (d : DocId) :
    (list.append other).find d = join (list.find d) (other.find d) := by
  have hrun : ∀ items : List Posting, items = list.items ++ other.items →
      foldRun absorb (items.filter fun p => p.docId = d)
        = join (list.find d) (other.find d) := by
    rintro items rfl
    rw [filter_append, filter_eq_find list.ascending,
      filter_eq_find other.ascending]
    change foldRun _ ((list.find d).toList ++ (other.find d).toList) = _
    cases list.find d <;> cases other.find d <;> rfl
  rw [append]
  split
  · rename_i hf
    have : other.find d = none := by simp [find, head?_eq_none_iff.mp hf]
    rw [this, join_none_right]
  · split
    · rename_i hl
      have : list.find d = none := by simp [find, getLast?_eq_none_iff.mp hl]
      rw [this, join_none_left]
    · split_ifs with h
      · have hrun' := hrun _ rfl
        rw [filter_eq_find
          (ascending_append list.ascending other.ascending ‹_› ‹_› h)] at hrun'
        rw [← hrun', find]
        cases Keyed.find Posting.docId d (list.items ++ other.items) <;> rfl
      · rw [find_fromItems]
        exact hrun _ rfl

theorem filter_flatten_items (lists : List PostingList) (d : DocId) :
    (lists.map items).flatten.filter (fun p => p.docId = d)
      = lists.filterMap fun l => l.find d := by
  induction lists with
  | nil => rfl
  | cons l lists ih =>
    rw [map_cons, flatten_cons, filter_append, ih,
      filter_eq_find l.ascending, filterMap_cons]
    change (l.find d).toList ++ _ = _
    cases l.find d <;> rfl

theorem find_unionMany (lists : List PostingList) (d : DocId) :
    (unionMany lists).find d
      = foldRun absorb (lists.filterMap fun l => l.find d) := by
  have hflat : ((lists.map items).filter fun s => s ≠ []).flatten = (lists.map items).flatten := by
    induction lists.map items with
    | nil => rfl
    | cons s ss ih =>
      by_cases hs : s = []
      · simpa [hs] using ih
      · simp only [ne_eq, decide_not] at ih
        simp [hs, ih]
  rw [unionMany, find_fromSorted, filter_kmerge _ le_rfl, hflat, filter_flatten_items]
  intro s hs
  obtain ⟨l, -, rfl⟩ := mem_map.mp (mem_of_mem_filter hs)
  exact l.ascending.sorted

end PostingList

/-
The record behind a posting list.

Each operation is here as the source runs it, on the bare record; on the record of a list
it is the operation of `PostingList` (`fromSorted_raw`, `fromItems_raw`,
`insertPosting_raw`, `append_raw`, `unionMany_raw`).
-/
import Riets.Posting

namespace Keyed

open List

variable {α K : Type*} [LinearOrder K] {key : α → K} {k : K} {f : Option α → α}

theorem collapse_of_ascending {absorb : α → α → α} {l : List α} (h : Ascending key l) :
    collapse key absorb l = l := by
  have hfrom : ∀ (l : List α) (a : α), Ascending key (a :: l) → collapseFrom key absorb a l = a :: l := by
    intro l
    induction l with
    | nil => exact fun _ _ => rfl
    | cons b l ih =>
      intro a h
      rw [collapseFrom, if_neg (ne_of_lt (h.head_lt mem_cons_self)), ih b h.of_cons]
  cases l with
  | nil => rfl
  | cons a l => exact hfrom l a h

theorem upsert_append {pre l : List α} (hpre : ∀ a ∈ pre, key a < k) :
    upsert key k f (pre ++ l) = pre ++ upsert key k f l := by
  induction pre with
  | nil => rfl
  | cons a pre ih =>
    obtain ⟨ha, hpre⟩ := forall_mem_cons.mp hpre
    rw [cons_append, upsert, if_pos ha, ih hpre, cons_append]

def place (key : α → K) (k : K) (l : List α) : ℕ := (l.takeWhile fun a => key a < k).length

theorem upsert_eq_place (l : List α) : upsert key k f l =
    if (l[place key k l]?).any fun a => key a = k then l.modify (place key k l) fun a => f (some a)
    else l.insertIdx (place key k l) (f none) := by
  induction l with
  | nil => rfl
  | cons a l ih =>
    rw [upsert, place]
    by_cases hlt : key a < k
    · rw [if_pos hlt, takeWhile_cons_of_pos (by simpa using hlt), length_cons, ih]
      show _ = if (l[place key k l]?).any _ then _ else _
      split_ifs
      · rfl
      · rfl
    · rw [if_neg hlt, takeWhile_cons_of_neg (by simpa using hlt)]
      by_cases heq : key a = k
      · simp [heq]
      · simp [heq]

theorem kmerge_singleton (l : List α) : kmerge key l.length [l] = l := by
  induction l with
  | nil => rfl
  | cons a l ih => exact congrArg (a :: ·) ih

end Keyed

structure RawPostingList where
  items : List Posting
  maxWeight : ℕ
  deriving DecidableEq

def PostingList.raw (list : PostingList) : RawPostingList := ⟨list.items, list.maxWeight⟩

namespace RawPostingList

open List Keyed PostingList

open PostingList (weightBound extendPositionsSorted)

def new : RawPostingList := ⟨[], 0⟩

def ids (list : RawPostingList) : List DocId := list.items.map Posting.docId

def hasDuplicates (items : List Posting) : Bool :=
  (items.zip items.tail).any fun w => w.1.docId = w.2.docId

def fromSorted (items : List Posting) : RawPostingList :=
  if hasDuplicates items then
    let merged := collapse Posting.docId Posting.absorb items
    ⟨merged, weightBound merged⟩
  else ⟨items, weightBound items⟩

def fromItems (items : List Posting) : RawPostingList :=
  fromSorted (if Sorted Posting.docId items then items else sortBy Posting.docId items)

def retain (list : RawPostingList) (keep : Posting → Bool) : RawPostingList :=
  { list with items := list.items.filter keep }

def binarySearchByKey (items : List Posting) (docId : DocId) : Except ℕ ℕ :=
  let index := Keyed.place Posting.docId docId items
  if (items[index]?).any fun p => p.docId = docId then .ok index else .error index

def insertSearched (items : List Posting) (docId : DocId) (extended : Posting → Posting) (fresh : Posting) :
    List Posting :=
  match binarySearchByKey items docId with
  | .ok index => items.modify index extended
  | .error index => items.insertIdx index fresh

/-- Changes the posting of the document or inserts one: at the end if it belongs there. -/
def insertInto (items : List Posting) (docId : DocId) (extended : Posting → Posting) (fresh : Posting) :
    List Posting :=
  match items.getLast? with
  | some last =>
    if last.docId = docId then items.dropLast ++ [extended last]
    else if last.docId < docId then items ++ [fresh]
    else insertSearched items docId extended fresh
  | none => insertSearched items docId extended fresh

def insertPosting (list : RawPostingList) (docId : DocId) (positions : List ℕ) (weight : ℕ) :
    RawPostingList :=
  if positions = [] then list
  else
    { items := insertInto list.items docId
        (fun p => ⟨docId, extendPositionsSorted p.positions (sortDedup positions), max p.weight weight⟩)
        ⟨docId, sortDedup positions, weight⟩
      maxWeight := max list.maxWeight weight }

def append (list other : RawPostingList) : RawPostingList :=
  match other.items.head? with
  | none => list
  | some first =>
    match list.items.getLast? with
    | none => other
    | some last =>
      if last.docId < first.docId then
        ⟨list.items ++ other.items, max list.maxWeight other.maxWeight⟩
      else fromItems (list.items ++ other.items)

/-- A single source is copied, several are merged with a heap on `(docId, list)`. -/
def unionMany (lists : List RawPostingList) : RawPostingList :=
  match (lists.map items).filter fun s => s ≠ [] with
  | [] => new
  | [source] => fromSorted source
  | sources => fromSorted (kmerge Posting.docId sources.flatten.length sources)

/-! ### On the record of a list -/

variable {items : List Posting}

theorem ascending_of_no_duplicates (h : Sorted Posting.docId items)
    (hdup : hasDuplicates items = false) : Ascending Posting.docId items := by
  induction items with
  | nil => exact Pairwise.nil
  | cons p items ih =>
    obtain ⟨hle, htail⟩ := pairwise_cons.mp h
    cases items with
    | nil => exact pairwise_singleton _ _
    | cons q items =>
      rw [hasDuplicates, tail_cons, zip_cons_cons, any_cons, Bool.or_eq_false_iff,
        decide_eq_false_iff_not] at hdup
      have hasc := ih htail hdup.2
      have hlt : p.docId < q.docId := lt_of_le_of_ne (hle q mem_cons_self) hdup.1
      refine pairwise_cons.mpr ⟨fun r hr => ?_, hasc⟩
      rcases mem_cons.mp hr with rfl | hr
      · exact hlt
      · exact hlt.trans (hasc.head_lt hr)

theorem fromSorted_of_ascending (h : Ascending Posting.docId items) :
    (PostingList.fromSorted items h.sorted).raw = ⟨items, weightBound items⟩ := by
  show (⟨collapse _ _ items, weightBound (collapse _ _ items)⟩ : RawPostingList) = _
  rw [collapse_of_ascending h]

theorem fromSorted_raw (h : Sorted Posting.docId items) :
    fromSorted items = (PostingList.fromSorted items h).raw := by
  rw [fromSorted]
  split_ifs with hdup
  · rfl
  · exact (fromSorted_of_ascending (ascending_of_no_duplicates h (Bool.eq_false_of_not_eq_true hdup))).symm

theorem fromItems_raw (items : List Posting) : fromItems items = (PostingList.fromItems items).raw := by
  rw [fromItems, PostingList.fromItems, ← fromSorted_raw]
  split_ifs with h
  · rw [sortBy_of_sorted h]
  · rfl

theorem insertInto_eq (hasc : Ascending Posting.docId items) (docId : DocId)
    (f : Option Posting → Posting) :
    insertInto items docId (fun p => f (some p)) (f none) = upsert Posting.docId docId f items := by
  have hsearched : insertSearched items docId (fun p => f (some p)) (f none) =
      upsert Posting.docId docId f items := by
    rw [insertSearched, binarySearchByKey, upsert_eq_place]
    split_ifs
    · rfl
    · rfl
  rw [insertInto]
  rcases eq_nil_or_concat' items with rfl | ⟨pre, last, rfl⟩
  · exact hsearched
  · have hpre : ∀ a ∈ pre, a.docId < last.docId := fun a ha =>
      (pairwise_append.mp hasc).2.2 a ha last mem_cons_self
    rw [getLast?_concat]
    simp only
    split_ifs with heq hlt
    · -- the last posting has the document
      rw [dropLast_concat, upsert_append (heq ▸ hpre), upsert,
        if_neg (by rw [heq]; exact lt_irrefl _), if_pos heq]
    · -- all documents are smaller
      have hall : ∀ a ∈ pre ++ [last], a.docId < docId := by
        intro a ha
        rcases mem_append.mp ha with ha | ha
        · exact (hpre a ha).trans hlt
        · exact mem_singleton.mp ha ▸ hlt
      have hend := upsert_append (f := f) (l := []) hall
      rw [append_nil] at hend
      exact hend.symm
    · exact hsearched

theorem insertPosting_raw (list : PostingList) (docId : DocId) (positions : List ℕ) (weight : ℕ) :
    list.raw.insertPosting docId positions weight = (list.insertPosting docId positions weight).raw := by
  rw [insertPosting, PostingList.insertPosting]
  split_ifs
  · rfl
  · exact congrArg (mk · _) (insertInto_eq list.ascending docId fun old => match old with
      | none => ⟨docId, sortDedup positions, weight⟩
      | some p => ⟨docId, extendPositionsSorted p.positions (sortDedup positions), max p.weight weight⟩)

theorem append_raw (list other : PostingList) : list.raw.append other.raw = (list.append other).raw := by
  rw [PostingList.append]
  split
  · rename_i hfirst
    simp only [append, raw, hfirst]
  · rename_i hfirst
    split
    · rename_i hlast
      simp only [append, raw, hfirst, hlast]
    · rename_i hlast
      simp only [append, raw, hfirst, hlast]
      split_ifs
      · rfl
      · exact fromItems_raw _

theorem unionMany_raw (lists : List PostingList) :
    unionMany (lists.map raw) = (PostingList.unionMany lists).raw := by
  have hmap : (lists.map raw).map items = lists.map PostingList.items := by
    rw [map_map]
    rfl
  rw [unionMany, hmap, PostingList.unionMany, ← fromSorted_raw]
  generalize hsources : (lists.map PostingList.items).filter (fun s => s ≠ []) = sources
  rcases sources with _ | ⟨source, _ | _⟩
  · rfl
  · show fromSorted source = fromSorted (kmerge Posting.docId [source].flatten.length [source])
    rw [flatten_singleton, kmerge_singleton]
  · rfl

end RawPostingList

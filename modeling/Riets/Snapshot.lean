/-
Snapshots.

A snapshot is a stable view for queries: the active table, the other index
parts (sealed tables and segments) and the tombstones.  Every question goes to
all parts; the answers are united and the tombstoned ids removed.
-/
import Riets.Compaction

/-- A part of an index that is searched. -/
inductive Reader where
  | mem (m : MemIndex)
  | seg (s : Segment)
  deriving DecidableEq

namespace Reader

open List

def lookup (r : Reader) (term : String) (x : XPathId) : PostingList :=
  match r with
  | mem m => m.lookupOrEmpty term x
  | seg s => s.lookup term x

/-- The ids with a number in the range. -/
def rangeIds (r : Reader) (x : XPathId) (lo hi : Option NumericBound) : List DocId :=
  match r with
  | mem m => m.numericPoints.range x lo hi
  | seg s => s.numericFields.range x lo hi

def numericRange (r : Reader) (x : XPathId) (lo hi : Option NumericBound) : PostingList :=
  Segment.idPostings (r.rangeIds x lo hi)

def boolTrueIds (r : Reader) (x : XPathId) : Finset DocId :=
  match r with
  | mem m => m.boolTrueIds x
  | seg s => s.boolTrueIds x

def boolFalseIds (r : Reader) (x : XPathId) : Finset DocId :=
  match r with
  | mem m => m.boolFalseIds x
  | seg s => s.boolFalseIds x

def arrayRowIndex (r : Reader) : ArrayRowIndex :=
  match r with
  | mem m => m.arrayRowIndex
  | seg s => s.arrayRowIndex

def posting (r : Reader) (k : TermKey) (d : DocId) : Option Posting :=
  match r with
  | mem m => m.posting k d
  | seg s => s.posting k d

def docLen (r : Reader) (d : DocId) (x : XPathId) : Option ℕ :=
  match r with
  | mem m => m.docLengths.get? (toLex (d, x))
  | seg s => s.docLen d x

/-- The part holds something under the id in the field. -/
def Holds (r : Reader) (x : XPathId) (d : DocId) : Prop :=
  match r with
  | mem m => m.Holds x d
  | seg s => s.Holds x d

theorem find_lookup (r : Reader) (term : String) (x : XPathId) (d : DocId) :
    (r.lookup term x).find d = r.posting ⟨x, term⟩ d := by
  cases r with
  | mem m => exact m.find_lookupOrEmpty term x d
  | seg s => exact s.find_lookup term x d

theorem mem_numericRange {r : Reader} {x : XPathId} {lo hi : Option NumericBound} {d : DocId} :
    (r.numericRange x lo hi).find d ≠ none ↔ d ∈ r.rangeIds x lo hi := by
  rw [numericRange, Segment.find_idPostings]
  split_ifs with h <;> simp [h]

theorem mem_rangeIds_none {r : Reader} {x : XPathId} {lo hi : Option NumericBound} {d : DocId}
    (h : d ∈ r.rangeIds x lo hi) : d ∈ r.rangeIds x none none := by
  cases r with
  | mem m =>
    obtain ⟨v, hv, -⟩ := NumericPoints.mem_range.mp h
    exact NumericPoints.mem_range.mpr ⟨v, hv, rfl⟩
  | seg s =>
    obtain ⟨e, he, -⟩ := NumericFields.mem_range.mp h
    exact NumericFields.mem_range.mpr ⟨e, he, rfl, rfl⟩

theorem holds_iff {r : Reader} {x : XPathId} {d : DocId} :
    r.Holds x d ↔ (∃ term, r.posting ⟨x, term⟩ d ≠ none) ∨ d ∈ r.rangeIds x none none ∨
      d ∈ r.boolTrueIds x ∨ d ∈ r.boolFalseIds x := by
  have hnum : ∀ {α : Type} {l : List α} {p : α → Prop}, (∀ a, p a) → ((∃ a ∈ l, p a) ↔ l ≠ []) := by
    intro α l p hp
    constructor
    · rintro ⟨a, ha, -⟩
      exact ne_nil_of_mem ha
    · intro hne
      obtain ⟨a, ha⟩ := exists_mem_of_ne_nil _ hne
      exact ⟨a, ha, hp a⟩
  cases r with
  | mem m =>
    have hrange : d ∈ m.numericPoints.range x none none ↔ m.numbers x d ≠ [] := by
      rw [NumericPoints.mem_range]
      constructor
      · rintro ⟨v, hv, -⟩
        exact ne_nil_of_mem hv
      · intro hne
        obtain ⟨⟨d', v⟩, hp⟩ := exists_mem_of_ne_nil _ hne
        obtain rfl : d' = d := by simpa using (mem_filter.mp hp).2
        exact ⟨v, hp, rfl⟩
    simp only [Holds, MemIndex.Holds, posting, rangeIds, boolTrueIds, boolFalseIds, hrange]
  | seg s =>
    have hrange : d ∈ s.numericFields.range x none none ↔ s.numbers x d ≠ [] := by
      rw [NumericFields.mem_range]
      exact hnum fun _ => ⟨rfl, rfl⟩
    simp only [Holds, Segment.Holds, posting, rangeIds, boolTrueIds, boolFalseIds, hrange]

end Reader

/-- A stable view of the active table, the other parts and the tombstones. -/
structure IndexSnapshot where
  mem : MemIndex
  segments : List Reader
  deleted : DeleteSet
  deriving DecidableEq

namespace IndexSnapshot

open PostingList List DeleteSet MemIndex

/-- Tombstones hide postings. -/
def applyDeletes (s : IndexSnapshot) (postings : PostingList) : PostingList :=
  s.deleted.filterInPlace postings

def applyDeletesToBitset (s : IndexSnapshot) (bitset : Finset DocId) : Finset DocId :=
  if s.deleted = ∅ then bitset else bitset \ s.deleted

def lookup (s : IndexSnapshot) (term : String) (x : XPathId) : PostingList :=
  let memList := s.mem.lookupTerm term x
  let segmentLists := s.segments.map fun r => r.lookup term x
  if memList = none ∧ segmentLists.length ≤ 1 then
    s.applyDeletes (segmentLists.getLast?.getD default)
  else s.applyDeletes (unionMany (memList.toList ++ segmentLists))

def numericRange (s : IndexSnapshot) (x : XPathId) (lo hi : Option NumericBound) : PostingList :=
  s.applyDeletes (unionMany
    ((Reader.mem s.mem :: s.segments).map fun r => r.numericRange x lo hi))

def boolTrueIds (s : IndexSnapshot) (x : XPathId) : Finset DocId :=
  s.applyDeletesToBitset
    (s.segments.foldl (fun out r => out ∪ r.boolTrueIds x) (s.mem.boolTrueIds x))

def boolFalseIds (s : IndexSnapshot) (x : XPathId) : Finset DocId :=
  s.applyDeletesToBitset
    (s.segments.foldl (fun out r => out ∪ r.boolFalseIds x) (s.mem.boolFalseIds x))

/-- The documents of the rows, without the deleted ones. -/
def resolveArrayRows (s : IndexSnapshot) (rows : Finset ArrayRowId) : Finset DocId :=
  (s.segments.foldl (fun out r => out ∪ r.arrayRowIndex.resolve rows)
    (s.mem.arrayRowIndex.resolve rows)).filter (· ∉ s.deleted)

/-- The first part that knows the row answers. -/
def docOfRow (s : IndexSnapshot) (row : ArrayRowId) : Option DocId :=
  (s.mem.arrayRowIndex.docOf row).or (s.segments.findSome? fun r => r.arrayRowIndex.docOf row)

def parentOfRow (s : IndexSnapshot) (row : ArrayRowId) : Option ArrayRowId :=
  (s.mem.arrayRowIndex.parentOf row).or (s.segments.findSome? fun r => r.arrayRowIndex.parentOf row)

/-- The table in memory is searched first. -/
def readers (s : IndexSnapshot) : List Reader := .mem s.mem :: s.segments

/-! ### Lookups, id by id -/

theorem find_lookup (s : IndexSnapshot) (term : String) (x : XPathId) (d : DocId) :
    (s.lookup term x).find d
      = if d ∈ s.deleted then none
        else joinAll (s.readers.map fun r => r.posting ⟨x, term⟩ d) := by
  have hmem : s.mem.lookupTerm term x = none → (Reader.mem s.mem).posting ⟨x, term⟩ d = none := by
    intro h
    rw [lookupTerm] at h
    rw [Reader.posting, posting, h]
    rfl
  have hall : ∀ rs : List Reader, (rs.map fun r => r.lookup term x).filterMap (fun l => l.find d)
      = rs.filterMap fun r => r.posting ⟨x, term⟩ d := by
    intro rs
    rw [filterMap_map]
    refine congrArg (fun f => rs.filterMap f) (funext fun r => ?_)
    exact r.find_lookup term x d
  rw [lookup]
  simp only [applyDeletes]
  split_ifs with hone hd hd
  · rw [find_filterInPlace, if_pos hd]
  · obtain ⟨hnone, hlen⟩ := hone
    rw [find_filterInPlace, if_neg hd, joinAll_map, readers, filterMap_cons, hmem hnone, ← hall]
    rw [length_map] at hlen
    rcases hs : s.segments with _ | ⟨r, _ | ⟨r', rs⟩⟩
    · rfl
    · rw [map_singleton, filterMap_cons, filterMap_nil]
      simp only [getLast?_singleton, Option.getD_some]
      cases (r.lookup term x).find d <;> rfl
    · simp [hs] at hlen
  · rw [find_filterInPlace, if_pos hd]
  · rw [find_filterInPlace, if_neg hd, find_unionMany, joinAll_map,
      filterMap_append, hall, readers, filterMap_cons]
    cases hm : s.mem.lookupTerm term x with
    | none =>
      rw [hmem hm]
      rfl
    | some list =>
      have hp : (Reader.mem s.mem).posting ⟨x, term⟩ d = list.find d := by
        rw [lookupTerm] at hm
        rw [Reader.posting, posting, hm]
        rfl
      rw [hp, Option.toList_some, filterMap_cons, filterMap_nil]
      cases list.find d <;> rfl

variable {s : IndexSnapshot} {x : XPathId} {d : DocId}

theorem mem_numericRange {lo hi : Option NumericBound}
    :
    (s.numericRange x lo hi).find d ≠ none
      ↔ d ∉ s.deleted ∧ ∃ r ∈ s.readers, d ∈ r.rangeIds x lo hi := by
  rw [numericRange, applyDeletes, find_filterInPlace, find_unionMany]
  by_cases hd : d ∈ s.deleted
  · simp [hd]
  · rw [if_neg hd, filterMap_map, ← joinAll_map, joinAll_ne_none]
    simp only [mem_map, hd, not_false_eq_true, true_and, exists_exists_and_eq_and, readers]
    exact exists_congr fun r => and_congr_right fun _ => Reader.mem_numericRange

theorem mem_foldl_union {α : Type*} (f : α → Finset DocId) (l : List α) (acc : Finset DocId)
    : d ∈ l.foldl (fun out a => out ∪ f a) acc ↔ d ∈ acc ∨ ∃ a ∈ l, d ∈ f a := by
  induction l generalizing acc with
  | nil => simp
  | cons a l ih =>
    rw [foldl_cons, ih]
    simp [or_assoc]

theorem mem_applyDeletesToBitset {bitset : Finset DocId} :
    d ∈ s.applyDeletesToBitset bitset ↔ d ∉ s.deleted ∧ d ∈ bitset := by
  rw [applyDeletesToBitset]
  split_ifs with h
  · simp [h]
  · rw [Finset.mem_sdiff, and_comm]

theorem mem_boolTrueIds :
    d ∈ s.boolTrueIds x ↔ d ∉ s.deleted ∧ ∃ r ∈ s.readers, d ∈ r.boolTrueIds x := by
  rw [boolTrueIds, mem_applyDeletesToBitset, mem_foldl_union]
  simp [readers, Reader.boolTrueIds]

theorem mem_boolFalseIds :
    d ∈ s.boolFalseIds x ↔ d ∉ s.deleted ∧ ∃ r ∈ s.readers, d ∈ r.boolFalseIds x := by
  rw [boolFalseIds, mem_applyDeletesToBitset, mem_foldl_union]
  simp [readers, Reader.boolFalseIds]

theorem mem_resolveArrayRows {rows : Finset ArrayRowId} :
    d ∈ s.resolveArrayRows rows
      ↔ d ∉ s.deleted ∧ ∃ r ∈ s.readers, d ∈ r.arrayRowIndex.resolve rows := by
  rw [resolveArrayRows, Finset.mem_filter, mem_foldl_union, and_comm]
  simp [readers, Reader.arrayRowIndex]

/-- The snapshot returns id `d` from some lookup on field `x`. -/
def Returns (s : IndexSnapshot) (x : XPathId) (d : DocId) : Prop :=
  (∃ term, (s.lookup term x).find d ≠ none) ∨ (∃ lo hi, (s.numericRange x lo hi).find d ≠ none) ∨
    d ∈ s.boolTrueIds x ∨ d ∈ s.boolFalseIds x

theorem returns_iff :
    s.Returns x d ↔ d ∉ s.deleted ∧ ∃ r ∈ s.readers, r.Holds x d := by
  have hlookup : (∃ term, (s.lookup term x).find d ≠ none)
      ↔ d ∉ s.deleted ∧ ∃ r ∈ s.readers, ∃ term, r.posting ⟨x, term⟩ d ≠ none := by
    simp only [find_lookup]
    by_cases hd : d ∈ s.deleted
    · simp [hd]
    · simp only [hd, if_false, not_false_eq_true, true_and, joinAll_ne_none, mem_map]
      constructor
      · rintro ⟨t, -, ⟨r, hr, rfl⟩, h⟩
        exact ⟨r, hr, t, h⟩
      · rintro ⟨r, hr, t, h⟩
        exact ⟨t, _, ⟨r, hr, rfl⟩, h⟩
  have hrange : (∃ lo hi, (s.numericRange x lo hi).find d ≠ none)
      ↔ d ∉ s.deleted ∧ ∃ r ∈ s.readers, d ∈ r.rangeIds x none none := by
    simp only [mem_numericRange]
    constructor
    · rintro ⟨lo, hi, hd, r, hr, h⟩
      exact ⟨hd, r, hr, Reader.mem_rangeIds_none h⟩
    · rintro ⟨hd, r, hr, h⟩
      exact ⟨none, none, hd, r, hr, h⟩
  simp only [Returns, hlookup, hrange, mem_boolTrueIds, mem_boolFalseIds, Reader.holds_iff,
    and_or_left, exists_or]

end IndexSnapshot

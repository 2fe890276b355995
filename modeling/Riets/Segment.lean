/-
Segments.

A segment is a frozen set of postings, lengths, numbers, booleans and array
rows.  The same structure stands for the in-memory segment and for one opened
from a file: the file keeps every section, so opening what was written gives
the sections back, except for what the reader derives itself (field
statistics, the document range, and the dense arrays of lengths, in which the
largest `u32` means that a document has no such field).
-/
import Riets.MemIndex

/-- Lengths of `u32::MAX` mark missing documents in a dense field. -/
def u32Max : ℕ := 2 ^ 32 - 1

/-- `ImmutableSegment`: a part of the index that does not change. -/
structure Segment where
  terms : SortedMap TermKey PostingList
  docLengths : SortedMap LengthKey ℕ
  fieldStats : SortedMap XPathId FieldStats
  numericFields : NumericFields
  boolFields : SortedMap XPathId BoolField
  docIdRange : Option (DocId × DocId)
  arrayRowIndex : ArrayRowIndex
  deriving DecidableEq

namespace Segment

open List PostingList BoolField

/-- The range with one more id. -/
def extendRange (range : Option (DocId × DocId)) (docId : DocId) : Option (DocId × DocId) :=
  match range with
  | none => some (docId, docId)
  | some (lo, hi) => some (min lo docId, max hi docId)

/-- From the lengths and the numbers only. -/
def computeDocIdRange (docLengths : SortedMap LengthKey ℕ) (numericFields : NumericFields) :
    Option (DocId × DocId) :=
  let lengths := docLengths.entries.map fun e => (ofLex e.1).1
  let numbers := numericFields.fields.entries.flatMap fun e => e.2.bkd.points.map Prod.snd
  (lengths ++ numbers).foldl extendRange none

/-- Each length counts as one document of its field. -/
def buildFieldStats (docLengths : List (LengthKey × ℕ)) : SortedMap XPathId FieldStats :=
  SortedMap.empty.extend (fun stats len =>
    let stats := stats.getD default
    ⟨stats.docCount + 1, stats.totalDocLen + len⟩)
    (docLengths.map fun e => ((ofLex e.1).2, e.2))

def new (terms : SortedMap TermKey PostingList) (docLengths : SortedMap LengthKey ℕ)
    (fieldStats : SortedMap XPathId FieldStats) (numericFields : NumericFields)
    (boolFields : SortedMap XPathId BoolField) (arrayRowIndex : ArrayRowIndex) : Segment where
  terms := terms
  docLengths := docLengths
  fieldStats := fieldStats
  numericFields := numericFields
  boolFields := boolFields
  docIdRange := computeDocIdRange docLengths numericFields
  arrayRowIndex := arrayRowIndex

def fieldDocs (docLengths : SortedMap LengthKey ℕ) (x : XPathId) : List DocId :=
  (docLengths.entries.filter fun e => (ofLex e.1).2 = x).map fun e => (ofLex e.1).1

/-- A range at most four times as wide as its ids are many becomes an array. -/
def isDense (docs : List DocId) : Bool :=
  let first := docs.min?.getD 0
  let last := docs.max?.getD 0
  last - first + 1 ≤ docs.length * 4

/-- An array of lengths keeps the greatest number free for "none". -/
def openLengths (docLengths : SortedMap LengthKey ℕ) : SortedMap LengthKey ℕ :=
  docLengths.filter fun e => !(isDense (fieldDocs docLengths (ofLex e.1).2) && e.2 = u32Max)

/-- What the sections and the footer of a file hold. -/
structure SegmentFile where
  terms : SortedMap TermKey PostingList
  docLengths : SortedMap LengthKey ℕ
  numericFields : NumericFields
  boolFields : SortedMap XPathId BoolField
  arrayRowIndex : ArrayRowIndex
  minDocId : DocId
  maxDocId : DocId
  deriving DecidableEq

def write (s : Segment) : SegmentFile where
  terms := s.terms
  docLengths := s.docLengths
  numericFields := s.numericFields
  boolFields := s.boolFields
  arrayRowIndex := s.arrayRowIndex
  minDocId := (s.docIdRange.getD (0, 0)).1
  maxDocId := (s.docIdRange.getD (0, 0)).2

/-- `DiskSegment::open`: the statistics are added up again. -/
def SegmentFile.open (f : SegmentFile) : Segment where
  terms := f.terms
  docLengths := openLengths f.docLengths
  fieldStats := buildFieldStats (openLengths f.docLengths).entries
  numericFields := f.numericFields
  boolFields := f.boolFields
  docIdRange :=
    if f.terms.size = 0 ∧ f.numericFields.fields.size = 0 then none
    else some (f.minDocId, f.maxDocId)
  arrayRowIndex := f.arrayRowIndex

/-! ### What a reader sees -/

def lookup (s : Segment) (term : String) (xpath : XPathId) : PostingList :=
  (s.terms.get? ⟨xpath, term⟩).getD default

def docFreq (s : Segment) (term : String) (xpath : XPathId) : ℕ :=
  ((s.terms.get? ⟨xpath, term⟩).map fun list => list.items.length % 2 ^ 32).getD 0

def docOfRow (s : Segment) (row : ArrayRowId) : Option DocId := s.arrayRowIndex.docOf row

def parentOfRow (s : Segment) (row : ArrayRowId) : Option ArrayRowId := s.arrayRowIndex.parentOf row

def numericValue (s : Segment) (xpath : XPathId) (docId : DocId) : Option NumericValue :=
  s.numericFields.get xpath docId

def boolTrueIds (s : Segment) (xpath : XPathId) : Finset DocId :=
  ((s.boolFields.get? xpath).map trueIds).getD ∅

def boolFalseIds (s : Segment) (xpath : XPathId) : Finset DocId :=
  ((s.boolFields.get? xpath).map falseIds).getD ∅

def docLen (s : Segment) (docId : DocId) (xpath : XPathId) : Option ℕ :=
  s.docLengths.get? (toLex (docId, xpath))

def docCount (s : Segment) (xpath : XPathId) : ℕ :=
  ((s.fieldStats.get? xpath).map FieldStats.docCount).getD 0

def totalDocLen (s : Segment) (xpath : XPathId) : ℕ :=
  ((s.fieldStats.get? xpath).map FieldStats.totalDocLen).getD 0

/-- What a document has under a term. -/
def posting (s : Segment) (k : TermKey) (d : DocId) : Option Posting :=
  (s.terms.get? k).bind fun l => l.find d

def numbers (s : Segment) (x : XPathId) (d : DocId) : List (DocId × BitVec 64) :=
  s.numericFields.of x d

/-- Something is filed under the id in the field. -/
def Holds (s : Segment) (x : XPathId) (d : DocId) : Prop :=
  (∃ term, s.posting ⟨x, term⟩ d ≠ none) ∨ s.numbers x d ≠ [] ∨
    d ∈ s.boolTrueIds x ∨ d ∈ s.boolFalseIds x

theorem find_lookup (s : Segment) (term : String) (x : XPathId) (d : DocId) :
    (s.lookup term x).find d = s.posting ⟨x, term⟩ d := by
  rw [lookup, posting]
  cases s.terms.get? ⟨x, term⟩ <;> rfl

/-- Ids as a list without positions. -/
def idPostings (docs : List DocId) : PostingList :=
  fromItems (docs.map fun docId => ⟨docId, [], 0⟩)

def numericRange (s : Segment) (xpath : XPathId) (lo hi : Option NumericBound) : PostingList :=
  idPostings (s.numericFields.range xpath lo hi)

theorem find_idPostings (docs : List DocId) (d : DocId) :
    (idPostings docs).find d = if d ∈ docs then some ⟨d, [], 0⟩ else none := by
  have hfold : ∀ l : List Posting, (∀ p ∈ l, p = ⟨d, [], 0⟩) →
      l.foldl Posting.absorb ⟨d, [], 0⟩ = ⟨d, [], 0⟩ := by
    intro l
    induction l with
    | nil => exact fun _ => rfl
    | cons p l ih =>
      intro hl
      rw [foldl_cons, hl p (by simp)]
      exact ih fun q hq => hl q (by simp [hq])
  have hmem : ∀ p ∈ (docs.map fun docId => (⟨docId, [], 0⟩ : Posting)).filter fun p => p.docId = d,
      p = ⟨d, [], 0⟩ ∧ d ∈ docs := by
    intro p hp
    obtain ⟨hp, hd⟩ := mem_filter.mp hp
    obtain ⟨a, ha, rfl⟩ := mem_map.mp hp
    obtain rfl : a = d := by simpa using hd
    exact ⟨rfl, ha⟩
  rw [idPostings, find_fromItems]
  cases hf : (docs.map fun docId => (⟨docId, [], 0⟩ : Posting)).filter fun p => p.docId = d with
  | nil =>
    rw [if_neg, Keyed.foldRun]
    intro hd
    exact filter_eq_nil_iff.mp hf _ (mem_map.mpr ⟨d, hd, rfl⟩) (by simp)
  | cons p l =>
    have hp := hmem p (by simp [hf])
    rw [if_pos hp.2, Keyed.foldRun, hp.1, hfold]
    exact fun q hq => (hmem q (by simp [hf, hq])).1

end Segment

namespace MemIndex

open List SortedMap NumericPoints PostingList BoolField

/-- The terms of all generations, the oldest first. -/
def frozenTerms (generations : List MemIndex) : SortedMap TermKey PostingList :=
  generations.foldl (fun acc g => acc.mergeWith appendList g.terms) SortedMap.empty

def frozenLengths (generations : List MemIndex) : SortedMap LengthKey ℕ :=
  generations.foldl (fun acc g => acc.mergeWith (fun _ len => len) g.docLengths) SortedMap.empty

def frozenStats (generations : List MemIndex) : SortedMap XPathId FieldStats :=
  generations.foldl (fun acc g => acc.mergeWith (fun o s => (o.getD default).add s) g.fieldStats)
    SortedMap.empty

def frozenPoints (generations : List MemIndex) : NumericPoints :=
  generations.foldl (fun acc g => acc.merge g.numericPoints) NumericPoints.empty

def frozenBools (generations : List MemIndex) : SortedMap XPathId BoolField :=
  generations.foldl (fun acc g => acc.mergeWith (fun o f => (o.getD default).union f) g.boolFields)
    SortedMap.empty

def frozenRows (generations : List MemIndex) : ArrayRowIndex :=
  generations.foldl (fun acc g => acc.mergeFrom g.arrayRowIndex) ArrayRowIndex.empty

/-- One segment from sealed tables, oldest first; the loop over the tables is
written out once for each part. -/
def freezeShared (generations : List MemIndex) : Segment :=
  Segment.new (frozenTerms generations) (frozenLengths generations) (frozenStats generations)
    (frozenPoints generations).build (frozenBools generations) (frozenRows generations)

variable {generations : List MemIndex} {k : TermKey} {x : XPathId} {d : DocId}

theorem posting_freezeShared (generations : List MemIndex) (k : TermKey) (d : DocId) :
    (freezeShared generations).posting k d
      = joinAll (generations.map fun g => g.posting k d) := by
  change ((frozenTerms generations).get? k).bind _ = _
  rw [joinAll]
  induction generations using reverseRecOn with
  | nil => rfl
  | append_singleton gs g ih =>
    have hstep : frozenTerms (gs ++ [g]) = (frozenTerms gs).mergeWith appendList g.terms := by
      rw [frozenTerms, foldl_append]
      rfl
    rw [hstep, map_append, foldl_append, ← ih, get?_mergeWith]
    rw [map_singleton, foldl_cons, foldl_nil, posting]
    cases g.terms.get? k with
    | none => simp
    | some list =>
      cases (frozenTerms gs).get? k with
      | none => rfl
      | some mine => exact find_append mine list d

theorem numbers_freezeShared (generations : List MemIndex) (x : XPathId) (d : DocId) :
    (freezeShared generations).numbers x d
      = generations.flatMap fun g => (g.numbers x d).map fun p => (p.1, pack p.2) := by
  change (frozenPoints generations).build.of x d = _
  rw [of_build]
  induction generations using reverseRecOn with
  | nil => rfl
  | append_singleton gs g ih =>
    have hstep : frozenPoints (gs ++ [g]) = (frozenPoints gs).merge g.numericPoints := by
      rw [frozenPoints, foldl_append]
      rfl
    rw [hstep, of_merge, map_append, ih, flatMap_append, flatMap_singleton]
    rfl

theorem mem_boolTrueIds_freezeShared :
    d ∈ (freezeShared generations).boolTrueIds x ↔ ∃ g ∈ generations, d ∈ g.boolTrueIds x :=
  mem_ids_foldl trueIds (fun _ _ => rfl) rfl boolFields id generations x

theorem mem_boolFalseIds_freezeShared :
    d ∈ (freezeShared generations).boolFalseIds x ↔ ∃ g ∈ generations, d ∈ g.boolFalseIds x :=
  mem_ids_foldl falseIds (fun _ _ => rfl) rfl boolFields id generations x

theorem docLengths_freezeShared {key : LengthKey}
    (h : (freezeShared generations).docLengths.get? key ≠ none) :
    ∃ g ∈ generations, g.docLengths.get? key ≠ none := by
  change (frozenLengths generations).get? key ≠ none at h
  induction generations using reverseRecOn with
  | nil => exact absurd rfl h
  | append_singleton gs g ih =>
    have hstep : frozenLengths (gs ++ [g])
        = (frozenLengths gs).mergeWith (fun _ len => len) g.docLengths := by
      rw [frozenLengths, foldl_append]
      rfl
    rw [hstep, get?_mergeWith] at h
    cases hg : g.docLengths.get? key with
    | none =>
      rw [hg] at h
      obtain ⟨g', hg', hlen⟩ := ih h
      exact ⟨g', by simp [hg'], hlen⟩
    | some len => exact ⟨g, by simp, by simp [hg]⟩

theorem holds_freezeShared :
    (freezeShared generations).Holds x d ↔ ∃ g ∈ generations, g.Holds x d := by
  have hpost : (∃ t, (freezeShared generations).posting ⟨x, t⟩ d ≠ none)
      ↔ ∃ g ∈ generations, ∃ t, g.posting ⟨x, t⟩ d ≠ none := by
    simp only [posting_freezeShared, joinAll_ne_none, mem_map]
    constructor
    · rintro ⟨t, -, ⟨g, hg, rfl⟩, h⟩
      exact ⟨g, hg, t, h⟩
    · rintro ⟨g, hg, t, h⟩
      exact ⟨t, _, ⟨g, hg, rfl⟩, h⟩
  have hnum : (freezeShared generations).numbers x d ≠ []
      ↔ ∃ g ∈ generations, g.numbers x d ≠ [] := by
    rw [numbers_freezeShared]
    simp
  simp only [Segment.Holds, Holds, hpost, hnum, mem_boolTrueIds_freezeShared,
    mem_boolFalseIds_freezeShared, and_or_left, exists_or]

end MemIndex

namespace Segment

variable {s : Segment} {k : TermKey} {x : XPathId} {d : DocId}

/-- The segment as it is read back from its file. -/
def openWritten (s : Segment) : Segment := s.write.open

theorem holds_openWritten : s.openWritten.Holds x d ↔ s.Holds x d := Iff.rfl

theorem get?_openLengths (m : SortedMap LengthKey ℕ) (d : DocId) (x : XPathId) :
    (openLengths m).get? (toLex (d, x))
      = (m.get? (toLex (d, x))).filter fun len => !(isDense (fieldDocs m x) && len = u32Max) := by
  rw [openLengths, SortedMap.get?_filter]
  rfl

theorem get?_of_openLengths {m : SortedMap LengthKey ℕ}
    (h : (openLengths m).get? (toLex (d, x)) ≠ none) : m.get? (toLex (d, x)) ≠ none := by
  intro hnone
  rw [get?_openLengths, hnone] at h
  exact h rfl

end Segment

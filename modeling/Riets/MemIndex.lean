/-
The memory index.

A `MemIndex` collects the postings, lengths, numbers and booleans of documents
that were analyzed already.

Readers ask for one field and one id, so the contents of an index are
described by what it holds for a pair of a term and an id (`posting`), of a
field and an id (`numbers`, `trueIds`, `falseIds`).  Adding, merging and
freezing act on these pair by pair.
-/
import Riets.ArrayRows
import Riets.Numeric

/-- A term of a text, with its encoded positions. -/
structure AnalyzedTerm where
  term : String
  positions : List ℕ
  weight : ℕ
  deriving DecidableEq, Repr

/-- The analyzed text of one field. -/
structure AnalyzedField where
  xpath : XPathId
  docLen : ℕ
  terms : List AnalyzedTerm
  deriving DecidableEq, Repr

structure NumericPoint where
  xpath : XPathId
  value : NumericValue
  deriving DecidableEq, Repr

structure BoolPoint where
  xpath : XPathId
  value : Bool
  deriving DecidableEq, Repr

/-- What is filed under one id. -/
structure AnalyzedTarget where
  fields : List AnalyzedField
  numericPoints : List NumericPoint
  boolPoints : List BoolPoint
  deriving DecidableEq, Repr

/-- An element of an array, which has an id of its own. -/
structure AnalyzedArrayRow where
  arrayRowId : ArrayRowId
  parent : Option ArrayRowId
  target : AnalyzedTarget
  deriving DecidableEq, Repr

/-- A document with the elements of its arrays. -/
structure AnalyzedDocument where
  docId : DocId
  main : AnalyzedTarget
  arrayRows : List AnalyzedArrayRow
  deriving DecidableEq, Repr

/-- The target has something for the field. -/
def AnalyzedTarget.Touches (t : AnalyzedTarget) (x : XPathId) : Prop :=
  (∃ f ∈ t.fields, f.xpath = x) ∨ (∃ p ∈ t.numericPoints, p.xpath = x) ∨
    ∃ p ∈ t.boolPoints, p.xpath = x

/-- Some element of the document has something for the field. -/
def AnalyzedDocument.RowKeyed (doc : AnalyzedDocument) (x : XPathId) : Prop :=
  ∃ row ∈ doc.arrayRows, row.target.Touches x

/-- How many ids have a length in a field, and the sum of the lengths. -/
structure FieldStats where
  docCount : ℕ
  totalDocLen : ℕ
  deriving DecidableEq, Repr

namespace FieldStats

instance : Inhabited FieldStats := ⟨⟨0, 0⟩⟩

def add (s other : FieldStats) : FieldStats :=
  ⟨s.docCount + other.docCount, s.totalDocLen + other.totalDocLen⟩

end FieldStats

/-- The ids that are true and those that are false; an id may be both. -/
structure BoolField where
  trueIds : Finset DocId
  falseIds : Finset DocId
  deriving DecidableEq

namespace BoolField

instance : Inhabited BoolField := ⟨⟨∅, ∅⟩⟩

def union (a b : BoolField) : BoolField := ⟨a.trueIds ∪ b.trueIds, a.falseIds ∪ b.falseIds⟩

def insert (f : BoolField) (id : DocId) (value : Bool) : BoolField :=
  if value then { f with trueIds := Insert.insert id f.trueIds }
  else { f with falseIds := Insert.insert id f.falseIds }

end BoolField

/-- An id and a field, in this order. -/
abbrev LengthKey := ℕ ×ₗ ℕ

/-- The part of the index that is still in memory. -/
structure MemIndex where
  terms : SortedMap TermKey PostingList
  docLengths : SortedMap LengthKey ℕ
  fieldStats : SortedMap XPathId FieldStats
  numericPoints : NumericPoints
  boolFields : SortedMap XPathId BoolField
  estimatedBytes : ℕ
  minDocId : Option DocId
  maxDocId : Option DocId
  arrayRowIndex : ArrayRowIndex
  deriving DecidableEq

def termKeySize : ℕ := 32

namespace MemIndex

open SortedMap List PostingList NumericPoints

def new : MemIndex where
  terms := SortedMap.empty
  docLengths := SortedMap.empty
  fieldStats := SortedMap.empty
  numericPoints := NumericPoints.empty
  boolFields := SortedMap.empty
  estimatedBytes := 0
  minDocId := none
  maxDocId := none
  arrayRowIndex := ArrayRowIndex.empty

instance : Inhabited MemIndex := ⟨new⟩

/-- The range is widened to the document. -/
def trackDocId (m : MemIndex) (docId : DocId) : MemIndex :=
  { m with
    minDocId := some ((m.minDocId.map fun k => min k docId).getD docId)
    maxDocId := some ((m.maxDocId.map fun k => max k docId).getD docId) }

def docIdRange (m : MemIndex) : Option (DocId × DocId) :=
  match m.minDocId, m.maxDocId with
  | some lo, some hi => some (lo, hi)
  | _, _ => none

def termCount (m : MemIndex) : ℕ := m.terms.size

def postingBytes (positions : List ℕ) : ℕ := 8 + 2 + positions.length * 4

/-- The positions join those that the id has under the term. -/
def addPostingWeighted (m : MemIndex) (term : String) (xpath : XPathId) (docId : DocId)
    (positions : List ℕ) (weight : ℕ) : MemIndex :=
  let key : TermKey := ⟨xpath, term⟩
  let newKeyBytes := if (m.terms.get? key).isSome then 0 else term.utf8ByteSize + termKeySize
  { m with
    estimatedBytes := m.estimatedBytes + postingBytes positions + newKeyBytes
    terms := m.terms.upsert key fun old => (old.getD default).insertPosting docId positions weight }

/-- The length replaces an earlier one, and the statistics follow. -/
def applyField (m : MemIndex) (docId : DocId) (field : AnalyzedField) : MemIndex :=
  let old := m.docLengths.get? (toLex (docId, field.xpath))
  let m1 := { m with
    docLengths := m.docLengths.insert (toLex (docId, field.xpath)) field.docLen
    fieldStats := m.fieldStats.upsert field.xpath fun stats =>
      let stats := stats.getD default
      match old with
      | some oldLen => { stats with totalDocLen := stats.totalDocLen - oldLen + field.docLen }
      | none => ⟨stats.docCount + 1, stats.totalDocLen + field.docLen⟩ }
  field.terms.foldl
    (fun m t => m.addPostingWeighted t.term field.xpath docId t.positions t.weight) m1

def addNumber (m : MemIndex) (targetId : DocId) (point : NumericPoint) : MemIndex :=
  { m with numericPoints := m.numericPoints.insert point.xpath point.value targetId }

def addBool (m : MemIndex) (targetId : DocId) (point : BoolPoint) : MemIndex :=
  { m with
    boolFields := m.boolFields.upsert point.xpath fun slot =>
      (slot.getD default).insert targetId point.value }

/-- The texts, then the numbers, then the booleans. -/
def applyTarget (m : MemIndex) (targetId : DocId) (target : AnalyzedTarget) : MemIndex :=
  let m1 := target.fields.foldl (fun m f => m.applyField targetId f) m
  let m2 := target.numericPoints.foldl (fun m p => m.addNumber targetId p) m1
  target.boolPoints.foldl (fun m p => m.addBool targetId p) m2

/-- The row gets its place in the table, then its target is filed. -/
def addArrayRow (m : MemIndex) (docId : DocId) (row : AnalyzedArrayRow) : MemIndex :=
  applyTarget { m with arrayRowIndex := m.arrayRowIndex.pushRow row.arrayRowId docId row.parent }
    row.arrayRowId row.target

/-- Inserts an already analyzed document: its body under its own id, each array
element under its row id. -/
def addAnalyzedDocument (m : MemIndex) (document : AnalyzedDocument) : MemIndex :=
  document.arrayRows.foldl (fun m row => m.addArrayRow document.docId row)
    ((m.trackDocId document.docId).applyTarget document.docId document.main)

def duplicateKeyBytes (m newer : MemIndex) : ℕ :=
  (newer.terms.entries.map fun e =>
    if (m.terms.get? e.1).isSome then e.1.term.utf8ByteSize + termKeySize else 0).sum

def appendList (mine : Option PostingList) (list : PostingList) : PostingList :=
  match mine with
  | some l => l.append list
  | none => list

/-- The newer index is added; where both have a length, the newer one counts. -/
def mergeFrom (m newer : MemIndex) : MemIndex :=
  let merged : MemIndex :=
    { terms := m.terms.mergeWith appendList newer.terms
      docLengths := m.docLengths.mergeWith (fun _ len => len) newer.docLengths
      fieldStats := m.fieldStats.mergeWith (fun o s => (o.getD default).add s) newer.fieldStats
      numericPoints := m.numericPoints.merge newer.numericPoints
      boolFields := m.boolFields.mergeWith (fun o f => (o.getD default).union f) newer.boolFields
      estimatedBytes := m.estimatedBytes + (newer.estimatedBytes - m.duplicateKeyBytes newer)
      minDocId := m.minDocId
      maxDocId := m.maxDocId
      arrayRowIndex := m.arrayRowIndex.mergeFrom newer.arrayRowIndex }
  match newer.docIdRange with
  | some (lo, hi) => (merged.trackDocId lo).trackDocId hi
  | none => merged

/-! ### What a reader sees -/

def lookupTerm (m : MemIndex) (term : String) (xpath : XPathId) : Option PostingList :=
  m.terms.get? ⟨xpath, term⟩

def lookupOrEmpty (m : MemIndex) (term : String) (xpath : XPathId) : PostingList :=
  (m.lookupTerm term xpath).getD default

def boolTrueIds (m : MemIndex) (xpath : XPathId) : Finset DocId :=
  ((m.boolFields.get? xpath).map BoolField.trueIds).getD ∅

def boolFalseIds (m : MemIndex) (xpath : XPathId) : Finset DocId :=
  ((m.boolFields.get? xpath).map BoolField.falseIds).getD ∅

def posting (m : MemIndex) (k : TermKey) (d : DocId) : Option Posting :=
  (m.terms.get? k).bind fun l => l.find d

def numbers (m : MemIndex) (x : XPathId) (d : DocId) : List (DocId × NumericValue) :=
  (m.numericPoints.at_ x).of d

/-- Some entry of field `x` is filed under id `d`. -/
def Holds (m : MemIndex) (x : XPathId) (d : DocId) : Prop :=
  (∃ term, m.posting ⟨x, term⟩ d ≠ none) ∨ m.numbers x d ≠ [] ∨
    d ∈ m.boolTrueIds x ∨ d ∈ m.boolFalseIds x

theorem find_lookupOrEmpty (m : MemIndex) (term : String) (x : XPathId) (d : DocId) :
    (m.lookupOrEmpty term x).find d = m.posting ⟨x, term⟩ d := by
  rw [lookupOrEmpty, lookupTerm, posting]
  cases m.terms.get? ⟨x, term⟩ <;> rfl

@[simp] theorem posting_new (k : TermKey) (d : DocId) : new.posting k d = none := rfl

theorem new_boolFields : new.boolFields = SortedMap.empty := rfl

theorem not_holds_new (x : XPathId) (d : DocId) : ¬ new.Holds x d := by
  have hnum : new.numbers x d = [] := rfl
  simp [Holds, hnum, boolTrueIds, boolFalseIds, new_boolFields]

/-! ### Adding a document -/

@[simp] theorem posting_trackDocId (m : MemIndex) (id : DocId) (k : TermKey) (d : DocId) :
    (m.trackDocId id).posting k d = m.posting k d := rfl

def addOccurrences (docId : DocId) (positions : List ℕ) (weight : ℕ) (old : Option Posting) :
    Option Posting :=
  if positions = [] then old
  else match old with
    | none => some ⟨docId, sortDedup positions, weight⟩
    | some p => some ⟨docId, extendPositionsSorted p.positions (sortDedup positions),
        max p.weight weight⟩

theorem posting_addPostingWeighted (m : MemIndex) (term : String) (xpath : XPathId)
    (docId : DocId) (positions : List ℕ) (weight : ℕ) (k : TermKey) (d : DocId) :
    (m.addPostingWeighted term xpath docId positions weight).posting k d
      = if k = ⟨xpath, term⟩ ∧ d = docId then addOccurrences docId positions weight (m.posting k d)
        else m.posting k d := by
  rw [posting, posting, addPostingWeighted, get?_upsert]
  by_cases hk : k = ⟨xpath, term⟩
  · subst hk
    simp only [if_true, Option.bind_some, true_and]
    have hdef : ∀ o : Option PostingList, (o.getD default).find d = o.bind fun l => l.find d := by
      intro o
      cases o <;> rfl
    by_cases hd : d = docId
    · subst hd
      rw [if_pos rfl, find_insertPosting_self, hdef]
      rfl
    · rw [if_neg hd, find_insertPosting _ _ _ _ _ hd, hdef]
  · simp [hk]

/-- Each way of adding to an index changes the posting at one key and id by a
function of that posting alone. -/
def Local (f : MemIndex → MemIndex) : Prop :=
  ∀ (k : TermKey) (d : DocId) (m n : MemIndex), m.posting k d = n.posting k d →
    (f m).posting k d = (f n).posting k d

theorem local_foldl {α : Type*} {f : MemIndex → α → MemIndex} (h : ∀ a, Local fun m => f m a)
    (l : List α) : Local fun m => l.foldl f m := by
  intro k d m n hmn
  induction l generalizing m n with
  | nil => exact hmn
  | cons a l ih => exact ih (f m a) (f n a) (h a k d m n hmn)

theorem local_applyField (docId : DocId) (field : AnalyzedField) :
    Local fun m => m.applyField docId field := by
  intro k d m n hmn
  refine local_foldl (fun t k d m n hmn => ?_) field.terms k d _ _ hmn
  rw [posting_addPostingWeighted, posting_addPostingWeighted, hmn]

theorem local_applyTarget (targetId : DocId) (target : AnalyzedTarget) :
    Local fun m => m.applyTarget targetId target := by
  intro k d m n hmn
  refine local_foldl (f := fun m p => m.addBool targetId p) (fun _ _ _ _ _ h => h)
    target.boolPoints k d _ _ ?_
  refine local_foldl (f := fun m p => m.addNumber targetId p) (fun _ _ _ _ _ h => h)
    target.numericPoints k d _ _ ?_
  exact local_foldl (local_applyField targetId) target.fields k d _ _ hmn

theorem local_addAnalyzedDocument (document : AnalyzedDocument) :
    Local fun m => m.addAnalyzedDocument document := by
  intro k d m n hmn
  refine local_foldl (fun row k d m n h => ?_) document.arrayRows k d _ _ ?_
  · exact local_applyTarget row.arrayRowId row.target k d _ _ h
  · exact local_applyTarget document.docId document.main k d _ _ hmn

/-! ### A document changes nothing under other ids -/

/-- Under this id and field both hold the same. -/
structure SameAt (x : XPathId) (d : DocId) (m m' : MemIndex) : Prop where
  posting : ∀ term, m'.posting ⟨x, term⟩ d = m.posting ⟨x, term⟩ d
  length : m'.docLengths.get? (toLex (d, x)) = m.docLengths.get? (toLex (d, x))
  numbers : m'.numbers x d = m.numbers x d
  trueIds : d ∈ m'.boolTrueIds x ↔ d ∈ m.boolTrueIds x
  falseIds : d ∈ m'.boolFalseIds x ↔ d ∈ m.boolFalseIds x

namespace SameAt

variable {x : XPathId} {d : DocId}

theorem refl (m : MemIndex) : SameAt x d m m := ⟨fun _ => rfl, rfl, rfl, Iff.rfl, Iff.rfl⟩

theorem trans {m m' m'' : MemIndex} (h : SameAt x d m m') (h' : SameAt x d m' m'') :
    SameAt x d m m'' :=
  ⟨fun t => (h'.posting t).trans (h.posting t), h'.length.trans h.length,
    h'.numbers.trans h.numbers, h'.trueIds.trans h.trueIds, h'.falseIds.trans h.falseIds⟩

theorem foldl {α : Type*} {f : MemIndex → α → MemIndex} {l : List α}
    (h : ∀ a ∈ l, ∀ m, SameAt x d m (f m a)) (m : MemIndex) : SameAt x d m (l.foldl f m) := by
  induction l generalizing m with
  | nil => exact refl m
  | cons a l ih =>
    exact (h a (by simp) m).trans (ih (fun b hb => h b (by simp [hb])) (f m a))

theorem holds {m m' : MemIndex} (h : SameAt x d m m') : m'.Holds x d ↔ m.Holds x d := by
  simp only [Holds, h.posting, h.numbers, h.trueIds, h.falseIds]

theorem applyField {docId : DocId} {field : AnalyzedField} (h : d ≠ docId ∨ field.xpath ≠ x)
    (m : MemIndex) : SameAt x d m (m.applyField docId field) := by
  have hkey : ¬ (toLex (d, x) = toLex (docId, field.xpath)) := by
    rintro heq
    obtain ⟨rfl, rfl⟩ := Prod.mk.inj (toLex.injective heq)
    exact h.elim (fun h => h rfl) fun h => h rfl
  unfold MemIndex.applyField
  refine trans ?_ (foldl (fun t _ m => ?_) _)
  · refine ⟨fun _ => rfl, ?_, rfl, Iff.rfl, Iff.rfl⟩
    rw [get?_insert, if_neg hkey]
  · refine ⟨fun term => ?_, rfl, rfl, Iff.rfl, Iff.rfl⟩
    rw [posting_addPostingWeighted, if_neg]
    rintro ⟨heq, rfl⟩
    exact hkey (by rw [(TermKey.mk.inj heq).1])

variable {targetId : DocId}

theorem addNumber {point : NumericPoint} (h : d ≠ targetId ∨ point.xpath ≠ x)
    (m : MemIndex) : SameAt x d m (m.addNumber targetId point) := by
  refine ⟨fun _ => rfl, rfl, ?_, Iff.rfl, Iff.rfl⟩
  rw [MemIndex.numbers, MemIndex.addNumber, of_insert, if_neg, append_nil]
  · rfl
  · rintro ⟨rfl, rfl⟩
    exact h.elim (fun h => h rfl) fun h => h rfl

theorem addBool {point : BoolPoint} (h : d ≠ targetId ∨ point.xpath ≠ x)
    (m : MemIndex) : SameAt x d m (m.addBool targetId point) := by
  have hget : (m.addBool targetId point).boolFields.get? x
      = if x = point.xpath then
          some (((m.boolFields.get? point.xpath).getD default).insert targetId point.value)
        else m.boolFields.get? x := by
    rw [MemIndex.addBool, get?_upsert]
  by_cases hx : x = point.xpath
  · have hd : d ≠ targetId := h.resolve_right fun hne => hne hx.symm
    rw [if_pos hx, ← hx] at hget
    refine ⟨fun _ => rfl, rfl, rfl, ?_, ?_⟩
    · rw [boolTrueIds, boolTrueIds, hget]
      cases m.boolFields.get? x <;> cases point.value <;> simp [BoolField.insert, hd, default]
    · rw [boolFalseIds, boolFalseIds, hget]
      cases m.boolFields.get? x <;> cases point.value <;> simp [BoolField.insert, hd, default]
  · rw [if_neg hx] at hget
    refine ⟨fun _ => rfl, rfl, rfl, ?_, ?_⟩
    · rw [boolTrueIds, boolTrueIds, hget]
    · rw [boolFalseIds, boolFalseIds, hget]

theorem applyTarget {target : AnalyzedTarget}
    (h : d ≠ targetId ∨ ¬ target.Touches x) (m : MemIndex) :
    SameAt x d m (m.applyTarget targetId target) := by
  have hfields := foldl (f := fun m f => m.applyField targetId f) (l := target.fields)
    (fun f hf => applyField (h.imp id fun ht hx => ht (.inl ⟨f, hf, hx⟩))) m
  refine hfields.trans (trans (foldl (fun p hp => addNumber ?_) _)
    (foldl (fun p hp => addBool ?_) _))
  · exact h.imp id fun ht hx => ht (.inr (.inl ⟨p, hp, hx⟩))
  · exact h.imp id fun ht hx => ht (.inr (.inr ⟨p, hp, hx⟩))

theorem addAnalyzedDocument {doc : AnalyzedDocument}
    (hdoc : d ≠ doc.docId ∨ ¬ doc.main.Touches x)
    (hrows : ∀ row ∈ doc.arrayRows, d ≠ row.arrayRowId ∨ ¬ row.target.Touches x) (m : MemIndex) :
    SameAt x d m (m.addAnalyzedDocument doc) := by
  have htrack : SameAt x d m (m.trackDocId doc.docId) :=
    ⟨fun _ => rfl, rfl, rfl, Iff.rfl, Iff.rfl⟩
  refine (htrack.trans (applyTarget hdoc _)).trans (foldl (fun row hrow m => ?_) _)
  have hrow' : SameAt x d m
      { m with arrayRowIndex := m.arrayRowIndex.pushRow row.arrayRowId doc.docId row.parent } :=
    ⟨fun _ => rfl, rfl, rfl, Iff.rfl, Iff.rfl⟩
  exact hrow'.trans (applyTarget (hrows row hrow) _)

end SameAt

variable {d : DocId}

theorem sameAt_addAnalyzedDocument {doc : AnalyzedDocument} {x : XPathId}
    (hx : ¬ doc.RowKeyed x) (hd : d ≠ doc.docId) (m : MemIndex) :
    SameAt x d m (m.addAnalyzedDocument doc) :=
  SameAt.addAnalyzedDocument (.inl hd) (fun row hrow => .inr fun ht => hx ⟨row, hrow, ht⟩) m

variable {docs : List AnalyzedDocument}

theorem sameAt_foldl_addAnalyzedDocument {x : XPathId}
    (hx : ∀ doc ∈ docs, ¬ doc.RowKeyed x) (hd : ∀ doc ∈ docs, doc.docId ≠ d) (m : MemIndex) :
    SameAt x d m (docs.foldl addAnalyzedDocument m) :=
  SameAt.foldl (fun doc hdoc => sameAt_addAnalyzedDocument (hx doc hdoc) (hd doc hdoc).symm) m

/-- What a document alone has under a term. -/
def ownPosting (doc : AnalyzedDocument) (k : TermKey) : Option Posting :=
  (new.addAnalyzedDocument doc).posting k doc.docId

theorem posting_foldl_addAnalyzedDocument {k : TermKey}
    (hx : ∀ doc ∈ docs, ¬ doc.RowKeyed k.xpath)
    (hd : docs.Pairwise fun a b => a.docId ≠ b.docId) (d : DocId) :
    (docs.foldl addAnalyzedDocument new).posting k d
      = (docs.find? fun doc => doc.docId = d).bind fun doc => ownPosting doc k := by
  induction docs using reverseRecOn with
  | nil => rfl
  | append_singleton docs doc ih =>
    obtain ⟨hd1, -, hd2⟩ := pairwise_append.mp hd
    have ih := ih (fun a ha => hx a (by simp [ha])) hd1
    rw [foldl_append, foldl_cons, foldl_nil, find?_append]
    by_cases hdoc : doc.docId = d
    · -- no earlier document has this id, so the last one starts from nothing
      have hnone : docs.find? (fun doc => doc.docId = d) = none := by
        rw [find?_eq_none]
        intro a ha
        simpa [← hdoc] using hd2 a ha doc (by simp)
      rw [hnone] at ih
      have hlocal := local_addAnalyzedDocument doc k d (docs.foldl addAnalyzedDocument new) new
        (by rw [ih]; rfl)
      rw [hlocal, hnone, ← hdoc]
      simp [ownPosting]
    · have hsame := sameAt_addAnalyzedDocument (hx doc (by simp)) (Ne.symm hdoc)
        (docs.foldl addAnalyzedDocument new)
      rw [hsame.posting k.term, ih]
      cases docs.find? fun doc => doc.docId = d <;> simp [hdoc]

/-! ### Merging -/

theorem mergeFrom_terms (m n : MemIndex) :
    (m.mergeFrom n).terms = m.terms.mergeWith appendList n.terms := by
  rw [mergeFrom]
  cases n.docIdRange <;> rfl

theorem mergeFrom_docLengths (m n : MemIndex) :
    (m.mergeFrom n).docLengths = m.docLengths.mergeWith (fun _ len => len) n.docLengths := by
  rw [mergeFrom]
  cases n.docIdRange <;> rfl

variable {m n : MemIndex}

theorem docLengths_mergeFrom {k : LengthKey}
    (h : (m.mergeFrom n).docLengths.get? k ≠ none) :
    m.docLengths.get? k ≠ none ∨ n.docLengths.get? k ≠ none := by
  rw [mergeFrom_docLengths, get?_mergeWith] at h
  cases hn : n.docLengths.get? k with
  | none =>
    rw [hn] at h
    exact .inl h
  | some len => exact .inr (by simp)

theorem mergeFrom_numericPoints (m n : MemIndex) :
    (m.mergeFrom n).numericPoints = m.numericPoints.merge n.numericPoints := by
  rw [mergeFrom]
  cases n.docIdRange <;> rfl

theorem mergeFrom_boolFields (m n : MemIndex) :
    (m.mergeFrom n).boolFields
      = m.boolFields.mergeWith (fun o f => (o.getD default).union f) n.boolFields := by
  rw [mergeFrom]
  cases n.docIdRange <;> rfl

theorem mergeFrom_arrayRowIndex (m n : MemIndex) :
    (m.mergeFrom n).arrayRowIndex = m.arrayRowIndex.mergeFrom n.arrayRowIndex := by
  rw [mergeFrom]
  cases n.docIdRange <;> rfl

theorem foldl_arrayRowIndex {α : Type*} {f : MemIndex → α → MemIndex}
    (h : ∀ m a, (f m a).arrayRowIndex = m.arrayRowIndex) (l : List α) (m : MemIndex) :
    (l.foldl f m).arrayRowIndex = m.arrayRowIndex := by
  induction l generalizing m with
  | nil => rfl
  | cons a l ih => rw [foldl_cons, ih, h]

theorem applyField_arrayRowIndex (m : MemIndex) (docId : DocId) (field : AnalyzedField) :
    (m.applyField docId field).arrayRowIndex = m.arrayRowIndex := by
  have hpost : ∀ (m : MemIndex) (t : AnalyzedTerm),
      (m.addPostingWeighted t.term field.xpath docId t.positions t.weight).arrayRowIndex
        = m.arrayRowIndex := fun _ _ => rfl
  rw [applyField]
  exact foldl_arrayRowIndex hpost _ _

theorem applyTarget_arrayRowIndex (m : MemIndex) (targetId : DocId) (target : AnalyzedTarget) :
    (m.applyTarget targetId target).arrayRowIndex = m.arrayRowIndex := by
  have hnum : ∀ (m : MemIndex) (p : NumericPoint),
      (m.addNumber targetId p).arrayRowIndex = m.arrayRowIndex := fun _ _ => rfl
  have hbool : ∀ (m : MemIndex) (p : BoolPoint),
      (m.addBool targetId p).arrayRowIndex = m.arrayRowIndex := fun _ _ => rfl
  rw [applyTarget, foldl_arrayRowIndex hbool, foldl_arrayRowIndex hnum]
  exact foldl_arrayRowIndex (fun m f => applyField_arrayRowIndex m targetId f) _ _

theorem addAnalyzedDocument_arrayRowIndex (m : MemIndex) (doc : AnalyzedDocument) :
    (m.addAnalyzedDocument doc).arrayRowIndex
      = doc.arrayRows.foldl (fun t row => t.pushRow row.arrayRowId doc.docId row.parent)
          m.arrayRowIndex := by
  have hrows : ∀ (rows : List AnalyzedArrayRow) (m : MemIndex),
      (rows.foldl (fun m row => m.addArrayRow doc.docId row) m).arrayRowIndex
        = rows.foldl (fun t row => t.pushRow row.arrayRowId doc.docId row.parent)
            m.arrayRowIndex := by
    intro rows
    induction rows with
    | nil => exact fun _ => rfl
    | cons row rows ih =>
      intro m
      rw [foldl_cons, ih, foldl_cons, addArrayRow, applyTarget_arrayRowIndex]
  rw [addAnalyzedDocument, hrows, applyTarget_arrayRowIndex]
  rfl

theorem not_mem_rowToDoc_foldl
    (hd : ∀ doc ∈ docs, doc.docId ≠ d) (hm : d ∉ m.arrayRowIndex.rowToDoc) :
    d ∉ (docs.foldl addAnalyzedDocument m).arrayRowIndex.rowToDoc := by
  induction docs generalizing m with
  | nil => exact hm
  | cons doc docs ih =>
    refine ih (fun e he => hd e (mem_cons_of_mem _ he)) ?_
    rw [addAnalyzedDocument_arrayRowIndex, ArrayRowIndex.rowToDoc_foldl_pushRow]
    simp [hm, (hd doc mem_cons_self).symm]

theorem posting_mergeFrom (m n : MemIndex) (k : TermKey) (d : DocId) :
    (m.mergeFrom n).posting k d = join (m.posting k d) (n.posting k d) := by
  rw [posting, posting, posting, mergeFrom_terms, get?_mergeWith]
  cases n.terms.get? k with
  | none => simp
  | some list =>
    cases m.terms.get? k with
    | none => rfl
    | some mine => exact find_append mine list d

theorem numbers_mergeFrom (m n : MemIndex) (x : XPathId) (d : DocId) :
    (m.mergeFrom n).numbers x d = m.numbers x d ++ n.numbers x d := by
  rw [numbers, mergeFrom_numericPoints, of_merge]
  rfl

section Bools

variable (ids : BoolField → Finset DocId) (hunion : ∀ f g, ids (f.union g) = ids f ∪ ids g)
  (hdefault : ids default = ∅)
include hunion hdefault

theorem ids_mergeWith (clean : BoolField → BoolField) (fields more : SortedMap XPathId BoolField) (x : XPathId) :
    (((fields.mergeWith (fun o f => (o.getD default).union (clean f)) more).get? x).map ids).getD ∅ =
      ((fields.get? x).map ids).getD ∅ ∪ ((more.get? x).map fun f => ids (clean f)).getD ∅ := by
  rw [get?_mergeWith]
  cases more.get? x with
  | none => simp
  | some f => cases fields.get? x <;> simp [hunion, hdefault]

theorem mem_ids_foldl {α : Type} (part : α → SortedMap XPathId BoolField) (clean : BoolField → BoolField)
    (l : List α) (x : XPathId) :
    d ∈ (((l.foldl (fun acc a => acc.mergeWith (fun o f => (o.getD default).union (clean f)) (part a))
        SortedMap.empty).get? x).map ids).getD ∅ ↔
      ∃ a ∈ l, d ∈ (((part a).get? x).map fun f => ids (clean f)).getD ∅ := by
  induction l using reverseRecOn with
  | nil => simp
  | append_singleton l a ih =>
    rw [foldl_append, foldl_cons, foldl_nil, ids_mergeWith ids hunion hdefault, Finset.mem_union, ih]
    simp only [mem_append, mem_singleton, or_and_right, exists_or, exists_eq_left]

end Bools

theorem boolTrueIds_mergeFrom (m n : MemIndex) (x : XPathId) :
    (m.mergeFrom n).boolTrueIds x = m.boolTrueIds x ∪ n.boolTrueIds x := by
  rw [boolTrueIds, mergeFrom_boolFields]
  exact ids_mergeWith BoolField.trueIds (fun _ _ => rfl) rfl id m.boolFields n.boolFields x

theorem boolFalseIds_mergeFrom (m n : MemIndex) (x : XPathId) :
    (m.mergeFrom n).boolFalseIds x = m.boolFalseIds x ∪ n.boolFalseIds x := by
  rw [boolFalseIds, mergeFrom_boolFields]
  exact ids_mergeWith BoolField.falseIds (fun _ _ => rfl) rfl id m.boolFields n.boolFields x

theorem holds_mergeFrom {x : XPathId} :
    (m.mergeFrom n).Holds x d ↔ m.Holds x d ∨ n.Holds x d := by
  have hpost : (∃ t, (m.mergeFrom n).posting ⟨x, t⟩ d ≠ none)
      ↔ (∃ t, m.posting ⟨x, t⟩ d ≠ none) ∨ ∃ t, n.posting ⟨x, t⟩ d ≠ none := by
    rw [← exists_or]
    refine exists_congr fun t => ?_
    rw [posting_mergeFrom]
    cases m.posting ⟨x, t⟩ d <;> cases n.posting ⟨x, t⟩ d <;> simp [join]
  have hnum : (m.mergeFrom n).numbers x d ≠ [] ↔ m.numbers x d ≠ [] ∨ n.numbers x d ≠ [] := by
    rw [numbers_mergeFrom, ne_eq, append_eq_nil_iff, not_and_or]
  rw [Holds, Holds, Holds, hpost, hnum, boolTrueIds_mergeFrom, boolFalseIds_mergeFrom,
    Finset.mem_union, Finset.mem_union]
  simp only [or_assoc, or_left_comm]

theorem foldl_keeps {α : Type*} {P : MemIndex → Prop} {f : MemIndex → α → MemIndex}
    (h : ∀ m a, P m → P (f m a)) (l : List α) (hm : P m) : P (l.foldl f m) := by
  induction l generalizing m with
  | nil => exact hm
  | cons a l ih => exact ih (h m a hm)

/-- A document was added. -/
def Tracked (m : MemIndex) : Prop := m.docIdRange ≠ none

theorem tracked_trackDocId (m : MemIndex) (id : DocId) : (m.trackDocId id).Tracked := by
  simp [Tracked, docIdRange, trackDocId]

theorem tracked_applyTarget (targetId : DocId) (target : AnalyzedTarget)
    (h : m.Tracked) : (m.applyTarget targetId target).Tracked := by
  have hfield : ∀ (m : MemIndex) field, m.Tracked → (m.applyField targetId field).Tracked := by
    intro m field hm
    unfold applyField
    refine foldl_keeps (P := Tracked) ?_ _ hm
    exact fun _ _ h => h
  unfold applyTarget
  refine foldl_keeps (P := Tracked) ?_ _ (foldl_keeps (P := Tracked) ?_ _ (foldl_keeps hfield _ h))
  · exact fun _ _ h => h
  · exact fun _ _ h => h

theorem tracked_addAnalyzedDocument (m : MemIndex) (doc : AnalyzedDocument) :
    (m.addAnalyzedDocument doc).Tracked := by
  unfold addAnalyzedDocument
  refine foldl_keeps ?_ _ (tracked_applyTarget _ _ (tracked_trackDocId _ _))
  exact fun m row hm => tracked_applyTarget row.arrayRowId row.target hm

theorem tracked_mergeFrom (h : m.Tracked ∨ n.Tracked) : (m.mergeFrom n).Tracked := by
  unfold mergeFrom
  cases hn : n.docIdRange with
  | some range => exact tracked_trackDocId _ _
  | none => exact h.resolve_right fun h => h hn

end MemIndex

/-
Ids and array rows.

A document id packs the shard number above a 48 bit local number.  Every
element of an indexed array gets a *row* id from the shard's allocator, and
row-keyed fields are posted under row ids of the same `u64` type.
-/
import Riets.Posting
import Mathlib.Data.Finset.Option
import Mathlib.Data.Finset.Union

abbrev ArrayRowId := ℕ

def localBits : ℕ := 48
def maxLocalDocId : ℕ := 2 ^ localBits - 1

/-- A packed id; `none` where the source panics. -/
def makeDocId (shard localId : ℕ) : Option DocId :=
  if localId ≤ maxLocalDocId then some (shard * 2 ^ localBits + localId) else none

def shardOf (doc : DocId) : ℕ := doc / 2 ^ localBits

def localOf (doc : DocId) : ℕ := doc % 2 ^ localBits

structure ArrayRowAllocator where
  next : ArrayRowId
  deriving DecidableEq, Repr

namespace ArrayRowAllocator

def startingAt (next : ArrayRowId) : ArrayRowAllocator := ⟨next⟩

def alloc (a : ArrayRowAllocator) : ArrayRowId × ArrayRowAllocator := (a.next, ⟨a.next + 1⟩)

end ArrayRowAllocator

def noParentRow : ArrayRowId := 2 ^ 64 - 1

/-- The rows `base, base + 1, …` with their documents and parents. -/
structure ArrayRowIndex where
  base : ArrayRowId
  rowToDoc : List DocId
  parentRow : List ArrayRowId
  length_eq : parentRow.length = rowToDoc.length
  deriving DecidableEq, Repr

namespace ArrayRowIndex

open List Option

def empty : ArrayRowIndex := ⟨0, [], [], rfl⟩

instance : Inhabited ArrayRowIndex := ⟨empty⟩

def len (r : ArrayRowIndex) : ℕ := r.rowToDoc.length

def isEmpty (r : ArrayRowIndex) : Bool := r.rowToDoc.isEmpty

def docOf (r : ArrayRowIndex) (row : ArrayRowId) : Option DocId :=
  if row < r.base then none else r.rowToDoc[row - r.base]?

def parentOf (r : ArrayRowIndex) (row : ArrayRowId) : Option ArrayRowId :=
  if row < r.base then none
  else (r.parentRow[row - r.base]?).filter fun p => p ≠ noParentRow

/-- Adds the next row.  The first row of an empty table sets its base; later
rows are expected to arrive in allocation order, which is not checked. -/
def pushRow (r : ArrayRowIndex) (row : ArrayRowId) (doc : DocId) (parent : Option ArrayRowId) :
    ArrayRowIndex where
  base := if r.isEmpty then row else r.base
  rowToDoc := r.rowToDoc ++ [doc]
  parentRow := r.parentRow ++ [parent.getD noParentRow]
  length_eq := by simp [r.length_eq]

/-- Appends the rows of a table that is expected to continue this one. -/
def mergeFrom (r other : ArrayRowIndex) : ArrayRowIndex :=
  if other.isEmpty then r
  else
    { base := if r.isEmpty then other.base else r.base
      rowToDoc := r.rowToDoc ++ other.rowToDoc
      parentRow := r.parentRow ++ other.parentRow
      length_eq := by simp [r.length_eq, other.length_eq] }

def maxArrayRow (r : ArrayRowIndex) : Option ArrayRowId :=
  if r.isEmpty then none else some (r.base + r.rowToDoc.length - 1)

def resolve (r : ArrayRowIndex) (rows : Finset ArrayRowId) : Finset DocId :=
  rows.biUnion fun row => (r.docOf row).toFinset

theorem rowToDoc_mergeFrom (r other : ArrayRowIndex) :
    (r.mergeFrom other).rowToDoc = r.rowToDoc ++ other.rowToDoc := by
  by_cases h : other.isEmpty
  · rw [mergeFrom, if_pos h, isEmpty_iff.mp h, append_nil]
  · rw [mergeFrom, if_neg h]

theorem rowToDoc_foldl_mergeFrom {α : Type*} (rows : α → ArrayRowIndex) (l : List α)
    (r : ArrayRowIndex) :
    (l.foldl (fun acc a => acc.mergeFrom (rows a)) r).rowToDoc
      = r.rowToDoc ++ l.flatMap fun a => (rows a).rowToDoc := by
  induction l generalizing r with
  | nil => rw [foldl_nil, flatMap_nil, append_nil]
  | cons a l ih =>
    rw [foldl_cons, ih, rowToDoc_mergeFrom, flatMap_cons, append_assoc]

theorem rowToDoc_foldl_pushRow {α : Type*} (row : α → ArrayRowId) (parent : α → Option ArrayRowId)
    (doc : DocId) (l : List α) (r : ArrayRowIndex) :
    (l.foldl (fun t a => t.pushRow (row a) doc (parent a)) r).rowToDoc
      = r.rowToDoc ++ l.map fun _ => doc := by
  induction l generalizing r with
  | nil => rw [foldl_nil, map_nil, append_nil]
  | cons a l ih =>
    rw [foldl_cons, ih, map_cons]
    exact (append_assoc r.rowToDoc [doc] _)

variable {r : ArrayRowIndex}

theorem mem_resolve {rows : Finset ArrayRowId} {d : DocId} :
    d ∈ r.resolve rows ↔ ∃ row ∈ rows, r.docOf row = some d := by
  simp [resolve]

theorem mem_rowToDoc_of_docOf {row : ArrayRowId} {d : DocId}
    (h : r.docOf row = some d) : d ∈ r.rowToDoc := by
  rw [docOf] at h
  split_ifs at h
  exact mem_of_getElem? h

theorem exists_docOf {d : DocId} (h : d ∈ r.rowToDoc) :
    ∃ row, r.docOf row = some d := by
  obtain ⟨i, hi⟩ := mem_iff_getElem?.mp h
  refine ⟨r.base + i, ?_⟩
  rw [docOf, if_neg (Nat.not_lt.mpr (Nat.le_add_right _ _)), Nat.add_sub_cancel_left, hi]

/-! ### Rows that continue a table -/

def rowAt (r : ArrayRowIndex) (row : ℕ) : Option (DocId × ArrayRowId) :=
  if row < r.base then none else (r.rowToDoc.zip r.parentRow)[row - r.base]?

/-- `row` is the next one, as the source expects of a pushed row. -/
def IsNext (r : ArrayRowIndex) (row : ℕ) : Prop := r.isEmpty ∨ row = r.base + r.len

/-- `other` starts where `r` ends, as the source expects of a merged table. -/
def Continues (r other : ArrayRowIndex) : Prop := other.isEmpty ∨ r.IsNext other.base

instance (r : ArrayRowIndex) (row : ℕ) : Decidable (r.IsNext row) :=
  inferInstanceAs (Decidable (_ ∨ _))

instance (r other : ArrayRowIndex) : Decidable (r.Continues other) :=
  inferInstanceAs (Decidable (_ ∨ _))

theorem length_zip (r : ArrayRowIndex) : (r.rowToDoc.zip r.parentRow).length = r.len := by
  rw [List.length_zip, r.length_eq, Nat.min_self]
  rfl

theorem docOf_eq (r : ArrayRowIndex) (row : ℕ) :
    r.docOf row = (r.rowAt row).map Prod.fst := by
  rw [docOf, rowAt]
  split_ifs
  · rfl
  · rw [← getElem?_map, map_fst_zip r.length_eq.ge]

theorem parentOf_eq (r : ArrayRowIndex) (row : ℕ) :
    r.parentOf row = ((r.rowAt row).map Prod.snd).filter fun p => p ≠ noParentRow := by
  rw [parentOf, rowAt]
  split_ifs
  · rfl
  · rw [← getElem?_map, map_snd_zip r.length_eq.le]

theorem rowAt_of_isEmpty (h : r.isEmpty) (row : ℕ) :
    r.rowAt row = none := by
  rw [rowAt, isEmpty_iff.mp h]
  split_ifs <;> simp

theorem rowAt_eq_none {row : ℕ} (h : row ≥ r.base + r.len) :
    r.rowAt row = none := by
  rw [rowAt, if_neg (by omega)]
  refine getElem?_eq_none ?_
  rw [length_zip]
  omega

theorem rowAt_append {t : ArrayRowIndex} {docs : List DocId} {parents : List ArrayRowId}
    (hbase : t.base = r.base) (hdocs : t.rowToDoc = r.rowToDoc ++ docs)
    (hparents : t.parentRow = r.parentRow ++ parents) (row : ℕ) :
    t.rowAt row = if row < r.base + r.len then r.rowAt row
      else (docs.zip parents)[row - (r.base + r.len)]? := by
  rw [rowAt, hbase, hdocs, hparents, zip_append r.length_eq.symm, rowAt]
  by_cases hlow : row < r.base
  · rw [if_pos hlow, if_pos (Nat.lt_of_lt_of_le hlow (Nat.le_add_right _ _)), if_pos hlow]
  rw [if_neg hlow, if_neg hlow]
  have hlen := r.length_zip
  split_ifs with hin
  · exact getElem?_append_left (by omega)
  · rw [getElem?_append_right (by omega), hlen, Nat.sub_sub]

theorem rowAt_pushRow {next : ℕ} (h : r.IsNext next) (doc : DocId)
    (parent : Option ArrayRowId) (row : ℕ) :
    (r.pushRow next doc parent).rowAt row
      = if row = next then some (doc, parent.getD noParentRow) else r.rowAt row := by
  by_cases hempty : r.isEmpty = true
  · -- the first row sets the base
    rw [rowAt_of_isEmpty hempty, rowAt, pushRow]
    have hdocs := isEmpty_iff.mp hempty
    have hparents : r.parentRow = [] := length_eq_zero_iff.mp (by rw [r.length_eq, hdocs]; rfl)
    simp only [hempty, if_true, hdocs, hparents, nil_append]
    by_cases hrow : row = next
    · simp [hrow]
    · split_ifs with hlow
      · rfl
      · exact getElem?_eq_none (by simp; omega)
  · have hnext : next = r.base + r.len := h.resolve_left hempty
    have hne : r.isEmpty = false := by simpa using hempty
    have happend := rowAt_append (t := r.pushRow next doc parent) (by simp [pushRow, hne])
      (show _ = r.rowToDoc ++ [doc] from rfl)
      (show _ = r.parentRow ++ [parent.getD noParentRow] from rfl) row
    rw [happend, ← hnext]
    split_ifs with hlow heq heq
    · omega
    · rfl
    · simp [heq]
    · rw [rowAt_eq_none (by omega)]
      exact getElem?_eq_none (by simp; omega)

variable {other : ArrayRowIndex}

theorem rowAt_mergeFrom (h : r.Continues other) (row : ℕ) :
    (r.mergeFrom other).rowAt row = (r.rowAt row).or (other.rowAt row) := by
  by_cases hother : other.isEmpty = true
  · rw [mergeFrom, if_pos hother, rowAt_of_isEmpty hother, or_none]
  rw [mergeFrom, if_neg hother]
  by_cases hempty : r.isEmpty = true
  · rw [rowAt_of_isEmpty hempty, none_or]
    have hdocs := isEmpty_iff.mp hempty
    have hparents : r.parentRow = [] := length_eq_zero_iff.mp (by rw [r.length_eq, hdocs]; rfl)
    simp only [rowAt, hempty, if_true, hdocs, hparents, nil_append]
  · have hbase : other.base = r.base + r.len := (h.resolve_left hother).resolve_left hempty
    have hne : r.isEmpty = false := by simpa using hempty
    rw [rowAt_append (r := r) (by simp [hne]) (show _ = r.rowToDoc ++ other.rowToDoc from rfl)
      (show _ = r.parentRow ++ other.parentRow from rfl) row, ← hbase]
    split_ifs with hlow
    · rw [rowAt, rowAt, if_pos hlow, or_none]
    · have hend : row ≥ r.base + r.len := hbase ▸ Nat.le_of_not_lt hlow
      rw [rowAt_eq_none hend, none_or, rowAt, if_neg hlow]

def Chain (r : ArrayRowIndex) : List ArrayRowIndex → Prop
  | [] => True
  | other :: rest => r.Continues other ∧ (r.mergeFrom other).Chain rest

instance decidableChain (r : ArrayRowIndex) : (l : List ArrayRowIndex) → Decidable (r.Chain l)
  | [] => inferInstanceAs (Decidable True)
  | other :: rest =>
    have := decidableChain (r.mergeFrom other) rest
    inferInstanceAs (Decidable (_ ∧ _))

theorem rowAt_foldl_mergeFrom {l : List ArrayRowIndex} (h : r.Chain l)
    (row : ℕ) :
    (l.foldl mergeFrom r).rowAt row = (r.rowAt row).or (l.findSome? fun t => t.rowAt row) := by
  induction l generalizing r with
  | nil => rw [foldl_nil, findSome?_nil, or_none]
  | cons t l ih =>
    rw [foldl_cons, ih h.2, rowAt_mergeFrom h.1, findSome?_cons, Option.or_assoc]
    cases t.rowAt row <;> rfl

theorem continues_of_chain (h : empty.Chain [r, other]) :
    r.Continues other := by
  obtain ⟨-, hnext, -⟩ := h
  by_cases hempty : r.isEmpty = true
  · exact .inr (.inl hempty)
  · refine hnext.imp id fun h => ?_
    rw [mergeFrom, if_neg hempty] at h
    exact h

end ArrayRowIndex

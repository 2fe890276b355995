/-
What one more tombstone hides.

Document ids and row ids share one type and one tombstone filter.  A delete
puts the document's own id in the filter: every lookup loses at most that id.
The rows of the document keep being found on the fields filed under rows; they
are dropped where rows are resolved to documents, since that result is filtered
by document.
-/
import Riets.LsmRun

namespace IndexSnapshot

def delete (s : IndexSnapshot) (d : DocId) : IndexSnapshot := { s with deleted := insert d s.deleted }

variable (s : IndexSnapshot) (d : DocId)

theorem find_applyDeletes_delete (postings : PostingList) (e : DocId) :
    ((s.delete d).applyDeletes postings).find e
      = if e = d then none else (s.applyDeletes postings).find e := by
  rw [applyDeletes, applyDeletes, DeleteSet.find_filterInPlace, DeleteSet.find_filterInPlace]
  by_cases he : e = d
  · simp [delete, he]
  · simp [delete, he]

theorem find_lookup_delete (term : String) (x : XPathId) (e : DocId) :
    ((s.delete d).lookup term x).find e = if e = d then none else (s.lookup term x).find e := by
  by_cases hone : s.mem.lookupTerm term x = none ∧
      (s.segments.map fun r => r.lookup term x).length ≤ 1
  · rw [lookup, lookup]
    simp only [delete, hone, and_self, if_true]
    exact find_applyDeletes_delete s d _ e
  · rw [lookup, lookup]
    simp only [delete, hone, if_false]
    exact find_applyDeletes_delete s d _ e

theorem find_numericRange_delete (x : XPathId) (lo hi : Option NumericBound) (e : DocId) :
    ((s.delete d).numericRange x lo hi).find e
      = if e = d then none else (s.numericRange x lo hi).find e :=
  find_applyDeletes_delete s d _ e

theorem boolTrueIds_delete (x : XPathId) :
    (s.delete d).boolTrueIds x = (s.boolTrueIds x).erase d := by
  ext e
  rw [mem_boolTrueIds, Finset.mem_erase, mem_boolTrueIds]
  simp [delete, readers, and_assoc]

theorem boolFalseIds_delete (x : XPathId) :
    (s.delete d).boolFalseIds x = (s.boolFalseIds x).erase d := by
  ext e
  rw [mem_boolFalseIds, Finset.mem_erase, mem_boolFalseIds]
  simp [delete, readers, and_assoc]

theorem resolveArrayRows_delete (rows : Finset ArrayRowId) :
    (s.delete d).resolveArrayRows rows = (s.resolveArrayRows rows).erase d := by
  ext e
  rw [mem_resolveArrayRows, Finset.mem_erase, mem_resolveArrayRows]
  simp [delete, readers, and_assoc]

end IndexSnapshot

namespace World

/-- In every world a run reaches a delete hides `d` on the fields filed under
document ids and nothing else there; on every field all other ids, rows of `d`
included, are returned as before; rows resolve to the same documents without
`d`. -/
theorem delete_hides_only (w : World) (as : List IndexAction) (d : DocId) (appendOk : Bool) :
    let before := (w.run as).index.snapshot
    let after := ((w.run as).index.deleteDocument d appendOk).2.snapshot
    (∀ x, (∀ a ∈ as, ¬ a.RowKeys x) → (∀ term e, (after.lookup term x).find e
        = if e = d then none else (before.lookup term x).find e) ∧
      (∀ lo hi e, (after.numericRange x lo hi).find e
        = if e = d then none else (before.numericRange x lo hi).find e) ∧
      after.boolTrueIds x = (before.boolTrueIds x).erase d ∧
      after.boolFalseIds x = (before.boolFalseIds x).erase d) ∧
    (∀ x e, e ≠ d → (∀ term, (after.lookup term x).find e = (before.lookup term x).find e) ∧
      (∀ lo hi, (after.numericRange x lo hi).find e = (before.numericRange x lo hi).find e) ∧
      (e ∈ after.boolTrueIds x ↔ e ∈ before.boolTrueIds x) ∧
      (e ∈ after.boolFalseIds x ↔ e ∈ before.boolFalseIds x)) ∧
    (∀ row, after.docOfRow row = before.docOfRow row) ∧
    ∀ rows, after.resolveArrayRows rows = (before.resolveArrayRows rows).erase d := by
  intro before after
  have hafter : after = before.delete d := rfl
  rw [hafter]
  refine ⟨fun x _ => ⟨fun term e => before.find_lookup_delete d term x e,
      fun lo hi e => before.find_numericRange_delete d x lo hi e, before.boolTrueIds_delete d x,
      before.boolFalseIds_delete d x⟩, fun x e he => ⟨fun term => ?_, fun lo hi => ?_, ?_, ?_⟩,
    fun _ => rfl, fun rows => before.resolveArrayRows_delete d rows⟩
  · rw [before.find_lookup_delete d term x e, if_neg he]
  · rw [before.find_numericRange_delete d x lo hi e, if_neg he]
  · rw [before.boolTrueIds_delete d x, Finset.mem_erase, and_iff_right he]
  · rw [before.boolFalseIds_delete d x, Finset.mem_erase, and_iff_right he]

def arrayDocument : AnalyzedDocument where
  docId := (makeDocId 1 1).getD 0
  main := ⟨[], [], []⟩
  arrayRows :=
    let first := (ArrayRowAllocator.startingAt (LsmIndex.new.maxArrayRow + 1)).alloc
    [⟨first.1, none, ⟨[⟨0, 1, [⟨"red", [0], 1⟩]⟩], [], []⟩⟩,
      ⟨first.2.alloc.1, none, ⟨[⟨0, 1, [⟨"red", [0], 1⟩]⟩], [], []⟩⟩]

/-- After its document was deleted, a row is still found on the field filed under
rows. -/
theorem arrayDocument_rows_stay :
    let i := ((start [] ∅).run [.mergeIntoMemtable [arrayDocument]]).index
    arrayDocument.RowKeyed 0 ∧ i.snapshot.docOfRow 2 = some arrayDocument.docId ∧
      ((i.deleteDocument arrayDocument.docId true).2.snapshot.lookup "red" 0).find 2 ≠ none := by
  refine ⟨⟨_, List.mem_cons_self, .inl ⟨_, List.mem_cons_self, rfl⟩⟩, ?_, ?_⟩ <;> decide

end World

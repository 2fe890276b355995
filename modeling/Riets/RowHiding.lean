/-
Rows of deleted documents.

Fields inside array elements are filed under row ids.  A delete puts the
document's own id in the tombstone set, so the row postings of a deleted
document are not dropped by a merge, and neither is its part of the row table.
What hides the document is the filter in `resolve_array_rows`, and that filter
is gone once an install has cleared the tombstones.
-/
import Riets.Resurrection
import Riets.Deletion

open IndexAction

namespace LsmIndex

open ArrayRowIndex IndexSnapshot List

variable {i : LsmIndex} {d : DocId}

def ListsRows (i : LsmIndex) (d : DocId) : Prop :=
  ∃ r ∈ i.readers, d ∈ r.arrayRowIndex.rowToDoc

def IsSnapshot (i : LsmIndex) (s : IndexSnapshot) : Prop :=
  s = i.snapshot ∨ ∃ busy, s = (i.publishSnapshot busy).2

/-- No snapshot of this state resolves rows to `d`. -/
def RowsHidden (i : LsmIndex) (d : DocId) : Prop :=
  ∀ s, i.IsSnapshot s → ∀ rows, d ∉ s.resolveArrayRows rows

theorem not_lists_of_gathers {deleted : DeleteSet} (r : Reader) (group : List Reader)
    (h : Reader.Gathers deleted r group) (hg : ∀ g ∈ group, d ∉ g.arrayRowIndex.rowToDoc) :
    d ∉ r.arrayRowIndex.rowToDoc := by
  rw [h.rows, mem_flatMap]
  rintro ⟨g, hmem, hd⟩
  exact hg g hmem hd

theorem lists_of_gathers {deleted : DeleteSet} (r : Reader) (group : List Reader)
    (h : Reader.Gathers deleted r group) (hg : ∃ g ∈ group, d ∈ g.arrayRowIndex.rowToDoc) :
    d ∈ r.arrayRowIndex.rowToDoc := by
  rw [h.rows, mem_flatMap]
  exact hg

theorem listsRows_of_isSnapshot {s : IndexSnapshot} (hs : i.IsSnapshot s)
    (h : ∃ r ∈ s.readers, d ∈ r.arrayRowIndex.rowToDoc) : i.ListsRows d := by
  rcases hs with rfl | ⟨busy, rfl⟩
  · rw [snapshot_readers] at h
    exact h
  · by_contra hnone
    have hall : ∀ r ∈ i.readers, ¬ d ∈ r.arrayRowIndex.rowToDoc := fun r hr hd => hnone ⟨r, hr, hd⟩
    obtain ⟨r, hr, hd⟩ := h
    -- sealing gathers parts; the published snapshot reads an empty active table
    rcases mem_cons.mp hr with rfl | hr
    · have hempty : d ∈ MemIndex.new.arrayRowIndex.rowToDoc := hd
      exact absurd hempty not_mem_nil
    · exact (sealMem_regroup busy).none_of_none not_lists_of_gathers hall r
        (mem_cons_of_mem _ hr) hd

theorem rowsHidden_iff : i.RowsHidden d ↔ d ∈ i.deleted ∨ ¬ i.ListsRows d := by
  constructor
  · intro h
    by_contra hnot
    obtain ⟨hd, hlists⟩ := not_or.mp hnot
    obtain ⟨r, hr, hmem⟩ := not_not.mp hlists
    obtain ⟨row, hrow⟩ := exists_docOf hmem
    refine h i.snapshot (.inl rfl) {row} (mem_resolveArrayRows.mpr ⟨hd, r, ?_, ?_⟩)
    · rwa [snapshot_readers]
    · exact mem_resolve.mpr ⟨row, Finset.mem_singleton_self _, hrow⟩
  · intro h s hs rows hmem
    obtain ⟨hd, r, hr, hres⟩ := mem_resolveArrayRows.mp hmem
    obtain ⟨row, -, hrow⟩ := mem_resolve.mp hres
    rcases h with htomb | hnone
    · refine hd ?_
      rcases hs with rfl | ⟨busy, rfl⟩
      · exact htomb
      · simpa [publishSnapshot, buildSnapshot] using htomb
    · exact hnone (listsRows_of_isSnapshot hs ⟨r, hr, mem_rowToDoc_of_docOf hrow⟩)

end LsmIndex

namespace World

open List LsmIndex

variable {w : World} {d : DocId} {a : IndexAction}

theorem not_lists_added (hadd : ¬ a.Adds d) :
    ∀ r ∈ IndexAction.added a, d ∉ r.arrayRowIndex.rowToDoc := by
  cases a with
  | mergeIntoMemtable docs =>
    intro r hr
    obtain rfl := mem_singleton.mp hr
    exact MemIndex.not_mem_rowToDoc_foldl (fun doc hdoc heq => hadd ⟨doc, hdoc, heq⟩)
      not_mem_nil
  | _ => simp [IndexAction.added]

theorem not_listsRows_step (h : Inv w) (hadd : ¬ a.Adds d) (hnone : ¬ w.index.ListsRows d) :
    ¬ (w.step a).index.ListsRows d := by
  obtain ⟨D, -, hregroup⟩ := step_regroup h a
  have hall : ∀ r ∈ IndexAction.added a ++ w.index.readers, ¬ d ∈ r.arrayRowIndex.rowToDoc := by
    intro r hr
    rcases mem_append.mp hr with hr | hr
    · exact not_lists_added hadd r hr
    · exact fun hd => hnone ⟨r, hr, hd⟩
  rintro ⟨r, hr, hd⟩
  exact hregroup.none_of_none not_lists_of_gathers hall r hr hd

theorem listsRows_step (h : Inv w) (hlists : w.index.ListsRows d) :
    (w.step a).index.ListsRows d := by
  obtain ⟨D, -, hregroup⟩ := step_regroup h a
  obtain ⟨r, hr, hd⟩ := hlists
  exact hregroup.exists_of_exists lists_of_gathers
    ⟨r, mem_append.mpr (.inr hr), hd⟩

theorem rowsHidden_of_clears (h : Inv w) (hadd : ¬ a.Adds d) (hc : Clears w a) :
    (w.step a).index.RowsHidden d ↔ ¬ w.index.ListsRows d := by
  obtain ⟨hdeleted, -⟩ := clears_spec h hc
  rw [rowsHidden_iff, hdeleted]
  constructor
  · rintro (hd | hnone)
    · exact absurd hd (Finset.notMem_empty d)
    · exact fun hlists => hnone (listsRows_step h hlists)
  · exact fun hnone => .inr (not_listsRows_step h hadd hnone)

theorem rowsHidden_run_iff (hw : Fresh w) (pre post : List IndexAction) (d : DocId)
    (appendOk : Bool) (hadd : ∀ a ∈ post, ¬ a.Adds d) :
    (∀ as bs, post = as ++ bs →
      (w.run (pre ++ .deleteDocument d appendOk :: as)).index.RowsHidden d) ↔
    ∀ as a bs, post = as ++ a :: bs →
      Clears (w.run (pre ++ .deleteDocument d appendOk :: as)) a →
        ¬ (w.run (pre ++ .deleteDocument d appendOk :: as)).index.ListsRows d := by
  refine hides_run_iff (fun w => w.index.RowsHidden d) (fun w => ¬ w.index.ListsRows d)
    (fun w => w.index.ListsRows d) (fun w => rowsHidden_iff) hw pre post appendOk ?_ ?_
  · exact fun w a ha h hnone => not_listsRows_step h (hadd a ha) hnone
  · exact fun w a ha h hc _ => rowsHidden_of_clears h (hadd a ha) hc

/-- Once `d` is deleted and unless it is added again, the rows found by word or
by number never resolve to it in a later snapshot, if no install clears the
tombstones while a row table lists it. -/
theorem deleted_rows_hidden (hw : Fresh w) (pre post : List IndexAction) (d : DocId)
    (appendOk : Bool) (hadd : ∀ a ∈ post, ¬ a.Adds d)
    (hclear : ∀ as a bs, post = as ++ a :: bs →
      Clears (w.run (pre ++ .deleteDocument d appendOk :: as)) a →
        ¬ (w.run (pre ++ .deleteDocument d appendOk :: as)).index.ListsRows d)
    (as bs : List IndexAction) (hpost : post = as ++ bs) (s : IndexSnapshot)
    (hs : (w.run (pre ++ .deleteDocument d appendOk :: as)).index.IsSnapshot s) (x : XPathId) :
    (∀ term, d ∉ s.resolveArrayRows (s.lookup term x).ids.toFinset) ∧
      ∀ lo hi, d ∉ s.resolveArrayRows (s.numericRange x lo hi).ids.toFinset := by
  have hidden := (rowsHidden_run_iff hw pre post d appendOk hadd).mpr hclear as bs hpost
  exact ⟨fun term => hidden s hs _, fun lo hi => hidden s hs _⟩

def flushedDocument (doc : AnalyzedDocument) (seq : ℕ) : List IndexAction :=
  [.mergeIntoMemtable [doc], .queueFlush (fun _ => false) true, .takeFlushJobs,
    .completeFlush seq true true]

def arrayInSegment : List IndexAction := flushedDocument arrayDocument 0 ++ flushed 2 1

/-- The document with array elements is deleted and all segments are merged: its
rows are found by their word and resolve to it. -/
theorem compacted_rows_return :
    let w := (start [] ∅).run arrayInSegment
    let after := (w.run (.deleteDocument arrayDocument.docId true :: compactAll)).index.snapshot
    (w.index.deleteDocument arrayDocument.docId true).1 = .ok () ∧
      arrayDocument.RowKeyed 0 ∧
      (∀ a ∈ compactAll, ¬ a.Adds arrayDocument.docId) ∧
      arrayDocument.docId ∈ after.resolveArrayRows (after.lookup "red" 0).ids.toFinset := by
  refine ⟨by decide, ⟨_, mem_cons_self, .inl ⟨_, mem_cons_self, rfl⟩⟩, ?_, by decide⟩
  simp [compactAll, Adds, documents]

/-- While the tombstone stays, another flush leaves the rows hidden. -/
theorem flushed_rows_hidden :
    let w := (start [] ∅).run (arrayInSegment ++ .deleteDocument arrayDocument.docId true ::
      flushed 3 2)
    arrayDocument.docId ∉
      w.index.snapshot.resolveArrayRows (w.index.snapshot.lookup "red" 0).ids.toFinset := by
  refine (deleted_rows_hidden (Fresh.opened [] ∅ nodup_nil) arrayInSegment (flushed 3 2)
    arrayDocument.docId true ?_ ?_ (flushed 3 2) [] (by simp) _ (.inl rfl) 0).1 "red"
  · have hid : (3 : DocId) ≠ arrayDocument.docId := by decide
    simp [flushed, oneWord, Adds, documents, hid]
  · intro as a bs hpost hc
    have hmem : a ∈ flushed 3 2 := by simp [hpost]
    -- none of the actions of a flush is an install
    simp only [flushed, mem_cons, not_mem_nil, or_false] at hmem
    rcases hmem with rfl | rfl | rfl | rfl <;> exact absurd hc id

end World

/-
The sweep at the end of a start.

The sweep takes every id under which a disk segment keeps a document length and
tombstones those that are neither live nor tombstoned.  It is meant for
documents the store does not have.  Fields filed under array rows keep their
lengths under row ids in the same table, and row ids and document ids are
tombstoned in the same set.  Without texts in array elements, the ids are those of
documents; that these are no rows' numbers is up to the shard.
-/
import Riets.Shard
import Riets.Deletion

namespace IndexSnapshot

structure SameResults (s s' : IndexSnapshot) (d : DocId) : Prop where
  lookup : ∀ term x, (s'.lookup term x).find d = (s.lookup term x).find d
  numericRange : ∀ x lo hi, (s'.numericRange x lo hi).find d = (s.numericRange x lo hi).find d
  boolTrueIds : ∀ x, d ∈ s'.boolTrueIds x ↔ d ∈ s.boolTrueIds x
  boolFalseIds : ∀ x, d ∈ s'.boolFalseIds x ↔ d ∈ s.boolFalseIds x
  resolveArrayRows : ∀ rows, d ∈ s'.resolveArrayRows rows ↔ d ∈ s.resolveArrayRows rows

theorem SameResults.refl (s : IndexSnapshot) (d : DocId) : SameResults s s d :=
  ⟨fun _ _ => rfl, fun _ _ _ => rfl, fun _ => Iff.rfl, fun _ => Iff.rfl, fun _ => Iff.rfl⟩

theorem SameResults.trans {s s' s'' : IndexSnapshot} {d : DocId} (h : SameResults s s' d)
    (h' : SameResults s' s'' d) : SameResults s s'' d where
  lookup term x := (h'.lookup term x).trans (h.lookup term x)
  numericRange x lo hi := (h'.numericRange x lo hi).trans (h.numericRange x lo hi)
  boolTrueIds x := (h'.boolTrueIds x).trans (h.boolTrueIds x)
  boolFalseIds x := (h'.boolFalseIds x).trans (h.boolFalseIds x)
  resolveArrayRows rows := (h'.resolveArrayRows rows).trans (h.resolveArrayRows rows)

end IndexSnapshot

namespace Shard

open List AnalyzedArrayRow SortedMap

def snapshot (s : Shard) : IndexSnapshot := s.world.index.snapshot

def Allocated (s : Shard) (docId : DocId) : Prop := ∃ doc ∈ s.db.issuedDocs, doc.docId = docId

def RowNumber (s : Shard) (row : ArrayRowId) : Prop :=
  ∃ doc ∈ s.db.issuedDocs, row ∈ doc.arrayRows.map arrayRowId

def OnDisk (s : Shard) (n : ℕ) : Prop := ∃ segment ∈ s.diskSegments, ∃ x, segment.docLen n x ≠ none

/-- No document had a text in an array element, and no row that was given, nor one of the next
`rows`, has the number of a document. -/
structure RowsApart (s : Shard) (rows : ℕ) : Prop where
  texts : ∀ doc ∈ s.db.issuedDocs, ∀ row ∈ doc.arrayRows, row.target.fields = []
  given : ∀ n, s.RowNumber n → ¬ s.Allocated n
  next : ∀ n, s.db.arrayRowAllocator.next ≤ n → n < s.db.arrayRowAllocator.next + rows → ¬ s.Allocated n

variable {s : Shard}

theorem RowsApart.onDisk {rows : ℕ} (h : s.RowsApart rows) (hok : s.Ok) {n : ℕ} (hn : s.OnDisk n) :
    s.Allocated n := by
  obtain ⟨segment, hsegment, x, hlen⟩ := hn
  obtain ⟨p, -, hp⟩ := mem_filterMap.mp hsegment
  obtain ⟨doc, hdoc, hids⟩ := hok.lengths.files p segment hp n x hlen
  rcases mem_cons.mp hids with rfl | hrow
  · exact ⟨doc, hdoc, rfl⟩
  · obtain ⟨row, hrow, -⟩ := mem_map.mp hrow
    obtain ⟨hrow, htext⟩ := mem_filter.mp hrow
    rw [h.texts doc hdoc row hrow] at htext
    cases htext

structure Numbered (s : Shard) : Prop where
  next : 1 ≤ s.db.nextLocalId
  issued : ∀ doc ∈ s.db.issuedDocs, ∃ localId, 1 ≤ localId ∧ localId < s.db.nextLocalId ∧
    makeDocId s.db.shardId localId = some doc.docId
  stored : s.db.Stored

theorem Numbered.commit (h : s.Numbered) {db : Database} (hissues : s.db.Issues db) : (s.commit db).Numbered where
  next := h.next.trans hissues.nextLocalId_le
  issued doc hdoc := by
    obtain ⟨new, hnew, hbetween⟩ := hissues.issued
    change doc ∈ db.issued.flatMap Effect.documents at hdoc
    rw [hnew, flatMap_append, mem_append] at hdoc
    rcases hdoc with hdoc | hdoc
    · obtain ⟨localId, hone, hlt, hid⟩ := h.issued doc hdoc
      exact ⟨localId, hone, hlt.trans_le hissues.nextLocalId_le, hissues.shard ▸ hid⟩
    · obtain ⟨e, he, hdoc⟩ := mem_flatMap.mp hdoc
      obtain ⟨localId, hle, hlt, hid⟩ := (hbetween e he doc hdoc).docId
      exact ⟨localId, h.next.trans hle, hlt, hissues.shard ▸ hid⟩
  stored := hissues.stored h.stored

theorem le_highestStored {db : Database} {stored : StoredDocument}
    (h : stored ∈ db.issued.flatMap Effect.stored) : stored.internalId ≤ db.highestStored :=
  (Keyed.le_foldl_max _ 0).2 _ (mem_map_of_mem h)

theorem Numbered.restart (h : s.Numbered) : s.restart.Numbered := by
  unfold Shard.restart
  cases s.openManifest with
  | none => exact h
  | some manifest =>
    simp only
    split
    case h_1 => exact h
    case h_2 n hnext =>
      refine ⟨?_, fun doc hdoc => ?_, h.stored⟩
      · rw [nextLocalIdForShard] at hnext
        split_ifs at hnext <;> cases hnext
        · exact le_rfl
        · exact Nat.le_add_left 1 _
      · obtain ⟨localId, hone, -, hid⟩ := h.issued doc hdoc
        obtain ⟨stored, hstored, heq⟩ := h.stored doc hdoc
        refine ⟨localId, hone, Database.lt_nextLocalId hnext hid hone (le_max_of_le_left ?_), hid⟩
        exact heq ▸ le_highestStored hstored

theorem Numbered.of_db (h : s.Numbered) {s' : Shard} (hdb : s'.db = s.db) : s'.Numbered :=
  ⟨hdb ▸ h.next, hdb ▸ h.issued, hdb ▸ h.stored⟩

theorem Numbered.step (h : s.Numbered) (st : ShardStep) : (s.step st).Numbered := by
  cases st with
  | write w batchSize idle =>
    rw [Shard.step]
    split
    · exact h.commit (Database.issues_write ‹_›)
    · exact h
  | replay record batchSize idle =>
    rw [Shard.step]
    split
    · exact h.commit (Database.issues_replayRecord ‹_›)
    · exact h
  | restart => exact h.restart
  | handle count appendOk =>
    refine h.of_db ?_
    rw [Shard.step, Shard.handle]
    split <;> rfl
  | lose =>
    refine h.of_db ?_
    rw [Shard.step, Shard.lose]
    split <;> rfl
  | sweep count =>
    rw [Shard.step, Shard.sweep]
    generalize s.staleIds.take count = ids
    induction ids generalizing s with
    | nil => exact h
    | cons docId ids ih => exact ih (h.of_db rfl)
  | _ => exact h.of_db rfl

end Shard

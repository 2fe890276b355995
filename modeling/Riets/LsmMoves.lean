/-
What one operation does to the parts of an index.

The parts are the active table, the generations, the tables of the pending
flushes and the live segments.  Seen from the parts every operation that
moves documents is a regrouping: some parts are gathered into a new one,
which answers as they did together.
-/
import Riets.CompactionWindow
import Riets.Regroup

namespace Reader

open ArrayRowIndex MemIndex List Compaction PostingList

/-- `r` answers as all of `group` without the ids in `deleted`. -/
structure Gathers (deleted : DeleteSet) (r : Reader) (group : List Reader) : Prop where
  posting : ∀ k d, r.posting k d
    = if d ∈ deleted then none else joinAll (group.map fun g => g.posting k d)
  holds : ∀ x d, r.Holds x d ↔ d ∉ deleted ∧ ∃ g ∈ group, g.Holds x d
  lengths : ∀ d x, r.docLen d x ≠ none → ∃ g ∈ group, g.docLen d x ≠ none
  rows : r.arrayRowIndex.rowToDoc = group.flatMap fun g => g.arrayRowIndex.rowToDoc
  rowAt : ArrayRowIndex.empty.Chain (group.map arrayRowIndex) → ∀ row,
    r.arrayRowIndex.rowAt row = group.findSome? fun g => g.arrayRowIndex.rowAt row

theorem gathers_new : Gathers ∅ (.mem new) [] where
  posting k d := by simp [posting, joinAll]
  holds x d := by simpa [Reader.Holds] using not_holds_new x d
  lengths _ _ h := absurd rfl h
  rows := rfl
  rowAt _ row := rowAt_of_isEmpty rfl row

theorem gathers_mergeFrom (m n : MemIndex) :
    Gathers ∅ (.mem (m.mergeFrom n)) [.mem m, .mem n] where
  posting k d := by
    rw [if_neg (Finset.notMem_empty d)]
    exact posting_mergeFrom m n k d
  holds x d := by
    simpa [Holds] using holds_mergeFrom (m := m) (n := n) (x := x) (d := d)
  lengths d x h := by
    simpa [docLen] using docLengths_mergeFrom h
  rows := by
    rw [flatMap_cons, flatMap_singleton]
    show (m.mergeFrom n).arrayRowIndex.rowToDoc = _
    rw [mergeFrom_arrayRowIndex, rowToDoc_mergeFrom]
    rfl
  rowAt h row := by
    have hnext : m.arrayRowIndex.Continues n.arrayRowIndex := continues_of_chain h
    show (m.mergeFrom n).arrayRowIndex.rowAt row = _
    rw [mergeFrom_arrayRowIndex, rowAt_mergeFrom hnext]
    cases hm : m.arrayRowIndex.rowAt row with
    | none => simp [arrayRowIndex, hm]
    | some b => simp [arrayRowIndex, hm]

theorem rowAt_of_chain {α : Type*} (rows : α → ArrayRowIndex) {l : List α}
    (h : empty.Chain (l.map rows)) (row : ℕ) :
    (l.foldl (fun acc a => acc.mergeFrom (rows a)) empty).rowAt row
      = l.findSome? fun a => (rows a).rowAt row := by
  have hfold := rowAt_foldl_mergeFrom h row
  have hempty : empty.rowAt row = none := rowAt_of_isEmpty rfl row
  rw [foldl_map, hempty, Option.none_or, findSome?_map] at hfold
  exact hfold

theorem gathers_freezeShared (generations : List MemIndex) :
    Gathers ∅ (.seg (freezeShared generations)) (generations.map .mem) where
  posting k d := by
    rw [if_neg (Finset.notMem_empty d), map_map]
    exact posting_freezeShared generations k d
  holds x d := by
    simpa [Holds] using holds_freezeShared (x := x) (d := d)
  lengths d x h := by
    simpa [docLen] using docLengths_freezeShared h
  rows := by
    rw [flatMap_map]
    exact rowToDoc_foldl_mergeFrom MemIndex.arrayRowIndex generations _
  rowAt h row := by
    rw [map_map] at h
    rw [findSome?_map]
    exact rowAt_of_chain MemIndex.arrayRowIndex h row

theorem gathers_write (job : FlushJob) :
    Gathers ∅ (.seg job.write) (job.generations.map .mem) where
  posting := (gathers_freezeShared job.generations).posting
  holds := (gathers_freezeShared job.generations).holds
  lengths d x h := (gathers_freezeShared job.generations).lengths d x (Segment.get?_of_openLengths h)
  rows := (gathers_freezeShared job.generations).rows
  rowAt := (gathers_freezeShared job.generations).rowAt

theorem gathers_compacted (deleted : DeleteSet) (opened : List Segment) :
    Gathers deleted (.seg (compacted deleted opened)) (opened.map .seg) where
  posting k d := by
    rw [map_map]
    exact posting_compacted deleted opened k d
  holds x d := by
    simpa [Holds] using holds_compacted deleted opened (x := x) (d := d)
  lengths d x h := by
    simpa [docLen] using docLen_compacted_ne_none deleted opened h
  rows := by
    obtain ⟨file, -, hfile, -, -, -, -, hrows⟩ := compacted_spec deleted opened
    rw [flatMap_map]
    show (compacted deleted opened).arrayRowIndex.rowToDoc = _
    rw [hfile, show file.open.arrayRowIndex = file.arrayRowIndex from rfl, hrows]
    exact rowToDoc_foldl_mergeFrom Segment.arrayRowIndex opened _
  rowAt h row := by
    obtain ⟨file, -, hfile, -, -, -, -, hrows⟩ := compacted_spec deleted opened
    rw [map_map] at h
    rw [findSome?_map]
    show (compacted deleted opened).arrayRowIndex.rowAt row = _
    rw [hfile, show file.open.arrayRowIndex = file.arrayRowIndex from rfl, hrows]
    exact rowAt_of_chain Segment.arrayRowIndex h row

/-- How a part is made of others: nothing makes an empty table, two tables a merged one, tables a
segment in memory or one read back from its file, segments the merge of them without some
tombstones. -/
inductive Makes : DeleteSet → Reader → List Reader → Prop
  | new : Makes ∅ (.mem MemIndex.new) []
  | mergeFrom (m n : MemIndex) : Makes ∅ (.mem (m.mergeFrom n)) [.mem m, .mem n]
  | freezeShared (generations : List MemIndex) :
      Makes ∅ (.seg (MemIndex.freezeShared generations)) (generations.map .mem)
  | write (job : FlushJob) : Makes ∅ (.seg job.write) (job.generations.map .mem)
  | compacted (deleted : DeleteSet) (opened : List Segment) :
      Makes deleted (.seg (Compaction.compacted deleted opened)) (opened.map .seg)

variable {deleted : DeleteSet}

theorem Makes.gathers {r : Reader} {group : List Reader}
    (h : Makes deleted r group) : Gathers deleted r group := by
  cases h with
  | new => exact gathers_new
  | mergeFrom m n => exact gathers_mergeFrom m n
  | freezeShared generations => exact gathers_freezeShared generations
  | write job => exact gathers_write job
  | compacted deleted opened => exact gathers_compacted deleted opened

def MakesIn (groups : List (List Reader)) (deleted : DeleteSet) (r : Reader)
    (group : List Reader) : Prop :=
  Makes deleted r group ∧ (group = [] ∨ group ∈ groups)

theorem MakesIn.mono {groups groups' : List (List Reader)}
    (hle : ∀ g ∈ groups, g ∈ groups') (r : Reader) (group : List Reader)
    (h : MakesIn groups deleted r group) : MakesIn groups' deleted r group :=
  ⟨h.1, h.2.imp id (hle group)⟩

def GathersIn (groups : List (List Reader)) (deleted : DeleteSet) (r : Reader)
    (group : List Reader) : Prop :=
  Gathers deleted r group ∧ (group = [] ∨ group ∈ groups)

theorem MakesIn.gathersIn {groups : List (List Reader)} (r : Reader)
    (group : List Reader) (h : MakesIn groups deleted r group) : GathersIn groups deleted r group :=
  ⟨h.1.gathers, h.2⟩

end Reader

namespace LsmIndex

open List Option MemIndex Reader Regroup

theorem map_removeAt {α β : Type*} (f : α → β) (ps : List ℕ) (l : List α) :
    (removeAt ps l).map f = removeAt ps (l.map f) := by
  induction ps with
  | nil => rfl
  | cons p ps ih =>
    rw [removeAt, foldr_cons, ← removeAt, ← eraseIdx_map, ih]
    rfl

theorem getElem?_removeAt {α : Type*} {ps : List ℕ} {l : List α} {j : ℕ} (h : ∀ p ∈ ps, j < p) :
    (removeAt ps l)[j]? = l[j]? := by
  induction ps with
  | nil => rfl
  | cons p ps ih =>
    rw [removeAt, foldr_cons, ← removeAt, getElem?_eraseIdx_of_lt (h p (by simp))]
    exact ih fun q hq => h q (by simp [hq])

theorem perm_removeAt {α : Type*} {ps : List ℕ} {l : List α} (hps : ps.Pairwise (· < ·))
    (hlt : ∀ p ∈ ps, p < l.length) :
    l.Perm ((ps.filterMap fun p => l[p]?) ++ removeAt ps l) := by
  induction ps with
  | nil => exact Perm.refl l
  | cons p ps ih =>
    obtain ⟨hp, hps⟩ := pairwise_cons.mp hps
    have hget : (removeAt ps l)[p]? = l[p]? := getElem?_removeAt hp
    have hplt : p < l.length := hlt p (by simp)
    have hpl : l[p]? = some l[p] := getElem?_eq_getElem hplt
    obtain ⟨hlen, heq⟩ := List.getElem?_eq_some_iff.mp (hget.trans hpl)
    have hstep : (removeAt ps l).Perm (l[p] :: removeAt (p :: ps) l) :=
      heq ▸ (getElem_cons_eraseIdx_perm hlen).symm
    rw [filterMap_cons, hpl]
    refine (ih hps fun q hq => hlt q (by simp [hq])).trans ?_
    exact (hstep.append_left _).trans perm_middle

/-! ### Inversion of the operations -/

variable {i : LsmIndex}

theorem sealMem_cases (busy : ℕ → Bool) :
    (i.mem.termCount = 0 ∧ i.mem.docIdRange = none ∧ i.sealMem busy = i) ∨
    (¬ (i.mem.termCount = 0 ∧ i.mem.docIdRange = none) ∧
      i.sealMem busy = { i with
        mem := MemIndex.new
        generations := (sealInto busy i.generations.reverse i.mem).reverse }) := by
  unfold sealMem
  split_ifs with h
  · exact .inl ⟨h.1, h.2, rfl⟩
  · exact .inr ⟨h, rfl⟩

section Frame

variable (i) (busy : ℕ → Bool)

theorem sealMem_frame : ∃ mem generations,
    i.sealMem busy = { i with mem := mem, generations := generations } := by
  rcases sealMem_cases (i := i) busy with ⟨-, -, h⟩ | ⟨-, h⟩
  · exact ⟨i.mem, i.generations, h⟩
  · exact ⟨_, _, h⟩

@[simp] theorem sealMem_hasRoot : (i.sealMem busy).hasRoot = i.hasRoot := by
  obtain ⟨mem, generations, h⟩ := sealMem_frame i busy
  rw [h]

@[simp] theorem sealMem_deleted : (i.sealMem busy).deleted = i.deleted := by
  obtain ⟨mem, generations, h⟩ := sealMem_frame i busy
  rw [h]

end Frame

theorem queueFlush_cases (busy : ℕ → Bool) (syncOk : Bool) :
    (i.queueFlush busy syncOk).2 = i ∨
    (i.queueFlush busy syncOk).2 = i.sealMem busy ∨
    (∃ n, (i.sealMem busy).generations ≠ [] ∧
      maxDocIdOf (i.sealMem busy).generations = some n ∧ i.hasRoot = true ∧
      (i.queueFlush busy syncOk).2 = { i.sealMem busy with
        generations := []
        nextDocId := n + 1
        nextSegmentId := (i.sealMem busy).nextSegmentId + 1
        flushQueue := (i.sealMem busy).flushQueue.push (i.sealMem busy).nextSegmentId
          (i.sealMem busy).generations }) ∨
    (∃ n, i.hasRoot = false ∧
      (i.queueFlush busy syncOk).2 = { i.sealMem busy with
        generations := []
        nextDocId := n + 1
        segmentHandles := (i.sealMem busy).segmentHandles ++
          [.memory (freezeShared (i.sealMem busy).generations)]
        querySegments := (i.sealMem busy).querySegments ++
          [freezeShared (i.sealMem busy).generations] }) ∨
    ((i.sealMem busy).generations ≠ [] ∧ maxDocIdOf (i.sealMem busy).generations = none ∧
      (i.queueFlush busy syncOk).2 = { i.sealMem busy with generations := [] }) := by
  have hroot := sealMem_hasRoot i busy
  unfold queueFlush
  cases i.flushQueue.health with
  | error e => exact .inl rfl
  | ok u =>
    right
    rw [← hroot]
    obtain ⟨j, hj⟩ : ∃ j, j = i.sealMem busy := ⟨_, rfl⟩
    rw [← hj]
    simp only
    by_cases hsync : j.hasRoot = true ∧ ¬ syncOk = true
    · exact .inl (by rw [if_pos hsync])
    rw [if_neg hsync]
    by_cases hgen : j.generations = []
    · exact .inl (by rw [if_pos hgen])
    rw [if_neg hgen]
    right
    cases hmax : maxDocIdOf j.generations with
    | none => exact .inr (.inr ⟨hgen, rfl, rfl⟩)
    | some n =>
      cases hr : j.hasRoot with
      | true => exact .inl ⟨n, hgen, rfl, rfl, rfl⟩
      | false => exact .inr (.inl ⟨n, rfl, rfl⟩)

theorem queueFlush_eq_ok {busy : ℕ → Bool} {syncOk : Bool}
    (h : (i.queueFlush busy syncOk).1 = .ok ()) :
    (i.queueFlush busy syncOk).2.mem = (i.sealMem busy).mem ∧
      (i.queueFlush busy syncOk).2.generations = [] := by
  obtain ⟨j, hj⟩ : ∃ j, j = i.sealMem busy := ⟨_, rfl⟩
  unfold queueFlush at h ⊢
  cases hhealth : i.flushQueue.health with
  | error e =>
    rw [hhealth] at h
    cases h
  | ok u =>
    rw [hhealth] at h
    simp only [← hj] at h ⊢
    by_cases hsync : j.hasRoot = true ∧ ¬ syncOk = true
    · rw [if_pos hsync] at h
      cases h
    rw [if_neg hsync] at h ⊢
    by_cases hgen : j.generations = []
    · rw [if_pos hgen]
      exact ⟨rfl, hgen⟩
    rw [if_neg hgen] at h ⊢
    cases hmax : maxDocIdOf j.generations with
    | none =>
      rw [hmax] at h
      cases h
    | some n =>
      simp only
      split_ifs <;> exact ⟨rfl, rfl⟩

theorem installFlushed_eq_ok {pending : PendingFlush} {disk : Segment} {appendOk : Bool}
    {j : LsmIndex} (h : i.installFlushed pending disk appendOk = .ok j) :
    i.hasRoot = true ∧ j = { i with
      segmentHandles := i.segmentHandles.insertIdx (i.flushPosition pending) (.disk pending.path)
      querySegments := i.querySegments.insertIdx (i.flushPosition pending) disk } := by
  unfold installFlushed at h
  split_ifs at h with hroot happend
  exact ⟨by simpa using hroot, (Except.ok.inj h).symm⟩

theorem complete_eq_ok {q queue : FlushQueue} {seq : ℕ} {front : PendingFlush}
    (h : q.complete seq = .ok (front, queue)) :
    ∃ rest, q.pending = front :: rest ∧ front.seq = seq ∧ queue = { q with pending := rest } := by
  unfold FlushQueue.complete at h
  split at h
  · split_ifs at h with hseq
    obtain ⟨rfl, rfl⟩ := Prod.mk.inj (Except.ok.inj h)
    exact ⟨_, ‹_›, hseq, rfl⟩
  · cases h

theorem completeFlush_cases (seq : ℕ) (written : IoResult Segment) (appendOk : Bool) :
    (∃ e, (i.completeFlush seq written appendOk).2
      = { i with flushQueue := i.flushQueue.fail e }) ∨
    ∃ front rest handle segment failure, i.flushQueue.pending = front :: rest ∧ front.seq = seq ∧
      ((i.hasRoot = true ∧ written = .ok segment ∧ handle = .disk front.path ∧
          failure = i.flushQueue.failure) ∨
        (segment = freezeShared front.generations ∧ handle = .memory segment ∧
          failure ≠ none)) ∧
      (i.completeFlush seq written appendOk).2 = { i with
        flushQueue := { i.flushQueue with pending := rest, failure := failure }
        segmentHandles := i.segmentHandles.insertIdx (i.flushPosition front) handle
        querySegments := i.querySegments.insertIdx (i.flushPosition front) segment } := by
  unfold completeFlush
  cases hq : i.flushQueue.complete seq with
  | error e => exact .inl ⟨e, rfl⟩
  | ok done =>
    right
    obtain ⟨rest, hpending, hseq, hqueue⟩ := complete_eq_ok hq
    simp only [hqueue]
    cases hw : written.bind fun disk => installFlushed
        { i with flushQueue := { i.flushQueue with pending := rest } } done.1 disk appendOk with
    | error e =>
      exact ⟨done.1, rest, _, _, _, hpending, hseq, .inr ⟨rfl, rfl, some_ne_none _⟩, rfl⟩
    | ok j =>
      cases written with
      | error e => cases hw
      | ok disk =>
        obtain ⟨hroot, rfl⟩ := installFlushed_eq_ok (show _ = Except.ok j from hw)
        exact ⟨done.1, rest, _, disk, _, hpending, hseq, .inl ⟨hroot, rfl, rfl, rfl⟩, rfl⟩

theorem installCompaction_cases (completed : CompletedCompaction) (output : IoResult Segment)
    (manifestOk clearOk : Bool) :
    ((i.hasRoot = false ∨ i.isStale completed = true ∨ output.isOk = false) ∧
      (i.installCompaction completed output manifestOk clearOk).2 = i) ∨
    ∃ disk, i.hasRoot = true ∧ i.isStale completed = false ∧ output = .ok disk ∧
      ((i.installCompaction completed output manifestOk clearOk).2
          = i.replaceSelected completed disk ∨
        (manifestOk = true ∧ i.mergedAll completed = true ∧
          completed.deleteGeneration = i.deleteGeneration ∧
          (i.installCompaction completed output manifestOk clearOk).2
            = { i.replaceSelected completed disk with deleted := ∅ })) := by
  unfold installCompaction
  by_cases hroot : i.hasRoot = true
  · rw [if_neg (by simpa using hroot)]
    by_cases hstale : i.isStale completed = true
    · rw [if_pos hstale]
      exact .inl ⟨.inr (.inl hstale), rfl⟩
    · rw [if_neg hstale]
      cases output with
      | error e => exact .inl ⟨.inr (.inr rfl), rfl⟩
      | ok disk =>
        refine .inr ⟨disk, hroot, by simpa using hstale, rfl, ?_⟩
        simp only
        cases manifestOk with
        | false => exact .inl rfl
        | true =>
          by_cases hclear : i.mergedAll completed = true ∧
              completed.deleteGeneration = i.deleteGeneration
          · rw [if_neg (by simp), if_pos hclear]
            exact .inr ⟨rfl, hclear.1, hclear.2, rfl⟩
          · rw [if_neg (by simp), if_neg hclear]
            exact .inl rfl
  · rw [if_pos (by simpa using hroot)]
    exact .inl ⟨.inl (by simpa using hroot), rfl⟩

theorem planCompaction_cases (config : CompactionConfig) (quiet : Bool) (fileSize : ℕ → ℕ) :
    i.planCompaction config quiet fileSize = (none, i) ∨
    ∃ start stop, IsWindow (i.segmentSizes fileSize) (start, stop) ∧ i.hasRoot = true ∧
      i.planCompaction config quiet fileSize
        = (some
            { jobId := i.nextCompactionJobId
              selected := (i.segmentHandles.take stop).drop start
              deleted := i.deleted
              deleteGeneration := i.deleteGeneration
              outputPath := i.nextSegmentId },
          { i with
            nextSegmentId := i.nextSegmentId + 1
            nextCompactionJobId := i.nextCompactionJobId + 1 }) := by
  unfold planCompaction
  by_cases hroot : i.hasRoot = true
  · rw [if_neg (by simpa using hroot)]
    cases hw : i.chooseWindow config quiet (i.segmentSizes fileSize) with
    | none => exact .inl rfl
    | some window => exact .inr ⟨window.1, window.2, chooseWindow_isWindow hw, hroot, rfl⟩
  · rw [if_pos (by simpa using hroot)]
    exact .inl rfl

/-! ### Regrouping the parts -/

def readers (i : LsmIndex) : List Reader := .mem i.mem :: i.parts

@[simp] theorem snapshot_readers (i : LsmIndex) : i.snapshot.readers = i.readers := rfl

def sealGroups (busy : ℕ → Bool) : List MemIndex → MemIndex → List (List Reader)
  | [], _ => []
  | newest :: older, table =>
    if newest.estimatedBytes > table.estimatedBytes ∨ busy older.length then []
    else [.mem newest, .mem table] :: sealGroups busy older (newest.mergeFrom table)

def sealMemGroups (i : LsmIndex) (busy : ℕ → Bool) : List (List Reader) :=
  if i.mem.termCount = 0 ∧ i.mem.docIdRange = none then []
  else sealGroups busy i.generations.reverse i.mem

theorem sealInto_regroup (busy : ℕ → Bool) (generations : List MemIndex) (table : MemIndex) :
    Regroup (MakesIn (sealGroups busy generations table) ∅)
      (.mem table :: generations.map .mem) ((sealInto busy generations table).map .mem) := by
  induction generations generalizing table with
  | nil => exact refl _
  | cons newest older ih =>
    rw [sealInto, sealGroups]
    split_ifs
    · exact refl _
    · refine Regroup.trans (perm (Perm.swap (Reader.mem newest) (Reader.mem table) _)) ?_
      have hpair : MakesIn ([.mem newest, .mem table] ::
          sealGroups busy older (newest.mergeFrom table)) ∅ (.mem (newest.mergeFrom table))
          [.mem newest, .mem table] :=
        ⟨.mergeFrom newest table, .inr mem_cons_self⟩
      have hgather := Regroup.gather (older.map Reader.mem) hpair
      refine trans hgather ?_
      exact (ih (newest.mergeFrom table)).mono
        (MakesIn.mono fun g hg => mem_cons_of_mem _ hg)

theorem sealMem_regroupIn (busy : ℕ → Bool) :
    Regroup (MakesIn (i.sealMemGroups busy) ∅) i.readers (i.sealMem busy).readers := by
  rcases sealMem_cases (i := i) busy with ⟨-, -, h⟩ | ⟨hne, h⟩
  · rw [h]
    exact refl _
  · have hsealed := sealInto_regroup busy i.generations.reverse i.mem
    have hgens : ((Reader.mem i.mem :: i.generations.map .mem)).Perm
        (.mem i.mem :: i.generations.reverse.map .mem) :=
      (i.generations.reverse_perm.symm.map _).cons _
    have hback : ((sealInto busy i.generations.reverse i.mem).map Reader.mem).Perm
        ((sealInto busy i.generations.reverse i.mem).reverse.map .mem) :=
      (reverse_perm _).symm.map _
    have hmoved := trans (trans (perm hgens) hsealed) (perm hback)
    rw [h, sealMemGroups, if_neg hne]
    refine Regroup.trans ?_ (Regroup.gather _ ⟨.new, .inl rfl⟩)
    simp only [readers, parts, nil_append, append_assoc]
    exact hmoved.append_right _

theorem sealMem_regroup (busy : ℕ → Bool) :
    Regroup (Gathers ∅) i.readers (i.sealMem busy).readers :=
  (sealMem_regroupIn busy).mono fun _ _ h => h.1.gathers

/-- The groups of tables that a flush merges: those of sealing and, without a
directory, all generations. -/
def queueFlushGroups (i : LsmIndex) (busy : ℕ → Bool) : List (List Reader) :=
  match i.flushQueue.health with
  | .error _ => []
  | .ok () =>
    i.sealMemGroups busy ++ if i.hasRoot then [] else [(i.sealMem busy).generations.map .mem]

theorem maxDocIdOf_eq_none {generations : List MemIndex} (h : maxDocIdOf generations = none)
    (hr : ∀ g ∈ generations, g.docIdRange ≠ none) : generations = [] := by
  rw [maxDocIdOf, max?_eq_none_iff, filterMap_eq_nil_iff] at h
  cases generations with
  | nil => rfl
  | cons g gs => exact absurd (by simpa using h g (by simp)) (hr g (by simp))

theorem queueFlush_regroupIn {busy : ℕ → Bool} (syncOk : Bool)
    (hr : ∀ g ∈ (i.sealMem busy).generations, g.docIdRange ≠ none) :
    Regroup (MakesIn (i.queueFlushGroups busy) ∅) i.readers
      (i.queueFlush busy syncOk).2.readers := by
  cases hhealth : i.flushQueue.health with
  | error e =>
    have hsame : (i.queueFlush busy syncOk).2 = i := by simp [queueFlush, hhealth]
    rw [hsame]
    exact refl _
  | ok u =>
    have hgroups : i.queueFlushGroups busy = i.sealMemGroups busy ++
        if i.hasRoot then [] else [(i.sealMem busy).generations.map .mem] := by
      simp [queueFlushGroups, hhealth]
    have hle : ∀ g ∈ i.sealMemGroups busy, g ∈ i.queueFlushGroups busy := by
      intro g hg
      rw [hgroups]
      exact mem_append_left _ hg
    have hseal := (sealMem_regroupIn (i := i) busy).mono (MakesIn.mono hle)
    rcases queueFlush_cases (i := i) busy syncOk with
      h | h | ⟨n, -, -, -, h⟩ | ⟨n, hroot, h⟩ | ⟨hne, hmax, -⟩
    · rw [h]
      exact refl _
    · exact h ▸ hseal
    · -- the generations go to the end of the queue
      refine hseal.trans (perm ?_)
      rw [h]
      simp only [readers, parts, FlushQueue.push, map_nil, nil_append,
        flatMap_append, flatMap_singleton]
      exact (perm_append_comm.append_right _).cons _
    · -- the generations become a segment
      refine hseal.trans ?_
      have hmem : (i.sealMem busy).generations.map Reader.mem ∈ i.queueFlushGroups busy := by
        rw [hgroups, hroot]
        simp
      obtain ⟨j, hj⟩ : ∃ j, j = i.sealMem busy := ⟨_, rfl⟩
      rw [h, ← hj]
      rw [← hj] at hmem
      have hgather : Regroup (MakesIn (i.queueFlushGroups busy) ∅) _ _ := gather
        (.mem j.mem :: (j.flushQueue.pending.flatMap fun p => p.generations.map Reader.mem) ++
          j.querySegments.map .seg)
        ⟨.freezeShared j.generations, .inr hmem⟩
      refine trans (perm ?_) (hgather.trans (perm ?_))
      · simp only [readers, parts, append_assoc, cons_append]
        exact perm_middle.symm
      · simp only [readers, parts, map_append, map_nil, nil_append,
          map_singleton, cons_append]
        refine (Perm.swap _ _ _).trans (Perm.cons _ ?_)
        rw [← append_assoc]
        exact (perm_append_singleton _ _).symm
    · exact absurd (maxDocIdOf_eq_none hmax hr) hne

theorem queueFlush_regroup {busy : ℕ → Bool} (syncOk : Bool)
    (hr : ∀ g ∈ (i.sealMem busy).generations, g.docIdRange ≠ none) :
    Regroup (Gathers ∅) i.readers (i.queueFlush busy syncOk).2.readers :=
  (queueFlush_regroupIn syncOk hr).mono fun _ _ h => h.1.gathers

theorem flushed_regroup {G : Reader → List Reader → Prop} {front : PendingFlush}
    {rest : List PendingFlush} {handles : List SegmentHandle} {segment : Segment} {place : ℕ} {failure : Option String}
    (hpending : i.flushQueue.pending = front :: rest) (hplace : place ≤ i.querySegments.length)
    (hgather : G (.seg segment) (front.generations.map .mem)) :
    Regroup G i.readers
      ({ i with
        flushQueue := { i.flushQueue with pending := rest, failure := failure }
        segmentHandles := handles
        querySegments := i.querySegments.insertIdx place segment } : LsmIndex).readers := by
  have hins := perm_insertIdx segment i.querySegments hplace
  have hmove := gather
    (.mem i.mem :: i.generations.map Reader.mem ++
      (rest.flatMap fun p => p.generations.map Reader.mem) ++ i.querySegments.map .seg) hgather
  refine trans (perm ?_) (hmove.trans (perm ?_))
  · simp only [readers, parts, hpending, flatMap_cons, append_assoc, cons_append]
    refine Perm.trans ?_ perm_middle.symm
    exact (perm_append_comm_assoc _ _ _).cons _
  · simp only [readers, parts, cons_append]
    refine (Perm.swap _ _ _).trans (Perm.cons _ ?_)
    refine perm_middle.symm.trans ?_
    exact (Perm.append_left _ (hins.map seg).symm)

/-! ### Installing a compaction -/

theorem le_length_removeAt {α : Type*} {ps : List ℕ} {l : List α} {j : ℕ} (h : ∀ p ∈ ps, j ≤ p)
    (hj : j ≤ l.length) : j ≤ (removeAt ps l).length := by
  rcases j with _ | j
  · exact Nat.zero_le _
  · have hget : (removeAt ps l)[j]? = l[j]? := getElem?_removeAt h
    rw [getElem?_eq_getElem hj] at hget
    exact (List.getElem?_eq_some_iff.mp hget).1

theorem pairwise_sortDedup (l : List ℕ) : (sortDedup l).Pairwise (· < ·) :=
  Keyed.ascending_collapse (fun _ _ => rfl) (Keyed.sorted_sortBy l)

theorem perm_replace {α : Type*} {ps : List ℕ} {l : List α} (hps : ps.Nodup)
    (hlt : ∀ p ∈ ps, p < l.length) (a : α) :
    l.Perm ((ps.filterMap fun p => l[p]?) ++ removeAt (sortDedup ps) l) ∧
      ((removeAt (sortDedup ps) l).insertIdx ((sortDedup ps).head?.getD 0) a).Perm
        (a :: removeAt (sortDedup ps) l) := by
  have hasc := pairwise_sortDedup ps
  have hperm : (sortDedup ps).Perm ps :=
    (perm_ext_iff_of_nodup (hasc.imp Nat.ne_of_lt) hps).mpr fun _ => mem_sortDedup
  refine ⟨?_, perm_insertIdx _ _ ?_⟩
  · refine (perm_removeAt hasc fun p hp => hlt p (mem_sortDedup.mp hp)).trans ?_
    exact (hperm.filterMap _).append_right _
  · cases hd : sortDedup ps with
    | nil => exact Nat.zero_le _
    | cons p rest =>
      rw [hd] at hasc
      refine le_length_removeAt (fun q hq => ?_) (hlt p (mem_sortDedup.mp (by simp [hd]))).le
      rcases mem_cons.mp hq with rfl | hq
      · exact le_rfl
      · exact ((pairwise_cons.mp hasc).1 q hq).le

theorem positions_lt {completed : CompletedCompaction} : ∀ p ∈ i.positions completed, p < i.segmentHandles.length := by
  intro p hp
  obtain ⟨h, -, hidx⟩ := mem_filterMap.mp hp
  exact (idxOf?_eq_some_iff.mp hidx).1

theorem nodup_positions {completed : CompletedCompaction} (hnodup : completed.selected.Nodup) : (i.positions completed).Nodup := by
  refine hnodup.filterMap fun a b p ha hb => ?_
  obtain ⟨h, hga, -⟩ := idxOf?_eq_some_iff.mp ha
  obtain ⟨h', hgb, -⟩ := idxOf?_eq_some_iff.mp hb
  exact hga.symm.trans hgb

section Replace

variable {completed : CompletedCompaction} (hfresh : i.isStale completed = false)
include hfresh

theorem mem_of_not_stale : ∀ h ∈ completed.selected, h ∈ i.segmentHandles := by
  have hlen : (i.positions completed).length = completed.selected.length := by
    simpa [isStale] using hfresh
  intro h hh
  exact isSome_idxOf?.mp (filterMap_length_eq_length.mp hlen h hh)

theorem map_selected {β : Type*} {f : SegmentHandle → Option β} {l : List β}
    (hsync : i.segmentHandles.map f = l.map some) :
    completed.selected.map f = ((i.positions completed).filterMap fun p => l[p]?).map some := by
  have hall : ∀ sel : List SegmentHandle, (∀ h ∈ sel, h ∈ i.segmentHandles) →
      sel.map f = ((sel.filterMap fun h => i.segmentHandles.idxOf? h).filterMap
        fun p => l[p]?).map some := by
    intro sel
    induction sel with
    | nil => exact fun _ => rfl
    | cons h sel ih =>
      intro hsel
      obtain ⟨p, hp⟩ := isSome_iff_exists.mp (isSome_idxOf?.mpr (hsel h (by simp)))
      obtain ⟨hlt, hget, -⟩ := idxOf?_eq_some_iff.mp hp
      have hmap : (i.segmentHandles.map f)[p]? = some (f h) := by
        rw [getElem?_map, getElem?_eq_getElem hlt, hget]
        rfl
      rw [hsync, getElem?_map] at hmap
      obtain ⟨b, hb, hfb⟩ := map_eq_some_iff.mp hmap
      rw [map_cons, filterMap_cons, hp, ih fun h' hh' => hsel h' (by simp [hh'])]
      simp only [filterMap_cons, hb, map_cons, ← hfb]
  exact hall _ (mem_of_not_stale hfresh)

theorem perm_replaceSelected {β : Type*} {f : SegmentHandle → Option β} {l opened : List β}
    (hnodup : completed.selected.Nodup) (hsync : i.segmentHandles.map f = l.map some)
    (hopened : completed.selected.map f = opened.map some) (b : β) :
    l.Perm (opened ++ removeAt (sortDedup (i.positions completed)) l) ∧
      ((removeAt (sortDedup (i.positions completed)) l).insertIdx
        ((sortDedup (i.positions completed)).head?.getD 0) b).Perm
        (b :: removeAt (sortDedup (i.positions completed)) l) := by
  have hlen : i.segmentHandles.length = l.length := by
    simpa using congrArg length hsync
  have heq : (i.positions completed).filterMap (fun p => l[p]?) = opened :=
    map_injective_iff.mpr (some_injective β)
      ((map_selected hfresh hsync).symm.trans hopened)
  rw [← heq]
  exact perm_replace (nodup_positions hnodup) (fun p hp => hlen ▸ positions_lt p hp) b

variable {files : SegmentHandle → Option Segment}

theorem replaceSelected_regroup {G : Reader → List Reader → Prop}
    {opened : List Segment} {disk : Segment} (hnodup : completed.selected.Nodup)
    (hsync : i.segmentHandles.map files = i.querySegments.map some)
    (hopened : completed.selected.map files = opened.map some)
    (hdisk : G (.seg disk) (opened.map .seg)) :
    Regroup G i.readers (i.replaceSelected completed disk).readers := by
  obtain ⟨hperm, hins⟩ := perm_replaceSelected hfresh hnodup hsync hopened disk
  obtain ⟨rest, hrest⟩ : ∃ rest, rest = removeAt (sortDedup (i.positions completed)) i.querySegments :=
    ⟨_, rfl⟩
  rw [← hrest] at hperm hins
  have hmove := gather
    (.mem i.mem :: i.generations.map Reader.mem ++
      (i.flushQueue.pending.flatMap fun p => p.generations.map Reader.mem) ++ rest.map .seg) hdisk
  refine trans (perm ?_) (hmove.trans (perm ?_))
  · simp only [readers, parts, cons_append]
    refine Perm.trans (Perm.cons _ ?_) perm_middle.symm
    refine ((hperm.map seg).append_left _).trans ?_
    rw [map_append]
    exact perm_append_comm_assoc _ _ _
  · simp only [readers, parts, replaceSelected, cons_append, ← hrest]
    refine (Perm.swap _ _ _).trans (Perm.cons _ ?_)
    refine perm_middle.symm.trans ?_
    exact (Perm.append_left _ (hins.map seg).symm)

theorem replaceSelected_all {opened : List Segment}
    {disk : Segment} (hnodup : completed.selected.Nodup)
    (hsync : i.segmentHandles.map files = i.querySegments.map some)
    (hopened : completed.selected.map files = opened.map some)
    (hall : i.mergedAll completed = true) :
    (i.replaceSelected completed disk).querySegments = [disk] := by
  obtain ⟨hperm, hins⟩ := perm_replaceSelected hfresh hnodup hsync hopened disk
  obtain ⟨rest, hrest⟩ : ∃ rest, rest = removeAt (sortDedup (i.positions completed)) i.querySegments :=
    ⟨_, rfl⟩
  have hlen : rest.length = 0 := by
    have h1 : (i.positions completed).length = i.segmentHandles.length := by
      simpa [mergedAll] using hall
    have h2 : (i.positions completed).length = completed.selected.length := by
      simpa [isStale] using hfresh
    have h3 : i.segmentHandles.length = i.querySegments.length := by
      simpa using congrArg length hsync
    have h4 : completed.selected.length = opened.length := by
      simpa using congrArg length hopened
    have h5 := hperm.length_eq
    rw [← hrest, length_append] at h5
    omega
  rw [← hrest, eq_nil_of_length_eq_zero hlen] at hins
  rw [replaceSelected, ← hrest, eq_nil_of_length_eq_zero hlen]
  exact perm_singleton.mp hins

end Replace

end LsmIndex

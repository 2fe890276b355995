/-
A shard: its database, its index and the index directory.

The database sends commands to the index worker, which handles them in order
and between them flushes, compacts and publishes.  A restart may come at any
time: what the worker has not handled is lost, the index is opened from the
directory, and recovery writes to the database and then sweeps stale entries.

The store is durable from the moment a write changes it; the write-ahead log is
left open: any record may be replayed.
-/
import Riets.Provenance
import Riets.Issued

/-- `manifest.txt` and `deletes.txt`. -/
structure Directory where
  manifest : List ℕ
  tombstones : DeleteSet

def Directory.step (dir : Directory) (w : World) : IndexAction → Directory
  | .deleteDocument docId appendOk =>
    if appendOk then { dir with tombstones := insert docId dir.tombstones } else dir
  | .completeFlush seq writeOk appendOk =>
    match w.writing.find? fun job => job.seq = seq with
    | none => dir
    | some job =>
      let written : IoResult Segment := if writeOk then .ok job.write else .error "write segment"
      if (w.index.completeFlush seq written appendOk).1.isOk then
        { dir with manifest := dir.manifest ++ [job.path] }
      else dir
  | .installCompaction jobId openOk manifestOk clearOk =>
    match w.finished.find? fun job => job.jobId = jobId with
    | none => dir
    | some job =>
      if w.index.hasRoot ∧ w.index.isStale job.completed = false ∧ (w.output job openOk).isOk ∧
          manifestOk then
        { manifest := (w.installCompaction jobId openOk manifestOk clearOk).live
          tombstones :=
            if w.index.mergedAll job.completed ∧ job.deleteGeneration = w.index.deleteGeneration ∧
                clearOk then ∅
            else dir.tombstones }
      else dir
  | _ => dir

/-! ### The shard -/

structure Shard where
  db : Database
  world : World
  directory : Directory
  queue : List Effect

inductive ShardStep where
  | write (w : Write) (batchSize : ℕ) (idle : ℕ → Bool)
  | replay (record : WalRecord) (batchSize : ℕ) (idle : ℕ → Bool)
  /-- The worker handles the next command, or the first `count` documents of it. -/
  | handle (count : ℕ) (appendOk : Bool)
  | lose
  | publishSnapshot (busy : ℕ → Bool)
  | queueFlush (busy : ℕ → Bool) (syncOk : Bool)
  | takeFlushJobs
  | completeFlush (seq : ℕ) (writeOk appendOk : Bool)
  | planCompaction (config : CompactionConfig) (quiet : Bool) (fileSize : ℕ → ℕ)
  | runCompaction (jobId : ℕ) (ok : Bool)
  | installCompaction (jobId : ℕ) (openOk manifestOk clearOk : Bool)
  /-- The sweep, up to its end or to a tombstone that could not be written. -/
  | sweep (count : ℕ)
  | restart

namespace Shard

def empty (shardId : ℕ) : Shard where
  db := ⟨.empty, shardId, 1, .startingAt 1, []⟩
  world := World.start [] ∅
  directory := ⟨[], ∅⟩
  queue := []

def act (s : Shard) (a : IndexAction) : Shard :=
  { s with world := s.world.step a, directory := s.directory.step s.world a }

def commit (s : Shard) (db : Database) : Shard :=
  { s with
    db := db
    queue := s.queue ++ (db.issued.drop s.db.issued.length).filter Effect.isCommand }

def handle (s : Shard) (count : ℕ) (appendOk : Bool) : Shard :=
  match s.queue with
  | [] => s
  | .deleteIndexed docId :: rest => { s.act (.deleteDocument docId appendOk) with queue := rest }
  | .addIndexed docs :: rest =>
    { s.act (.mergeIntoMemtable (docs.take count)) with
      queue := if (docs.drop count).isEmpty then rest else .addIndexed (docs.drop count) :: rest }
  | _ :: rest => { s with queue := rest }

def lose (s : Shard) : Shard :=
  match s.queue with
  | .addIndexed _ :: rest => { s with queue := rest }
  | _ => s

def diskSegments (s : Shard) : List Segment := s.world.live.filterMap s.world.files.get?

/-- Ids with a length in a disk segment that are neither live nor tombstoned. -/
def staleIds (s : Shard) : List DocId :=
  sortDedup
    ((s.diskSegments.flatMap fun segment => segment.docLengths.entries.map fun e => (ofLex e.1).1).filter
      fun docId => docId ∉ s.db.liveIds ∧ docId ∉ s.world.index.deleted)

/-- Tombstones the first `count` stale ids. -/
def sweep (s : Shard) (count : ℕ) : Shard :=
  (s.staleIds.take count).foldl (fun s docId => s.act (.deleteDocument docId true)) s

/-- The segments of the manifest; `none` if a file is missing. -/
def openManifest (s : Shard) : Option (List (ℕ × Segment)) :=
  s.directory.manifest.mapM fun n => (s.world.files.get? n).map (Prod.mk n)

def restart (s : Shard) : Shard :=
  match s.openManifest with
  | none => s
  | some manifest =>
    let world := World.start manifest s.directory.tombstones
    match nextLocalIdForShard (max s.db.highestStored world.index.highestKnownDocId) s.db.shardId with
    | .error _ => s
    | .ok nextLocalId =>
      { s with
        db := { s.db with
          nextLocalId := nextLocalId
          arrayRowAllocator := .startingAt (world.index.maxArrayRow + 1) }
        world := world
        queue := [] }

def step (s : Shard) : ShardStep → Shard
  | .write w batchSize idle =>
    match s.db.write batchSize idle w with
    | .ok (_, _, db) => s.commit db
    | .error _ => s
  | .replay record batchSize idle =>
    match s.db.replayRecord batchSize idle record with
    | .ok db => s.commit db
    | .error _ => s
  | .handle count appendOk => s.handle count appendOk
  | .lose => s.lose
  | .publishSnapshot busy => s.act (.publishSnapshot busy)
  | .queueFlush busy syncOk => s.act (.queueFlush busy syncOk)
  | .takeFlushJobs => s.act .takeFlushJobs
  | .completeFlush seq writeOk appendOk => s.act (.completeFlush seq writeOk appendOk)
  | .planCompaction config quiet fileSize => s.act (.planCompaction config quiet fileSize)
  | .runCompaction jobId ok => s.act (.runCompaction jobId ok)
  | .installCompaction jobId openOk manifestOk clearOk =>
    s.act (.installCompaction jobId openOk manifestOk clearOk)
  | .sweep count => s.sweep count
  | .restart => s.restart

def run (s : Shard) (steps : List ShardStep) : Shard := steps.foldl step s

end Shard

namespace World

open List LsmIndex

variable {w : World}

theorem reserved_step (h : Inv w) (a : IndexAction) :
    w.index.nextSegmentId ≤ (w.step a).index.nextSegmentId ∧
      ∀ p ∈ (w.step a).reserved, p ∈ w.reserved ∨ w.index.nextSegmentId ≤ p := by
  have hsame : ∀ {w' : World}, w'.index.nextSegmentId = w.index.nextSegmentId →
      (∀ p ∈ w'.reserved, p ∈ w.reserved) → w.index.nextSegmentId ≤ w'.index.nextSegmentId ∧
        ∀ p ∈ w'.reserved, p ∈ w.reserved ∨ w.index.nextSegmentId ≤ p :=
    fun hnext hres => ⟨hnext.ge, fun p hp => .inl (hres p hp)⟩
  cases a with
  | mergeIntoMemtable docs => exact hsame rfl fun p hp => hp
  | deleteDocument docId appendOk => exact hsame rfl fun p hp => hp
  | publishSnapshot busy =>
    obtain ⟨mem, generations, hseal⟩ := w.index.sealMem_frame busy
    simp only [step, publishSnapshot, hseal]
    exact hsame rfl fun p hp => hp
  | queueFlush busy syncOk =>
    obtain ⟨mem, generations, hseal⟩ := w.index.sealMem_frame busy
    simp only [step]
    rcases queueFlush_cases (i := w.index) busy syncOk with
      hw | hw | ⟨_, -, -, -, hw⟩ | ⟨_, -, hw⟩ | ⟨-, -, hw⟩
    · rw [hw]
      exact hsame rfl fun p hp => hp
    · rw [hw, hseal]
      exact hsame rfl fun p hp => hp
    · rw [hw, hseal]
      refine ⟨Nat.le_succ _, fun p hp => ?_⟩
      simp only [reserved, jobs, FlushQueue.push, map_append, mem_append, map_cons,
        map_nil, mem_singleton] at hp ⊢
      rcases hp with (hp | rfl) | hp
      · exact .inl (.inl hp)
      · exact .inr le_rfl
      · exact .inl (.inr hp)
    · rw [hw, hseal]
      exact hsame rfl fun p hp => hp
    · rw [hw, hseal]
      exact hsame rfl fun p hp => hp
  | takeFlushJobs => exact hsame rfl fun p hp => hp
  | completeFlush seq writeOk appendOk =>
    simp only [step]
    rcases completeFlush_cases h.queue seq writeOk appendOk with
      hw | ⟨_, -, -, _, -, ⟨_, hw⟩ | ⟨front, rest, _, _, _, hpending, -, -, -, -, hw⟩⟩
    · rw [hw]
      exact hsame rfl fun p hp => hp
    · rw [hw]
      exact hsame rfl fun p hp => hp
    · rw [hw]
      refine hsame rfl fun p hp => ?_
      simp only [reserved, hpending, map_cons, cons_append, mem_cons] at hp ⊢
      exact .inr hp
  | planCompaction config quiet fileSize =>
    simp only [step, planCompaction]
    rcases planCompaction_cases (i := w.index) config quiet fileSize with
      hw | ⟨start, stop, -, -, hw⟩
    · rw [hw]
      simp only [Option.toList_none, append_nil]
      exact hsame rfl fun p hp => hp
    · rw [hw]
      refine ⟨Nat.le_succ _, fun p hp => ?_⟩
      simp only [reserved, jobs, Option.toList_some, map_append, mem_append, map_cons,
        map_nil, mem_singleton] at hp ⊢
      rcases hp with hp | (hp | rfl) | hp
      · exact .inl (.inl hp)
      · exact .inl (.inr (.inl hp))
      · exact .inr le_rfl
      · exact .inl (.inr (.inr hp))
  | runCompaction jobId ok =>
    simp only [step]
    rcases w.runCompaction_cases jobId ok with hw | hw | ⟨job, hjob, _, -, -, hw⟩
    · rw [hw]
      exact hsame rfl fun p hp => hp
    · rw [hw]
      refine hsame rfl fun p hp => ?_
      simp only [reserved, jobs, map_append, mem_append, mem_map, mem_filter] at hp ⊢
      rcases hp with hp | ⟨job, ⟨hjob, -⟩, hp⟩ | hp
      · exact .inl hp
      · exact .inr (.inl ⟨job, hjob, hp⟩)
      · exact .inr (.inr hp)
    · rw [hw]
      refine hsame rfl fun p hp => ?_
      simp only [reserved, jobs, map_append, mem_append, mem_map, mem_filter,
        map_cons, map_nil, mem_singleton] at hp ⊢
      rcases hp with hp | ⟨job', ⟨hjob', -⟩, hp⟩ | hp | hp
      · exact .inl hp
      · exact .inr (.inl ⟨job', hjob', hp⟩)
      · exact .inr (.inr hp)
      · exact .inr (.inl ⟨job, hjob, hp.symm⟩)
  | installCompaction jobId openOk manifestOk clearOk =>
    have hfilter : ∀ (q : CompactionJob → Bool) p, p ∈ w.index.flushQueue.pending.map PendingFlush.path ++
        (w.planned ++ w.finished.filter q).map CompactionJob.outputPath → p ∈ w.reserved := by
      intro q p hp
      simp only [reserved, jobs, map_append, mem_append, mem_map, mem_filter] at hp ⊢
      rcases hp with hp | hp | ⟨job, ⟨hjob, -⟩, hp⟩
      · exact .inl hp
      · exact .inr (.inl hp)
      · exact .inr (.inr ⟨job, hjob, hp⟩)
    simp only [step]
    rcases w.installCompaction_cases jobId openOk manifestOk clearOk with
      hw | ⟨_, -, -, ⟨_, -, hw⟩ | ⟨_, _, _, -, -, -, -, -, hw⟩⟩
    · rw [hw]
      exact hsame rfl fun p hp => hp
    · rw [hw]
      exact hsame rfl (hfilter _)
    · rw [hw]
      exact hsame rfl (hfilter _)

theorem completeFlush_isOk (h : Inv w) {job : FlushJob} {seq : ℕ} {written : IoResult Segment}
    {appendOk : Bool} (hjob : job ∈ w.writing) (hseq : job.seq = seq)
    (hok : (w.index.completeFlush seq written appendOk).1.isOk = true) :
    job.path ∈ w.reserved ∧
      .disk job.path ∈ (w.index.completeFlush seq written appendOk).2.segmentHandles := by
  unfold LsmIndex.completeFlush at hok ⊢
  cases hq : w.index.flushQueue.complete seq with
  | error e =>
    rw [hq] at hok
    cases hok
  | ok done =>
    obtain ⟨rest, hpending, hfront, hqueue⟩ :=
      complete_eq_ok hq
    rw [hq] at hok
    simp only [hqueue] at hok ⊢
    obtain ⟨p, hp, hpseq, hppath, -⟩ := h.queue.flushes job (mem_append_right _ hjob)
    obtain rfl : p = done.1 := by
      refine inj_on_of_nodup_map h.queue.seqs_nodup hp (by simp [hpending]) ?_
      rw [hpseq, hseq, hfront]
    cases hw : written.bind fun disk => installFlushed
        { w.index with flushQueue := { w.index.flushQueue with pending := rest } } done.1 disk
        appendOk with
    | error e =>
      rw [hw] at hok
      cases hok
    | ok j =>
      obtain ⟨disk, -, hinstall⟩ : ∃ disk, written = .ok disk ∧ installFlushed
          { w.index with flushQueue := { w.index.flushQueue with pending := rest } } done.1 disk
          appendOk = .ok j := by
        cases written with
        | error e => cases hw
        | ok disk => exact ⟨disk, rfl, hw⟩
      obtain ⟨-, rfl⟩ := installFlushed_eq_ok hinstall
      refine ⟨?_, ?_⟩
      · rw [← hppath]
        exact mem_append_left _ (mem_map_of_mem hp)
      · rw [← hppath]
        simp only
        exact (mem_insertIdx (Nat.sub_le _ _)).mpr (.inl rfl)

end World

/-- The manifest lists old numbers once each, none of which a job will write. -/
structure Directory.Ok (dir : Directory) (w : World) : Prop where
  nodup : dir.manifest.Nodup
  old : ∀ p ∈ dir.manifest, p < w.index.nextSegmentId ∧ p ∉ w.reserved

namespace Directory

open List World

variable {dir : Directory} {w : World}

theorem Ok.frame (h : dir.Ok w) (hinv : w.Inv) (a : IndexAction) : dir.Ok (w.step a) where
  nodup := h.nodup
  old p hp := by
    obtain ⟨hnext, hres⟩ := reserved_step hinv a
    refine ⟨lt_of_lt_of_le (h.old p hp).1 hnext, fun hr => ?_⟩
    rcases hres p hr with hr | hle
    · exact (h.old p hp).2 hr
    · exact absurd (h.old p hp).1 hle.not_gt

theorem ok_live (hinv : w.Inv) (tombstones : DeleteSet) : Ok ⟨w.live, tombstones⟩ w where
  nodup := (nodup_append.mp hinv.files.paths_nodup).1
  old p hp := ⟨hinv.files.paths_lt p (mem_append_left _ hp),
    fun hr => hinv.files.not_live_of_reserved hr hp⟩

theorem Ok.step (h : dir.Ok w) (hinv : w.Inv) (a : IndexAction) : (dir.step w a).Ok (w.step a) := by
  have hframe := h.frame hinv a
  cases a with
  | deleteDocument docId appendOk =>
    rw [Directory.step]
    split_ifs
    · exact ⟨hframe.nodup, hframe.old⟩
    · exact hframe
  | completeFlush seq writeOk appendOk =>
    unfold Directory.step
    cases hfind : w.writing.find? fun job => job.seq = seq with
    | none =>
      simp only [hfind]
      exact hframe
    | some job =>
      simp only [hfind]
      obtain ⟨written, hwritten⟩ : ∃ written : IoResult Segment, written =
        if writeOk then .ok job.write else .error "write segment" := ⟨_, rfl⟩
      rw [← hwritten]
      split_ifs with hok
      · -- the number of the flush leaves the reserved ones
        have hjob : job ∈ w.writing := mem_of_find?_eq_some hfind
        have hseq : job.seq = seq := by simpa using find?_some hfind
        obtain ⟨hres, hlive⟩ := completeFlush_isOk hinv hjob hseq hok
        have hinv' := inv_step hinv (.completeFlush seq writeOk appendOk)
        have hstep : (w.step (.completeFlush seq writeOk appendOk)).index
            = (w.index.completeFlush seq written appendOk).2 := by
          simp only [World.step, World.completeFlush, hfind, hwritten]
        have hlive' : job.path ∈ (w.step (.completeFlush seq writeOk appendOk)).live := by
          rw [mem_live, hstep]
          exact hlive
        refine ⟨?_, fun p hp => ?_⟩
        · refine h.nodup.append (nodup_singleton _) fun p hp hp' => ?_
          obtain rfl := mem_singleton.mp hp'
          exact (h.old _ hp).2 hres
        · rcases mem_append.mp hp with hp | hp
          · exact hframe.old p hp
          · obtain rfl := mem_singleton.mp hp
            exact (ok_live hinv' ∅).old _ hlive'
      · exact hframe
  | installCompaction jobId openOk manifestOk clearOk =>
    unfold Directory.step
    cases hfind : w.finished.find? fun job => job.jobId = jobId with
    | none =>
      simp only [hfind]
      exact hframe
    | some job =>
      simp only [hfind]
      split_ifs
      · exact ok_live (inv_step hinv (.installCompaction jobId openOk manifestOk clearOk)) _
      · exact ok_live (inv_step hinv (.installCompaction jobId openOk manifestOk clearOk)) _
      · exact hframe
  | _ => exact hframe

end Directory

/-! ### The invariant of a shard -/

namespace Shard

open List World

variable {s : Shard}

structure Ok (s : Shard) : Prop where
  inv : s.world.Inv
  directory : s.directory.Ok s.world
  queue : ∀ e ∈ s.queue, ∀ doc ∈ e.documents, doc ∈ s.db.issuedDocs
  lengths : s.world.Everywhere (Reader.LengthsFrom s.db.issuedDocs)

theorem mem_issuedDocs {db : Database} {e : Effect} {doc : AnalyzedDocument} (he : e ∈ db.issued)
    (hdoc : doc ∈ e.documents) : doc ∈ db.issuedDocs :=
  mem_flatMap.mpr ⟨e, he, hdoc⟩

theorem Ok.act (h : s.Ok) {a : IndexAction} (hdocs : ∀ doc ∈ a.documents, doc ∈ s.db.issuedDocs) :
    (s.act a).Ok where
  inv := inv_step h.inv a
  directory := h.directory.step h.inv a
  queue := h.queue
  lengths := by
    refine everywhere_step (Reader.closed_lengthsFrom _) h.inv (fun r hr d x hlen => ?_) h.lengths
    cases a with
    | mergeIntoMemtable docs =>
      obtain rfl := mem_singleton.mp hr
      obtain ⟨doc, hdoc, hd⟩ := MemIndex.docLen_ofDocuments hlen
      exact ⟨doc, hdocs doc hdoc, hd⟩
    | _ => cases hr

theorem Ok.act_nil (h : s.Ok) {a : IndexAction} (hdocs : a.documents = []) : (s.act a).Ok :=
  h.act fun doc hdoc => by rw [hdocs] at hdoc; cases hdoc

theorem Ok.commit (h : s.Ok) {db : Database} (hissues : s.db.Issues db) : (s.commit db).Ok where
  inv := h.inv
  directory := h.directory
  queue e he doc hdoc := by
    obtain ⟨new, hnew, -⟩ := hissues.issued
    rcases mem_append.mp he with he | he
    · obtain ⟨e', he', hdoc'⟩ := mem_flatMap.mp (h.queue e he doc hdoc)
      exact mem_issuedDocs (hnew ▸ mem_append_left _ he') hdoc'
    · exact mem_issuedDocs (mem_of_mem_drop (mem_of_mem_filter he)) hdoc
  lengths := by
    obtain ⟨new, hnew, -⟩ := hissues.issued
    refine h.lengths.mono fun r hr d x hlen => ?_
    obtain ⟨doc, hdoc, hd⟩ := hr d x hlen
    obtain ⟨e, he, hdoc⟩ := mem_flatMap.mp hdoc
    exact ⟨doc, mem_issuedDocs (hnew ▸ mem_append_left _ he) hdoc, hd⟩

theorem Ok.setQueue (h : s.Ok) {queue : List Effect}
    (hqueue : ∀ e ∈ queue, ∀ doc ∈ e.documents, doc ∈ s.db.issuedDocs) : Ok { s with queue := queue } :=
  ⟨h.inv, h.directory, hqueue, h.lengths⟩

theorem Ok.handle (h : s.Ok) (count : ℕ) (appendOk : Bool) : (s.handle count appendOk).Ok := by
  have hq := h.queue
  unfold Shard.handle
  split
  · exact h
  · rename_i docId rest hqueue
    rw [hqueue] at hq
    exact (h.act_nil rfl).setQueue fun e he => hq e (mem_cons_of_mem _ he)
  · rename_i docs rest hqueue
    rw [hqueue] at hq
    have hall := hq _ mem_cons_self
    have hmerge : (s.act (.mergeIntoMemtable (docs.take count))).Ok :=
      h.act fun doc hdoc => hall doc (mem_of_mem_take hdoc)
    refine hmerge.setQueue fun e he => ?_
    split_ifs at he
    · exact hq e (mem_cons_of_mem _ he)
    · rcases mem_cons.mp he with rfl | he
      · exact fun doc hdoc => hall doc (mem_of_mem_drop hdoc)
      · exact hq e (mem_cons_of_mem _ he)
  · rename_i e rest _ _ hqueue
    rw [hqueue] at hq
    exact h.setQueue fun e he => hq e (mem_cons_of_mem _ he)

theorem Ok.lose (h : s.Ok) : s.lose.Ok := by
  have hq := h.queue
  unfold Shard.lose
  split
  · rename_i docs rest hqueue
    rw [hqueue] at hq
    exact h.setQueue fun e he => hq e (mem_cons_of_mem _ he)
  · exact h

theorem Ok.sweep (h : s.Ok) (count : ℕ) : (s.sweep count).Ok := by
  unfold Shard.sweep
  generalize s.staleIds.take count = ids
  induction ids generalizing s with
  | nil => exact h
  | cons id ids ih => exact ih (h.act_nil rfl)

theorem openManifest_spec {manifest : List (ℕ × Segment)} (h : s.openManifest = some manifest) :
    manifest.map Prod.fst = s.directory.manifest ∧
      ∀ e ∈ manifest, s.world.files.get? e.1 = some e.2 := by
  have hmap := map_of_mapM h
  constructor
  · have hfst : ∀ (l : List ℕ) (m : List (ℕ × Segment)),
        l.map (fun n => (s.world.files.get? n).map (Prod.mk n)) = m.map some → m.map Prod.fst = l := by
      intro l
      induction l with
      | nil =>
        intro m hm
        rw [map_eq_nil_iff.mp hm.symm]
        rfl
      | cons n l ih =>
        intro m hm
        cases m with
        | nil => cases hm
        | cons e m =>
          rw [map_cons, map_cons] at hm
          obtain ⟨he, htail⟩ := cons.inj hm
          obtain ⟨segment, -, rfl⟩ := Option.map_eq_some_iff.mp he
          rw [map_cons, ih m htail]
    exact hfst _ _ hmap
  · intro e he
    have hmem : some e ∈ s.directory.manifest.map fun n => (s.world.files.get? n).map (Prod.mk n) :=
      hmap ▸ mem_map_of_mem he
    obtain ⟨n, -, hn⟩ := mem_map.mp hmem
    obtain ⟨segment, hget, rfl⟩ := Option.map_eq_some_iff.mp hn
    exact hget

theorem Ok.restart (h : s.Ok) : s.restart.Ok := by
  unfold Shard.restart
  cases hopen : s.openManifest with
  | none => exact h
  | some manifest =>
    simp only
    obtain ⟨hpaths, hfiles⟩ := openManifest_spec hopen
    split
    · exact h
    · have hnodup : (manifest.map Prod.fst).Nodup := hpaths ▸ h.directory.nodup
      refine ⟨Fresh.inv (.opened manifest _ hnodup), ?_, ?_, ?_⟩
      · refine ⟨h.directory.nodup, fun p hp => ⟨?_, ?_⟩⟩
        · exact (lt_nextSegmentId 0).2 p (hpaths ▸ hp)
        · simp [start, reserved, jobs, LsmIndex.persistent, FlushQueue.empty]
      · exact fun e he => by cases he
      · exact everywhere_start (fun d x hlen => absurd rfl hlen) fun e he =>
          h.lengths.files e.1 e.2 (hfiles e he)

theorem Ok.step (h : s.Ok) (st : ShardStep) : (s.step st).Ok := by
  cases st with
  | write w batchSize idle =>
    rw [Shard.step]
    split
    · exact h.commit (Database.issues_write ‹_›)
    · exact h
  | replay record batchSize idle =>
    rw [Shard.step]
    split
    · exact h.commit (Database.issues_replayRecord ‹_›)
    · exact h
  | handle count appendOk => exact h.handle count appendOk
  | lose => exact h.lose
  | publishSnapshot busy => exact h.act_nil rfl
  | queueFlush busy syncOk => exact h.act_nil rfl
  | takeFlushJobs => exact h.act_nil rfl
  | completeFlush seq writeOk appendOk => exact h.act_nil rfl
  | planCompaction config quiet fileSize => exact h.act_nil rfl
  | runCompaction jobId ok => exact h.act_nil rfl
  | installCompaction jobId openOk manifestOk clearOk => exact h.act_nil rfl
  | sweep count => exact h.sweep count
  | restart => exact h.restart

theorem ok_empty (shardId : ℕ) : (empty shardId).Ok where
  inv := Fresh.inv (.opened [] ∅ nodup_nil)
  directory := ⟨nodup_nil, fun p hp => by cases hp⟩
  queue e he := by cases he
  lengths := everywhere_start (fun d x hlen => absurd rfl hlen) fun e he => by cases he

theorem ok_run (h : s.Ok) (steps : List ShardStep) : (s.run steps).Ok := by
  induction steps generalizing s with
  | nil => exact h
  | cons st steps ih => exact ih (h.step st)

end Shard

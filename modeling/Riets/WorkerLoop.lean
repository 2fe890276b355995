/-
The loop of the index worker.

`run_index_worker` takes one command after another; the segment writer is a second
thread that writes the segments in the order they were queued and reports each with
a command of its own.  A flush is acknowledged once every segment queued so far was
reported, with the health of the queue at that moment.

When the worker publishes a snapshot depends on counters and the clock, so with
every command it is said whether it publishes.  The same holds for everything that
can fail.
-/
import Riets.Manifest
import Riets.IndexWorker
import Riets.NoLoss

/-- A command of the worker with what happens to it; the number of its
acknowledgement is its place in the run. -/
inductive IndexCommand where
  /-- `none` when tokenizing the batch failed. -/
  | addIndexedDocuments (documents : Option (List AnalyzedDocument)) (busy : ℕ → Bool)
      (syncOk : ℕ → Bool)
  | deleteDocument (docId : DocId) (appendOk : Bool)
  /-- Each segment with what happens to it, and whether an append that fails leaves
  its line. -/
  | addSegment (segments : List (Segment × AddOutcome × Bool))
  | flush (busy : ℕ → Bool) (syncOk : Bool)
  | segmentWritten (writeOk appendOk lineLeft : Bool)
  | planCompaction (config : CompactionConfig) (quiet : Bool) (fileSize : ℕ → ℕ)
  | runCompaction (jobId : ℕ) (ok : Bool)
  | installCompaction (jobId : ℕ) (openOk clearOk : Bool)

namespace ManifestWorld

/-- `add_immutable_segment`: the first segment that fails ends it. -/
def addSegments : ManifestWorld → List (Segment × AddOutcome × Bool) → Bool × ManifestWorld
  | m, [] => (true, m)
  | m, (segment, outcome, lineLeft) :: rest =>
    let left := if lineLeft then m.manifest ++ [m.world.index.nextSegmentId] else m.manifest
    let m' := m.step (.addSegment segment outcome left)
    if outcome = .added then addSegments m' rest else (false, m')

def act (m : ManifestWorld) (a : IndexAction) : ManifestWorld := m.step (.act a m.manifest)

/-- `complete_flush` of the oldest write. -/
def complete (m : ManifestWorld) (writeOk appendOk lineLeft : Bool) : ManifestWorld :=
  match m.world.writing with
  | [] => m
  | job :: _ => m.step (.act (.completeFlush job.seq writeOk appendOk)
      (if lineLeft then m.manifest ++ [job.path] else m.manifest))

def writesInFlight (m : ManifestWorld) : Bool :=
  m.world.index.flushQueue.madeNotFlushed.length < m.world.index.flushQueue.pending.length

end ManifestWorld

structure WorkerLoop where
  disk : ManifestWorld
  flushThreshold : ℕ
  /-- Flushes that wait for segments, with the number that has to be reached. -/
  flushWaiters : List (ℕ × ℕ)
  answers : SortedMap ℕ Bool
  count : ℕ

namespace WorkerLoop

def index (k : WorkerLoop) : LsmIndex := k.disk.world.index

def answer (k : WorkerLoop) (ok : Bool) : WorkerLoop :=
  { k with answers := k.answers.insert k.count ok }

def flushedThrough (k : WorkerLoop) : ℕ :=
  k.index.flushQueue.nextSeq - k.index.flushQueue.pending.length

def releaseFlushWaiters (k : WorkerLoop) : WorkerLoop :=
  { k with
    flushWaiters := k.flushWaiters.dropWhile fun waiter => waiter.1 ≤ k.flushedThrough
    answers := (k.flushWaiters.takeWhile fun waiter => waiter.1 ≤ k.flushedThrough).foldl
      (fun answers waiter => answers.insert waiter.2 k.index.flushQueue.health.isOk) k.answers }

def handle (k : WorkerLoop) : IndexCommand → WorkerLoop
  | .addIndexedDocuments none _ _ => k.answer false
  | .addIndexedDocuments (some []) _ _ => k.answer true
  | .addIndexedDocuments (some docs) busy syncOk =>
    let merged := World.stageAndMerge k.flushThreshold busy syncOk k.disk.world 0 [] docs
    { k with disk := { k.disk with world := merged.2 } }.answer merged.1
  | .deleteDocument docId appendOk =>
    { k with disk := k.disk.act (.deleteDocument docId appendOk) }.answer appendOk
  | .addSegment segments =>
    let added := k.disk.addSegments segments
    { k with disk := added.2 }.answer added.1
  | .flush busy syncOk =>
    let queued := { k with disk := k.disk.act (.queueFlush busy syncOk) }
    if (k.index.queueFlush busy syncOk).1.isOk then
      let submitted := { queued with disk := queued.disk.act .takeFlushJobs }
      { submitted with
        flushWaiters := submitted.flushWaiters ++
          [(submitted.index.flushQueue.nextSeq, k.count)] }.releaseFlushWaiters
    else queued.answer false
  | .segmentWritten writeOk appendOk lineLeft =>
    { k with disk := k.disk.complete writeOk appendOk lineLeft }.releaseFlushWaiters
  | .planCompaction config quiet fileSize =>
    { k with disk := k.disk.act (.planCompaction config quiet fileSize) }
  | .runCompaction jobId ok => { k with disk := k.disk.act (.runCompaction jobId ok) }
  | .installCompaction jobId openOk clearOk =>
    { k with disk := k.disk.act (.installCompaction jobId openOk true clearOk) }

/-- One turn of the loop: the command, a snapshot perhaps, and the queued writes
handed to the writer. -/
def step (k : WorkerLoop) (c : IndexCommand × Option (ℕ → Bool)) : WorkerLoop :=
  let handled := k.handle c.1
  let published := match c.2 with
    | some busy => { handled with disk := handled.disk.act (.publishSnapshot busy) }
    | none => handled
  { published with disk := published.disk.act .takeFlushJobs, count := k.count + 1 }

def run (k : WorkerLoop) (cs : List (IndexCommand × Option (ℕ → Bool))) : WorkerLoop :=
  cs.foldl step k

def start (entries : List (ℕ × Segment)) (tombstones : DeleteSet) (flushThreshold : ℕ) :
    WorkerLoop :=
  ⟨ManifestWorld.start entries tombstones, flushThreshold, [], .empty, 0⟩

end WorkerLoop

namespace ManifestWorld

/-- The writes of `LsmIndex::flush` on the calling thread; the first that fails
ends it. -/
def writeAll (writeOk appendOk : Bool) : List FlushJob → ManifestWorld → IoResult Unit × ManifestWorld
  | [], m => (.ok (), m)
  | job :: jobs, m =>
    let left := m.manifest
    let m' := m.step (.act (.completeFlush job.seq writeOk appendOk) left)
    match (m.world.index.completeFlush job.seq
        (if writeOk then .ok job.write else .error "write segment") appendOk).1 with
    | .ok () => writeAll writeOk appendOk jobs m'
    | .error e => (.error e, m')

def flush (m : ManifestWorld) (busy : ℕ → Bool) (syncOk writeOk appendOk : Bool) :
    IoResult Unit × ManifestWorld :=
  if m.writesInFlight then (.error "flush() called while segment writes are in flight", m)
  else
    match (m.world.index.queueFlush busy syncOk).1 with
    | .error e => (.error e, m.act (.queueFlush busy syncOk))
    | .ok () =>
      let queued := m.act (.queueFlush busy syncOk)
      writeAll writeOk appendOk queued.world.index.flushQueue.madeNotFlushed (queued.act .takeFlushJobs)

end ManifestWorld

/-- The `Shutdown` command: what the worker returns, and the index it leaves. -/
def WorkerLoop.shutdown (k : WorkerLoop) (busy : ℕ → Bool) (syncOk writeOk appendOk : Bool) :
    IoResult Unit × ManifestWorld :=
  k.disk.flush busy syncOk writeOk appendOk

/-! ### What every step keeps of the index -/

namespace ManifestWorld

open List World Option FlushQueue

variable {m m' m'' : ManifestWorld} {x : XPathId} {d : DocId}

/-- A step as the worker takes it: the writer reports in order, and what a failed
append leaves is at least what was there. -/
def Orderly (m : ManifestWorld) : ManifestStep → Prop
  | .act (.completeFlush seq _ _) left =>
    (∃ job rest, m.world.writing = job :: rest ∧ job.seq = seq) ∧ m.manifest ⊆ left
  | .act (.installCompaction _ _ manifestOk _) _ => manifestOk = true
  | .act _ _ => True
  | .addSegment _ _ left => m.manifest ⊆ left

/-- The index and its manifest: the invariants of the index, every live segment is
listed, and the pending flushes are the jobs in the order they are written. -/
structure DiskOk (m : ManifestWorld) : Prop where
  inv : m.world.Inv
  flush : m.world.FlushOk
  listed : m.world.live ⊆ m.manifest
  order : m.world.index.flushQueue.pending.map PendingFlush.seq =
    (m.world.writing ++ m.world.index.flushQueue.madeNotFlushed).map FlushJob.seq

variable {rest : List FlushJob}

theorem DiskOk.head (h : DiskOk m) {job : FlushJob}
    (hwriting : m.world.writing = job :: rest) :
    ∃ front pending, m.world.index.flushQueue.pending = front :: pending ∧ front.seq = job.seq ∧
      m.world.writing.find? (fun j => j.seq = job.seq) = some job ∧
      m.world.writing.filter (fun j => j.seq ≠ job.seq) = rest ∧
      m.world.index.flushQueue.complete job.seq =
        .ok (front, { m.world.index.flushQueue with pending := pending }) := by
  have horder := h.order
  rw [hwriting, cons_append, map_cons] at horder
  obtain ⟨front, pending, hpending⟩ : ∃ front pending,
      m.world.index.flushQueue.pending = front :: pending := by
    cases hp : m.world.index.flushQueue.pending with
    | nil =>
      rw [hp] at horder
      cases horder
    | cons front pending => exact ⟨front, pending, rfl⟩
  have hseq : front.seq = job.seq := by
    rw [hpending, map_cons, cons.injEq] at horder
    exact horder.1
  refine ⟨front, pending, hpending, hseq, ?_, ?_, ?_⟩
  · rw [hwriting, find?_cons]
    simp
  · have hnodup := h.inv.queue.jobs_nodup
    rw [flushJobs, hwriting, map_append] at hnodup
    obtain ⟨hnot, -⟩ := nodup_cons.mp (nodup_append.mp hnodup).2.1
    rw [hwriting, filter_cons, if_neg (by simp), filter_eq_self]
    intro j hj
    have hne : j.seq ≠ job.seq := fun heq => hnot (heq ▸ mem_map_of_mem hj)
    simpa using hne
  · rw [FlushQueue.complete, hpending]
    simp only
    rw [if_pos hseq]

theorem DiskOk.completeFlush (h : DiskOk m) {job : FlushJob}
    (hwriting : m.world.writing = job :: rest) (writeOk appendOk : Bool) :
    ∃ front pending, m.world.index.flushQueue.pending = front :: pending ∧ front.seq = job.seq ∧
      (m.world.completeFlush job.seq writeOk appendOk).writing = rest ∧
      (m.world.completeFlush job.seq writeOk appendOk).index.flushQueue.pending = pending ∧
      (m.world.completeFlush job.seq writeOk appendOk).index.flushQueue.madeNotFlushed =
        m.world.index.flushQueue.madeNotFlushed ∧
      (if writeOk ∧ appendOk then
        (m.world.completeFlush job.seq writeOk appendOk).index.flushQueue.failure =
          m.world.index.flushQueue.failure ∧
        (m.world.completeFlush job.seq writeOk appendOk).live ⊆ front.path :: m.world.live
      else
        (m.world.completeFlush job.seq writeOk appendOk).index.flushQueue.failure ≠ none ∧
        (m.world.completeFlush job.seq writeOk appendOk).live = m.world.live) := by
  obtain ⟨front, pending, hpending, hseq, hfind, hrest, hcomplete⟩ := h.head hwriting
  refine ⟨front, pending, hpending, hseq, ?_⟩
  simp only [World.completeFlush, hfind, LsmIndex.completeFlush, hcomplete]
  cases writeOk with
  | false =>
    refine ⟨hrest, rfl, rfl, ?_⟩
    rw [if_neg (by simp)]
    exact ⟨some_ne_none _, live_memory _ _⟩
  | true =>
    cases appendOk with
    | false =>
      simp only [LsmIndex.installFlushed, h.flush.root]
      refine ⟨hrest, rfl, rfl, ?_⟩
      rw [if_neg (by simp)]
      exact ⟨some_ne_none _, live_memory _ _⟩
    | true =>
      simp only [LsmIndex.installFlushed, h.flush.root]
      refine ⟨hrest, rfl, rfl, ?_⟩
      rw [if_pos (by simp)]
      refine ⟨rfl, fun p hp => ?_⟩
      have hp' : p ∈ (m.world.index.segmentHandles.insertIdx
          (m.world.index.flushPosition front) (.disk front.path)).filterMap SegmentHandle.path? := hp
      obtain ⟨handle, hh, hpath⟩ := mem_filterMap.mp hp'
      rcases (mem_insertIdx (Nat.sub_le _ _)).mp hh with rfl | hh
      · cases hpath
        exact mem_cons_self
      · exact mem_cons_of_mem _ (mem_filterMap.mpr ⟨handle, hh, hpath⟩)

theorem DiskOk.listed_completeFlush (h : DiskOk m) {job : FlushJob}
    (hwriting : m.world.writing = job :: rest) (writeOk appendOk : Bool) {left : List ℕ}
    (hleft : m.manifest ⊆ left) :
    (m.world.completeFlush job.seq writeOk appendOk).live ⊆
      m.manifestAfter (.completeFlush job.seq writeOk appendOk) left := by
  obtain ⟨front, pending, -, -, hfind, -, hcomplete⟩ := h.head hwriting
  obtain ⟨front', pending', hpending', -, -, -, -, hlive⟩ := h.completeFlush hwriting writeOk appendOk
  obtain ⟨rest', hpending, -⟩ := complete_eq_ok hcomplete
  obtain ⟨rfl, rfl⟩ : front' = front ∧ pending' = rest' := by
    rw [hpending, cons.injEq] at hpending'
    exact ⟨hpending'.1.symm, hpending'.2.symm⟩
  simp only [manifestAfter, hfind, hcomplete, h.flush.root, and_true]
  cases writeOk with
  | false =>
    rw [if_neg (by simp)] at hlive ⊢
    rw [hlive.2]
    exact h.listed
  | true =>
    cases appendOk with
    | false =>
      rw [if_neg (by simp)] at hlive
      rw [hlive.2]
      exact fun p hp => hleft (h.listed hp)
    | true =>
      rw [if_pos (by simp)] at hlive
      intro p hp
      rcases mem_cons.mp (hlive.2 hp) with rfl | hp
      · exact mem_append_right _ (mem_singleton.mpr rfl)
      · exact mem_append_left _ (h.listed hp)

theorem order_step (h : DiskOk m) {a : IndexAction} (ha : ∀ seq w p, a ≠ .completeFlush seq w p) :
    (m.world.step a).index.flushQueue.pending.map PendingFlush.seq =
      ((m.world.step a).writing ++ (m.world.step a).index.flushQueue.madeNotFlushed).map
        FlushJob.seq := by
  have horder := h.order
  have hbuf := m.world.step_buffered (a := a)
  cases a with
  | mergeIntoMemtable docs => exact horder
  | deleteDocument docId appendOk => exact horder
  | completeFlush seq writeOk appendOk => exact absurd rfl (ha seq writeOk appendOk)
  | runCompaction jobId ok =>
    simp only [World.step]
    rcases m.world.runCompaction_cases jobId ok with hw | hw | ⟨_, -, _, -, -, hw⟩
    all_goals
      rw [hw]
      exact horder
  | installCompaction jobId openOk manifestOk clearOk =>
    simp only [World.step]
    rcases m.world.installCompaction_cases jobId openOk manifestOk clearOk with
      hw | ⟨_, -, -, ⟨_, -, hw⟩ | ⟨_, _, _, -, -, -, -, -, hw⟩⟩
    all_goals
      rw [hw]
      exact horder
  | _ =>
    rcases (hbuf trivial).queue with ⟨hw, hq⟩ | ⟨hw, path, generations, hq⟩ | ⟨hw, hq⟩
    · rw [hw, hq]
      exact horder
    · rw [hw, hq]
      simp only [push, map_append, horder, append_assoc]
      rfl
    · rw [hw, hq, append_nil]
      exact horder

theorem DiskOk.step (h : DiskOk m) {st : ManifestStep} (hst : m.Orderly st) : DiskOk (m.step st) := by
  obtain ⟨hinv, hflush⟩ := ok_step h.inv h.flush st
  cases st with
  | addSegment segment outcome left =>
    rcases addSegment_cases h.flush.root segment outcome with ⟨hne, files, -, hw⟩ | ⟨rfl, hw⟩
    · refine ⟨hinv, hflush, fun p hp => ?_, ?_⟩
      · have hlive : (m.step (.addSegment segment outcome left)).world.live = m.world.live := by
          show (m.world.addSegment segment outcome).live = _
          rw [hw]
          rfl
        rw [hlive] at hp
        simp only [ManifestWorld.step, h.flush.root]
        cases outcome with
        | added => exact absurd rfl hne
        | writeFailed => exact h.listed hp
        | openFailed => exact h.listed hp
        | appendFailed => exact hst (h.listed hp)
      · show (m.world.addSegment segment outcome).index.flushQueue.pending.map _ = _
        simp only [ManifestWorld.step, hw]
        exact h.order
    · refine ⟨hinv, hflush, fun p hp => ?_, ?_⟩
      · have hlive : (m.step (.addSegment segment .added left)).world.live =
            m.world.live ++ [m.world.index.nextSegmentId] := by
          show (m.world.addSegment segment .added).live = _
          rw [hw]
          exact filterMap_append
        have hmanifest : (m.step (.addSegment segment .added left)).manifest =
            m.manifest ++ [m.world.index.nextSegmentId] := by
          simp only [ManifestWorld.step, h.flush.root]
          rfl
        rw [hlive] at hp
        rw [hmanifest]
        exact (mem_append.mp hp).elim (fun hp => mem_append_left _ (h.listed hp))
          fun hp => mem_append_right _ hp
      · simp only [ManifestWorld.step, hw]
        rw [map_seq_segmentAdded]
        exact h.order
  | act a left =>
    by_cases ha : ∃ seq writeOk appendOk, a = .completeFlush seq writeOk appendOk
    · obtain ⟨seq, writeOk, appendOk, rfl⟩ := ha
      obtain ⟨⟨job, rest, hwriting, rfl⟩, hleft⟩ := hst
      obtain ⟨front, pending, hpending, -, hrest, hqueue, hmade, -⟩ :=
        h.completeFlush hwriting writeOk appendOk
      refine ⟨hinv, hflush, h.listed_completeFlush hwriting writeOk appendOk hleft, ?_⟩
      show (m.world.completeFlush job.seq writeOk appendOk).index.flushQueue.pending.map _ =
        ((m.world.completeFlush job.seq writeOk appendOk).writing ++
          (m.world.completeFlush job.seq writeOk appendOk).index.flushQueue.madeNotFlushed).map _
      have horder := h.order
      rw [hpending, hwriting, cons_append, map_cons, map_cons, List.cons.injEq] at horder
      rw [hrest, hqueue, hmade]
      exact horder.2
    · have hother : ∀ seq w p, a ≠ .completeFlush seq w p :=
        fun seq w p heq => ha ⟨seq, w, p, heq⟩
      refine ⟨hinv, hflush, ?_, order_step h hother⟩
      have hok : m.StepOk (.act a left) := by
        cases a with
        | completeFlush seq w p => exact absurd rfl (hother seq w p)
        | installCompaction jobId openOk manifestOk clearOk => exact hst
        | _ => trivial
      cases move_step h.flush.root hok with
      | same hlive hmanifest =>
        rw [hlive, hmanifest]
        exact h.listed
      | added p hlive hmanifest =>
        rw [hlive, hmanifest]
        exact fun q hq => (mem_append.mp hq).elim
          (fun hq => mem_append_left _ (h.listed hq)) fun hq => mem_append_right _ hq
      | rewritten hmanifest =>
        rw [hmanifest]
        exact fun p hp => hp
      | installed front rest hpending hhandles hbehind hmanifest =>
        intro p hp
        obtain ⟨handle, hh, hpath⟩ := mem_filterMap.mp hp
        rw [hhandles] at hh
        rw [hmanifest]
        rcases (mem_insertIdx (Nat.sub_le _ _)).mp hh with rfl | hh
        · cases hpath
          exact mem_append_right _ (mem_singleton.mpr rfl)
        · exact mem_append_left _ (h.listed (mem_filterMap.mpr ⟨handle, hh, hpath⟩))

def flushedThrough (m : ManifestWorld) : ℕ :=
  m.world.index.flushQueue.nextSeq - m.world.index.flushQueue.pending.length

/-- What a number of steps keeps: the numbers only grow, a failure stays, and an id
outside `deletes` stays where it is or moves on. -/
structure Advances (deletes : Set DocId) (m m' : ManifestWorld) : Prop where
  ok : DiskOk m'
  nextSeq_le : m.world.index.flushQueue.nextSeq ≤ m'.world.index.flushQueue.nextSeq
  flushedThrough_le : m.flushedThrough ≤ m'.flushedThrough
  failure : m.world.index.flushQueue.failure ≠ none → m'.world.index.flushQueue.failure ≠ none
  kept : ∀ d ∉ deletes, m.world.Kept d → m'.world.Kept d
  held : ∀ d ∉ deletes, m.world.Kept d → ∀ x, m.world.Held x d → m'.world.Held x d
  flushed : ∀ d ∉ deletes, m.world.Kept d → ∀ n x, m.world.FlushedBelow n x d →
    m'.world.FlushedBelow n x d
  onDisk : ∀ d ∉ deletes, m.world.Kept d → ∀ x, m.world.OnDisk x d → m'.world.OnDisk x d

namespace Advances

variable {deletes deletes' : Set DocId}

theorem refl (h : DiskOk m) : Advances deletes m m where
  ok := h
  nextSeq_le := le_rfl
  flushedThrough_le := le_rfl
  failure := id
  kept _ _ := id
  held _ _ _ _ := id
  flushed _ _ _ _ _ := id
  onDisk _ _ _ _ := id

theorem trans (h : Advances deletes m m') (h' : Advances deletes m' m'') :
    Advances deletes m m'' where
  ok := h'.ok
  nextSeq_le := h.nextSeq_le.trans h'.nextSeq_le
  flushedThrough_le := h.flushedThrough_le.trans h'.flushedThrough_le
  failure := h'.failure ∘ h.failure
  kept d hd hkept := h'.kept d hd (h.kept d hd hkept)
  held d hd hkept x hx := h'.held d hd (h.kept d hd hkept) x (h.held d hd hkept x hx)
  flushed d hd hkept n x hx := h'.flushed d hd (h.kept d hd hkept) n x (h.flushed d hd hkept n x hx)
  onDisk d hd hkept x hx := h'.onDisk d hd (h.kept d hd hkept) x (h.onDisk d hd hkept x hx)

theorem mono (h : Advances deletes m m') (hsub : deletes ⊆ deletes') : Advances deletes' m m' where
  ok := h.ok
  nextSeq_le := h.nextSeq_le
  flushedThrough_le := h.flushedThrough_le
  failure := h.failure
  kept d hd := h.kept d fun hin => hd (hsub hin)
  held d hd := h.held d fun hin => hd (hsub hin)
  flushed d hd := h.flushed d fun hin => hd (hsub hin)
  onDisk d hd := h.onDisk d fun hin => hd (hsub hin)

end Advances

theorem queue_step (h : m.world.Inv) (hok : m.world.FlushOk) (a : IndexAction) :
    m.world.index.flushQueue.nextSeq ≤ (m.world.step a).index.flushQueue.nextSeq ∧
      m.flushedThrough ≤ (m.world.step a).index.flushQueue.nextSeq -
        (m.world.step a).index.flushQueue.pending.length := by
  have hle := hok.length_le
  rw [flushedThrough]
  cases queueMove_step h a with
  | same hpending hnext _ =>
    rw [hpending, hnext]
    exact ⟨le_rfl, le_rfl⟩
  | queued path generations hq =>
    rw [hq]
    simp only [push, length_append, length_cons, length_nil]
    omega
  | done front rest hpending hrest hnext _ =>
    rw [hpending] at hle ⊢
    rw [hrest, hnext]
    simp only [length_cons] at hle ⊢
    omega

variable {left : List ℕ}

theorem advances_act (h : DiskOk m) {deletes : Set DocId} {a : IndexAction}
    (hst : m.Orderly (.act a left)) (ha : ∀ d ok, a = .deleteDocument d ok → d ∈ deletes) :
    Advances deletes m (m.step (.act a left)) := by
  have hspares : ∀ d, m.world.Kept d → m.world.Spares d a :=
    fun d hkept job hjob _ => hkept.2 job (mem_append_right _ hjob)
  obtain ⟨hnext, hthrough⟩ := queue_step h.inv h.flush a
  refine ⟨h.step hst, hnext, hthrough, failure_step h.inv a, fun d hd hkept => ?_,
    fun d _ hkept x => ?_, fun d _ hkept n x => ?_, fun d _ hkept x => ?_⟩
  · exact kept_step h.inv hkept fun ok heq => hd (ha d ok heq)
  · exact held_step h.inv (hspares d hkept)
  · exact flushedBelow_step h.inv h.flush.root (hspares d hkept)
  · exact onDisk_step h.inv h.flush.root (hspares d hkept)

theorem advances_addSegment (h : DiskOk m) {deletes : Set DocId} {segment : Segment}
    {outcome : AddOutcome} (hst : m.Orderly (.addSegment segment outcome left)) :
    Advances deletes m (m.step (.addSegment segment outcome left)) := by
  have hsame : ∀ d, m.world.Kept d → (m.world.addSegment segment outcome).Kept d := by
    intro d hkept
    rcases addSegment_cases h.flush.root segment outcome with ⟨-, _, -, hw⟩ | ⟨-, hw⟩
    · rw [hw]
      exact hkept
    · rw [hw]
      exact hkept
  have hqueue : (m.world.addSegment segment outcome).index.flushQueue.nextSeq =
        m.world.index.flushQueue.nextSeq ∧
      (m.world.addSegment segment outcome).index.flushQueue.pending.length =
        m.world.index.flushQueue.pending.length ∧
      (m.world.addSegment segment outcome).index.flushQueue.failure =
        m.world.index.flushQueue.failure := by
    rcases addSegment_cases h.flush.root segment outcome with ⟨-, _, -, hw⟩ | ⟨-, hw⟩
    · rw [hw]
      exact ⟨rfl, rfl, rfl⟩
    · rw [hw]
      exact ⟨rfl, length_segmentAdded _, rfl⟩
  obtain ⟨hnext, hlength, hfailure⟩ := hqueue
  refine ⟨h.step hst, hnext.ge, ?_, fun hf => ?_, fun d _ => hsame d, fun d _ _ x => ?_,
    fun d _ _ n x => ?_, fun d _ _ x => ?_⟩
  · show m.flushedThrough ≤ (m.world.addSegment segment outcome).index.flushQueue.nextSeq - _
    rw [hnext]
    exact (congrArg (m.world.index.flushQueue.nextSeq - ·) hlength).ge
  · show (m.world.addSegment segment outcome).index.flushQueue.failure ≠ none
    rwa [hfailure]
  · exact held_addSegment h.flush.root segment outcome
  · exact flushedBelow_addSegment h.inv h.flush.root segment outcome
  · exact onDisk_addSegment h.inv h.flush.root segment outcome

/-- Nothing was reported in between: no flush went and none failed. -/
structure Steady (m m' : ManifestWorld) : Prop where
  flushedThrough : m'.flushedThrough = m.flushedThrough
  failure : m'.world.index.flushQueue.failure = m.world.index.flushQueue.failure

theorem Steady.refl (m : ManifestWorld) : Steady m m := ⟨rfl, rfl⟩

theorem Steady.trans (h : Steady m m') (h' : Steady m' m'') : Steady m m'' :=
  ⟨h'.flushedThrough.trans h.flushedThrough, h'.failure.trans h.failure⟩

theorem steady_act {a : IndexAction} (ha : ∀ seq w p, a ≠ .completeFlush seq w p) :
    Steady m (m.step (.act a left)) := by
  have hbuf := m.world.step_buffered (a := a)
  cases a with
  | mergeIntoMemtable docs => exact ⟨rfl, rfl⟩
  | deleteDocument docId appendOk => exact ⟨rfl, rfl⟩
  | completeFlush seq writeOk appendOk => exact absurd rfl (ha seq writeOk appendOk)
  | runCompaction jobId ok =>
    simp only [step, World.step]
    rcases m.world.runCompaction_cases jobId ok with hw | hw | ⟨_, -, _, -, -, hw⟩
    all_goals
      rw [hw]
      exact ⟨rfl, rfl⟩
  | installCompaction jobId openOk manifestOk clearOk =>
    simp only [step, World.step]
    rcases m.world.installCompaction_cases jobId openOk manifestOk clearOk with
      hw | ⟨_, -, -, ⟨_, -, hw⟩ | ⟨_, _, _, -, -, -, -, -, hw⟩⟩
    all_goals
      rw [hw]
      exact ⟨rfl, rfl⟩
  | _ =>
    simp only [step]
    rcases (hbuf trivial).queue with ⟨-, hq⟩ | ⟨-, path, generations, hq⟩ | ⟨-, hq⟩
    · exact ⟨by simp only [flushedThrough, hq], by rw [hq]⟩
    · refine ⟨?_, by rw [hq]; rfl⟩
      simp only [flushedThrough, hq, push, length_append, length_singleton]
      omega
    · exact ⟨by simp only [flushedThrough, hq], by rw [hq]⟩

theorem steady_addSegment (h : DiskOk m) (segment : Segment) (outcome : AddOutcome) (left : List ℕ) :
    Steady m (m.step (.addSegment segment outcome left)) := by
  show Steady m ⟨m.world.addSegment segment outcome, _⟩
  rcases addSegment_cases h.flush.root segment outcome with ⟨-, _, -, hw⟩ | ⟨-, hw⟩
  · rw [hw]
    exact ⟨rfl, rfl⟩
  · rw [hw]
    exact ⟨congrArg (m.world.index.flushQueue.nextSeq - ·) (length_segmentAdded _), rfl⟩

/-! ### What a command brings in -/

/-- The segments of `add_immutable_segment` before the first that fails. -/
def addedSegments (segments : List (Segment × AddOutcome × Bool)) : List Segment :=
  (segments.takeWhile fun s => s.2.1 = .added).map Prod.fst

theorem querySegment_of_onDisk (h : m.world.Inv) (hdisk : m.world.OnDisk x d) :
    ∃ s ∈ m.world.index.querySegments, s.Holds x d := by
  obtain ⟨p, s, hp, hs, hholds⟩ := hdisk
  have hmem : openHandle m.world.files (.disk p) ∈
      m.world.index.segmentHandles.map (openHandle m.world.files) := mem_map_of_mem hp
  rw [h.files.sync] at hmem
  obtain ⟨s', hs', heq⟩ := mem_map.mp hmem
  obtain rfl : s' = s := some_inj.mp (heq.trans hs)
  exact ⟨s', hs', hholds⟩

theorem held_of_onDisk (h : m.world.Inv) (hdisk : m.world.OnDisk x d) : m.world.Held x d := by
  obtain ⟨s, hs, hholds⟩ := querySegment_of_onDisk h hdisk
  exact ⟨.seg s, mem_cons_of_mem _ (mem_append_right _ (mem_map_of_mem hs)), hholds⟩

theorem addSegments_spec (h : DiskOk m) (segments : List (Segment × AddOutcome × Bool)) :
    Advances ∅ m (m.addSegments segments).2 ∧ Steady m (m.addSegments segments).2 ∧
      ∀ s ∈ addedSegments segments, ∀ x d, m.world.Kept d → s.Holds x d →
        (m.addSegments segments).2.world.OnDisk x d := by
  induction segments generalizing m with
  | nil =>
    refine ⟨.refl h, .refl m, fun s hs => ?_⟩
    cases hs
  | cons first rest ih =>
    obtain ⟨segment, outcome, lineLeft⟩ := first
    simp only [addSegments]
    obtain ⟨left, hleft, heq⟩ : ∃ left, m.manifest ⊆ left ∧
        (if lineLeft then m.manifest ++ [m.world.index.nextSegmentId] else m.manifest) = left := by
      cases lineLeft with
      | false => exact ⟨m.manifest, fun p hp => hp, rfl⟩
      | true => exact ⟨_, subset_append_left _ _, rfl⟩
    rw [heq]
    have hfirst : Advances ∅ m (m.step (.addSegment segment outcome left)) :=
      advances_addSegment h hleft
    have hsteady := steady_addSegment h segment outcome left
    split_ifs with hadded
    · subst hadded
      obtain ⟨hrest, hsteady', hsegments⟩ := ih hfirst.ok
      refine ⟨hfirst.trans hrest, hsteady.trans hsteady', fun s hs x d hkept hholds => ?_⟩
      have hkept' := hfirst.kept d (Set.notMem_empty d) hkept
      have hs' : s ∈ segment :: addedSegments rest := by
        simpa [addedSegments, takeWhile_cons] using hs
      rcases mem_cons.mp hs' with rfl | hs'
      · exact hrest.onDisk d (Set.notMem_empty d) hkept' x
          (onDisk_added h.flush.root hholds)
      · exact hsegments s hs' x d hkept' hholds
    · refine ⟨hfirst, hsteady, fun s hs => ?_⟩
      simp [addedSegments, hadded] at hs

end ManifestWorld

namespace World

/-- The documents of a batch that were merged: all, or those before the flush that failed. -/
def mergedDocuments (threshold : ℕ) (busy : ℕ → Bool) (syncOk : ℕ → Bool) :
    World → ℕ → List AnalyzedDocument → List AnalyzedDocument → List AnalyzedDocument
  | _, _, staged, [] => staged
  | w, n, staged, doc :: rest =>
    if (MemIndex.ofDocuments (staged ++ [doc])).estimatedBytes ≥ threshold then
      staged ++ doc :: match w.mergeStaged threshold busy (syncOk n) (staged ++ [doc]) with
        | (true, w) => mergedDocuments threshold busy syncOk w (n + 1) [] rest
        | (false, _) => []
    else mergedDocuments threshold busy syncOk w n (staged ++ [doc]) rest

end World

namespace ManifestWorld

open World MemIndex List

variable {m : ManifestWorld}

theorem mergeStaged_advances (h : DiskOk m) (threshold : ℕ) (busy : ℕ → Bool) (syncOk : Bool)
    (staged : List AnalyzedDocument) :
    Advances ∅ m { m with world := (m.world.mergeStaged threshold busy syncOk staged).2 } ∧
      Steady m { m with world := (m.world.mergeStaged threshold busy syncOk staged).2 } ∧
      ∀ doc ∈ staged, ∀ x d, m.world.Kept d → (ofDocuments [doc]).Holds x d →
        (m.world.mergeStaged threshold busy syncOk staged).2.Held x d := by
  have hmerge : Advances ∅ m (m.act (.mergeIntoMemtable staged)) :=
    advances_act h trivial (fun _ _ heq => by cases heq)
  have hsteady : Steady m (m.act (.mergeIntoMemtable staged)) := ⟨rfl, rfl⟩
  have hheld : ∀ doc ∈ staged, ∀ x d, (ofDocuments [doc]).Holds x d →
      (m.act (.mergeIntoMemtable staged)).world.Held x d :=
    fun doc hdoc x d hx => held_merge (holds_ofDocuments hdoc hx)
  unfold mergeStaged
  simp only
  split_ifs
  · have hflush : Advances ∅ _ ((m.act (.mergeIntoMemtable staged)).act (.queueFlush busy syncOk)) :=
      advances_act hmerge.ok trivial (fun _ _ heq => by cases heq)
    have hsteady' : Steady _ ((m.act (.mergeIntoMemtable staged)).act (.queueFlush busy syncOk)) :=
      steady_act (fun _ _ _ heq => by cases heq)
    refine ⟨hmerge.trans hflush, hsteady.trans hsteady', fun doc hdoc x d hkept hx => ?_⟩
    exact hflush.held d (Set.notMem_empty d) (hmerge.kept d (Set.notMem_empty d) hkept) x
      (hheld doc hdoc x d hx)
  · exact ⟨hmerge, hsteady, fun doc hdoc x d _ => hheld doc hdoc x d⟩

theorem stageAndMerge_advances (threshold : ℕ) (busy : ℕ → Bool) (syncOk : ℕ → Bool)
    (docs : List AnalyzedDocument) (h : DiskOk m) (n : ℕ) (staged : List AnalyzedDocument) :
    Advances ∅ m
        { m with world := (stageAndMerge threshold busy syncOk m.world n staged docs).2 } ∧
      Steady m
        { m with world := (stageAndMerge threshold busy syncOk m.world n staged docs).2 } ∧
      ∀ doc ∈ mergedDocuments threshold busy syncOk m.world n staged docs,
        ∀ x d, m.world.Kept d → (ofDocuments [doc]).Holds x d →
          (stageAndMerge threshold busy syncOk m.world n staged docs).2.Held x d := by
  induction docs generalizing m n staged with
  | nil => exact mergeStaged_advances h threshold busy (syncOk n) staged
  | cons first rest ih =>
    unfold stageAndMerge mergedDocuments
    split_ifs with hfull
    · obtain ⟨hmoved, hsteady, hheld⟩ :=
        mergeStaged_advances h threshold busy (syncOk n) (staged ++ [first])
      rcases hmerge : m.world.mergeStaged threshold busy (syncOk n) (staged ++ [first]) with ⟨ok, w⟩
      rw [hmerge] at hmoved hsteady hheld
      cases ok with
      | false =>
        refine ⟨hmoved, hsteady, fun doc hdoc => hheld doc ?_⟩
        simpa using hdoc
      | true =>
        obtain ⟨hrest, hsteady', hdone⟩ := ih hmoved.ok (n + 1) []
        refine ⟨hmoved.trans hrest, hsteady.trans hsteady', fun doc hdoc x d hkept hx => ?_⟩
        have hkept' := hmoved.kept d (Set.notMem_empty d) hkept
        rw [← singleton_append, ← append_assoc] at hdoc
        rcases mem_append.mp hdoc with hdoc | hdoc
        · exact hrest.held d (Set.notMem_empty d) hkept' x (hheld doc hdoc x d hkept hx)
        · exact hdone doc hdoc x d hkept' hx
    · exact ih h n (staged ++ [first])

theorem act_spec (deletes : Set DocId) (h : DiskOk m) {a : IndexAction}
    (hst : m.Orderly (.act a m.manifest)) (hwrite : ∀ seq w p, a ≠ .completeFlush seq w p)
    (ha : ∀ d ok, a = .deleteDocument d ok → d ∈ deletes) :
    Advances deletes m (m.act a) ∧ Steady m (m.act a) :=
  ⟨advances_act h hst ha, steady_act hwrite⟩

theorem complete_advances (h : DiskOk m) (writeOk appendOk lineLeft : Bool) :
    Advances ∅ m (m.complete writeOk appendOk lineLeft) := by
  rw [complete]
  cases hwriting : m.world.writing with
  | nil => exact .refl h
  | cons job rest =>
    refine advances_act h ⟨⟨job, rest, hwriting, rfl⟩, fun p hp => ?_⟩ fun _ _ heq => by cases heq
    cases lineLeft with
    | false => exact hp
    | true => exact mem_append_left _ hp

end ManifestWorld

def IndexCommand.deletes : IndexCommand → Set DocId
  | .deleteDocument docId _ => {docId}
  | _ => ∅

namespace WorkerLoop

open ManifestWorld

variable {k : WorkerLoop} {x : XPathId} {d : DocId}

/-- The command brings in id `d` on field `x`, with a document that was merged or in
a segment that was added. -/
def Adds (k : WorkerLoop) (c : IndexCommand) (x : XPathId) (d : DocId) : Prop :=
  match c with
  | .addIndexedDocuments (some docs) busy syncOk =>
    ∃ doc ∈ World.mergedDocuments k.flushThreshold busy syncOk k.disk.world 0 [] docs,
      (MemIndex.ofDocuments [doc]).Holds x d
  | .addSegment segments => ∃ s ∈ addedSegments segments, s.Holds x d
  | _ => False

theorem handle_spec (h : k.disk.DiskOk) {c : IndexCommand}
    (hc : ∀ w p l, c ≠ .segmentWritten w p l) :
    Advances c.deletes k.disk (k.handle c).disk ∧
      Steady k.disk (k.handle c).disk := by
  cases c with
  | addIndexedDocuments documents busy syncOk =>
    match documents with
    | none => exact ⟨.refl h, .refl _⟩
    | some [] => exact ⟨.refl h, .refl _⟩
    | some (doc :: docs) =>
      obtain ⟨hadv, hsteady, -⟩ := stageAndMerge_advances k.flushThreshold busy syncOk
        (doc :: docs) h 0 []
      exact ⟨hadv, hsteady⟩
  | deleteDocument docId appendOk =>
    refine act_spec _ h trivial (fun _ _ _ heq => by cases heq) fun d ok heq => ?_
    cases heq
    exact Set.mem_singleton docId
  | addSegment segments =>
    obtain ⟨hadv, hsteady, -⟩ := addSegments_spec h segments
    exact ⟨hadv, hsteady⟩
  | flush busy syncOk =>
    obtain ⟨hadv, hsteady⟩ := act_spec ∅ (a := .queueFlush busy syncOk) h
      trivial (fun _ _ _ heq => by cases heq) fun d ok heq => by cases heq
    simp only [handle]
    split_ifs
    · obtain ⟨hadv', hsteady'⟩ := act_spec ∅ (a := .takeFlushJobs) hadv.ok
        trivial (fun _ _ _ heq => by cases heq) fun d ok heq => by cases heq
      exact ⟨hadv.trans hadv', hsteady.trans hsteady'⟩
    · exact ⟨hadv, hsteady⟩
  | segmentWritten writeOk appendOk lineLeft => exact absurd rfl (hc writeOk appendOk lineLeft)
  | planCompaction config quiet fileSize =>
    exact act_spec ∅ h trivial (fun _ _ _ heq => by cases heq) fun d ok heq => by cases heq
  | runCompaction jobId ok =>
    exact act_spec ∅ h trivial (fun _ _ _ heq => by cases heq) fun d ok heq => by cases heq
  | installCompaction jobId openOk clearOk =>
    exact act_spec ∅ h rfl (fun _ _ _ heq => by cases heq) fun d ok heq => by cases heq

theorem handle_advances (h : k.disk.DiskOk) (c : IndexCommand) :
    Advances c.deletes k.disk (k.handle c).disk := by
  by_cases hc : ∃ w p l, c = .segmentWritten w p l
  · obtain ⟨writeOk, appendOk, lineLeft, rfl⟩ := hc
    exact complete_advances h writeOk appendOk lineLeft
  · exact (handle_spec h fun w p l heq => hc ⟨w, p, l, heq⟩).1

theorem held_handle (h : k.disk.DiskOk) {c : IndexCommand} (hkept : k.disk.world.Kept d)
    (hadds : k.Adds c x d) : (k.handle c).disk.world.Held x d := by
  cases c with
  | addIndexedDocuments documents busy syncOk =>
    match documents with
    | none => exact hadds.elim
    | some [] =>
      obtain ⟨doc, hdoc, -⟩ := hadds
      cases hdoc
    | some (doc :: docs) =>
      obtain ⟨-, -, hheld⟩ := stageAndMerge_advances k.flushThreshold busy syncOk
        (doc :: docs) h 0 []
      obtain ⟨added, hadded, hx⟩ := hadds
      exact hheld added hadded x d hkept hx
  | addSegment segments =>
    obtain ⟨hadv, -, hsegments⟩ := addSegments_spec h segments
    obtain ⟨s, hs, hx⟩ := hadds
    exact held_of_onDisk hadv.ok.inv (hsegments s hs x d hkept hx)
  | deleteDocument => exact hadds.elim
  | flush => exact hadds.elim
  | segmentWritten => exact hadds.elim
  | planCompaction => exact hadds.elim
  | runCompaction => exact hadds.elim
  | installCompaction => exact hadds.elim

/-- What follows every command: a snapshot perhaps, and the writes are handed over. -/
def settle (k : WorkerLoop) (publish : Option (ℕ → Bool)) : WorkerLoop :=
  let published := match publish with
    | some busy => { k with disk := k.disk.act (.publishSnapshot busy) }
    | none => k
  { published with disk := published.disk.act .takeFlushJobs, count := k.count + 1 }

theorem handle_count (k : WorkerLoop) (c : IndexCommand) : (k.handle c).count = k.count := by
  cases c with
  | addIndexedDocuments documents busy syncOk =>
    match documents with
    | none => rfl
    | some [] => rfl
    | some (doc :: docs) => rfl
  | flush busy syncOk =>
    simp only [handle]
    split_ifs
    · rfl
    · rfl
  | _ => rfl

theorem step_eq (k : WorkerLoop) (c : IndexCommand × Option (ℕ → Bool)) :
    k.step c = (k.handle c.1).settle c.2 := by
  simp only [step, settle, handle_count]

theorem settle_spec (h : k.disk.DiskOk) (publish : Option (ℕ → Bool)) :
    Advances ∅ k.disk (k.settle publish).disk ∧
      Steady k.disk (k.settle publish).disk := by
  cases publish with
  | none =>
    exact act_spec ∅ h trivial (fun _ _ _ heq => by cases heq) fun d ok heq => by cases heq
  | some busy =>
    obtain ⟨hadv, hsteady⟩ := act_spec ∅ (a := .publishSnapshot busy) h
      trivial (fun _ _ _ heq => by cases heq) fun d ok heq => by cases heq
    obtain ⟨hadv', hsteady'⟩ := act_spec ∅ (a := .takeFlushJobs) hadv.ok
      trivial (fun _ _ _ heq => by cases heq) fun d ok heq => by cases heq
    exact ⟨hadv.trans hadv', hsteady.trans hsteady'⟩

theorem step_advances (h : k.disk.DiskOk) (c : IndexCommand × Option (ℕ → Bool)) :
    Advances c.1.deletes k.disk (k.step c).disk := by
  have hhandle := handle_advances h c.1
  rw [step_eq]
  exact hhandle.trans ((settle_spec hhandle.ok c.2).1.mono (Set.empty_subset _))

def deletedIn (cs : List (IndexCommand × Option (ℕ → Bool))) : Set DocId :=
  {d | ∃ c ∈ cs, d ∈ c.1.deletes}

theorem run_advances (h : k.disk.DiskOk) (cs : List (IndexCommand × Option (ℕ → Bool))) :
    Advances (deletedIn cs) k.disk (k.run cs).disk := by
  induction cs generalizing k with
  | nil => exact .refl h
  | cons c cs ih =>
    have hstep := step_advances h c
    refine (hstep.mono fun d hd => ?_).trans ((ih hstep.ok).mono fun d hd => ?_)
    · exact ⟨c, List.mem_cons_self, hd⟩
    · obtain ⟨c', hc', hd⟩ := hd
      exact ⟨c', List.mem_cons_of_mem c hc', hd⟩

end WorkerLoop

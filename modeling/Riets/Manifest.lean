/-
The manifest of an index.

`manifest.txt` names the live segment files, one a line.  A finished flush and a
segment that is added append their line, the install of a compaction writes the
whole file anew.  `LsmIndex::persistent` opens the files in the order of the lines.
-/
import Riets.FlushProgress

/-- What happens to a segment that is added: it is written, opened and listed, or
one of the three fails. -/
inductive AddOutcome where
  | added
  | writeFailed
  | openFailed
  | appendFailed
  deriving DecidableEq

def AddOutcome.wrote : AddOutcome → Bool
  | .writeFailed => false
  | _ => true

namespace LsmIndex

/-- One segment of `add_immutable_segment`.  Its number is used up also when it
fails. -/
def addImmutableSegment (i : LsmIndex) (segment : Segment) (outcome : AddOutcome) :
    IoResult Unit × LsmIndex :=
  if i.hasRoot then
    let taken := { i with nextSegmentId := i.nextSegmentId + 1 }
    match outcome with
    | .added =>
      (.ok (),
        { taken with
          segmentHandles := i.segmentHandles ++ [.disk i.nextSegmentId]
          querySegments := i.querySegments ++ [segment.openWritten]
          flushQueue := i.flushQueue.segmentAdded })
    | .writeFailed => (.error "write segment", taken)
    | .openFailed => (.error "open segment", taken)
    | .appendFailed => (.error "append segment", taken)
  else
    (.ok (),
      { i with
        segmentHandles := i.segmentHandles ++ [.memory segment]
        querySegments := i.querySegments ++ [segment]
        flushQueue := i.flushQueue.segmentAdded })

end LsmIndex

namespace World

def addSegment (w : World) (segment : Segment) (outcome : AddOutcome) : World :=
  { w with
    index := (w.index.addImmutableSegment segment outcome).2
    files := if w.index.hasRoot ∧ outcome.wrote then
        w.files.insert w.index.nextSegmentId segment.openWritten
      else w.files }

end World

structure ManifestWorld where
  world : World
  manifest : List ℕ

inductive ManifestStep where
  /-- An action; `left` is what a failed write leaves in the manifest. -/
  | act (a : IndexAction) (left : List ℕ)
  /-- One segment of `add_immutable_segment`. -/
  | addSegment (segment : Segment) (outcome : AddOutcome) (left : List ℕ)

namespace ManifestWorld

/-- What an action does to the manifest: `append_segment` of a written segment,
and `compact_manifest` with the new list of segments. -/
def manifestAfter (m : ManifestWorld) (a : IndexAction) (left : List ℕ) : List ℕ :=
  match a with
  | .completeFlush seq writeOk appendOk =>
    match m.world.writing.find? fun job => job.seq = seq, m.world.index.flushQueue.complete seq with
    | some _, .ok (pending, _) =>
      if writeOk ∧ m.world.index.hasRoot then
        if appendOk then m.manifest ++ [pending.path] else left
      else m.manifest
    | _, _ => m.manifest
  | .installCompaction jobId openOk manifestOk _ =>
    match m.world.finished.find? fun job => job.jobId = jobId with
    | some job =>
      if m.world.index.hasRoot ∧ ¬m.world.index.isStale job.completed ∧
          (m.world.output job openOk).isOk then
        if manifestOk then (m.world.step a).live else left
      else m.manifest
    | none => m.manifest
  | _ => m.manifest

def step (m : ManifestWorld) : ManifestStep → ManifestWorld
  | .act a left => ⟨m.world.step a, m.manifestAfter a left⟩
  | .addSegment segment outcome left =>
    { world := m.world.addSegment segment outcome
      manifest :=
        if m.world.index.hasRoot then
          match outcome with
          | .added => m.manifest ++ [m.world.index.nextSegmentId]
          | .appendFailed => left
          | _ => m.manifest
        else m.manifest }

def run (m : ManifestWorld) (steps : List ManifestStep) : ManifestWorld := steps.foldl step m

def start (manifest : List (ℕ × Segment)) (deleted : DeleteSet) : ManifestWorld :=
  ⟨World.start manifest deleted, manifest.map Prod.fst⟩

def openSegments (m : ManifestWorld) : Option (List (ℕ × Segment)) :=
  m.manifest.mapM fun p => (m.world.files.get? p).map fun s => (p, s)

/-- `LsmIndex::persistent` on the directory; none when a file is missing. -/
def persistent (m : ManifestWorld) (deleted : DeleteSet) : Option LsmIndex :=
  m.openSegments.map fun segments => LsmIndex.persistent segments deleted

end ManifestWorld

/-! ### What adding a segment keeps -/

namespace World

open List SortedMap LsmIndex FlushQueue Nat PendingFlush

variable {w : World} {segment : Segment} {x : XPathId} {d : DocId}

theorem addSegment_cases (hroot : w.index.hasRoot = true) (segment : Segment)
    (outcome : AddOutcome) :
    (outcome ≠ .added ∧ ∃ files,
      (files = w.files ∨ files = w.files.insert w.index.nextSegmentId segment.openWritten) ∧
      w.addSegment segment outcome = { w with
          index := { w.index with nextSegmentId := w.index.nextSegmentId + 1 }
          files := files }) ∨
    (outcome = .added ∧ w.addSegment segment outcome = { w with
        index := { w.index with
          nextSegmentId := w.index.nextSegmentId + 1
          segmentHandles := w.index.segmentHandles ++ [.disk w.index.nextSegmentId]
          querySegments := w.index.querySegments ++ [segment.openWritten]
          flushQueue := w.index.flushQueue.segmentAdded }
        files := w.files.insert w.index.nextSegmentId segment.openWritten }) := by
  cases outcome with
  | added =>
    refine .inr ⟨rfl, ?_⟩
    simp only [addSegment, addImmutableSegment, hroot]
    rfl
  | writeFailed =>
    refine .inl ⟨by decide, w.files, .inl rfl, ?_⟩
    simp only [addSegment, addImmutableSegment, hroot]
    rfl
  | openFailed =>
    refine .inl ⟨by decide, _, .inr rfl, ?_⟩
    simp only [addSegment, addImmutableSegment, hroot]
    rfl
  | appendFailed =>
    refine .inl ⟨by decide, _, .inr rfl, ?_⟩
    simp only [addSegment, addImmutableSegment, hroot]
    rfl

theorem mem_segmentAdded {q : FlushQueue} {p : PendingFlush} (hp : p ∈ q.pending) :
    ∃ p' ∈ q.segmentAdded.pending, p'.seq = p.seq ∧ p'.path = p.path ∧
      p'.generations = p.generations :=
  ⟨_, mem_map_of_mem hp, rfl, rfl, rfl⟩

@[simp] theorem map_seq_segmentAdded (q : FlushQueue) :
    q.segmentAdded.pending.map seq = q.pending.map seq := by
  rw [segmentAdded, map_map]
  rfl

@[simp] theorem map_path_segmentAdded (q : FlushQueue) :
    q.segmentAdded.pending.map path = q.pending.map path := by
  rw [segmentAdded, map_map]
  rfl

@[simp] theorem length_segmentAdded (q : FlushQueue) :
    q.segmentAdded.pending.length = q.pending.length := by
  rw [segmentAdded, length_map]

namespace FilesOk

theorem takeNumber (h : FilesOk w) {files : SortedMap ℕ Segment}
    (hfiles : ∀ p, p ≠ w.index.nextSegmentId → files.get? p = w.files.get? p) :
    FilesOk { w with
      index := { w.index with nextSegmentId := w.index.nextSegmentId + 1 }
      files := files } := by
  have hset : FilesOk { w with files := files } := by
    refine h.setFiles (fun p hp => hfiles p ?_) fun job hjob => hfiles _ ?_
    · rintro rfl
      exact h.next_fresh (mem_append_left _ hp)
    · intro heq
      refine h.next_fresh (mem_append_right _ (mem_append_right _ ?_))
      exact heq ▸ mem_map_of_mem (mem_append_right _ hjob)
  exact
    { sync := hset.sync
      paths_nodup := hset.paths_nodup
      paths_lt := fun p hp => (hset.paths_lt p hp).trans (lt_succ_self _)
      jobs_ok := fun job hj => (hset.jobs_ok job hj).mono (le_succ _) (fun _ => .inl) rfl
        subset_rfl
      outputs := hset.outputs }

theorem addSegment (h : FilesOk w) (segment : Segment) :
    FilesOk { w with
      index := { w.index with
        nextSegmentId := w.index.nextSegmentId + 1
        segmentHandles := w.index.segmentHandles ++ [.disk w.index.nextSegmentId]
        querySegments := w.index.querySegments ++ [segment.openWritten]
        flushQueue := w.index.flushQueue.segmentAdded }
      files := w.files.insert w.index.nextSegmentId segment.openWritten } := by
  have hother : ∀ p, p ≠ w.index.nextSegmentId →
      (w.files.insert w.index.nextSegmentId segment.openWritten).get? p = w.files.get? p := by
    intro p hp
    rw [get?_insert, if_neg hp]
  have htake := h.takeNumber hother
  set w' : World := { w with
    index := { w.index with
      nextSegmentId := w.index.nextSegmentId + 1
      segmentHandles := w.index.segmentHandles ++ [.disk w.index.nextSegmentId]
      querySegments := w.index.querySegments ++ [segment.openWritten]
      flushQueue := w.index.flushQueue.segmentAdded }
    files := w.files.insert w.index.nextSegmentId segment.openWritten }
  have hlive : w'.live = w.live ++ [w.index.nextSegmentId] := filterMap_append
  have hres : w'.reserved = w.reserved := by
    show w.index.flushQueue.segmentAdded.pending.map path ++ _ = _
    rw [map_path_segmentAdded]
    rfl
  have hperm : (w'.live ++ w'.reserved).Perm
      (w.index.nextSegmentId :: (w.live ++ w.reserved)) := by
    rw [hlive, hres, append_assoc]
    exact perm_middle
  refine ⟨?_, ?_, fun p hp => ?_, fun job hj => ?_, fun job hj hsel => ?_⟩
  · show (w.index.segmentHandles ++ [SegmentHandle.disk w.index.nextSegmentId]).map _ =
      (w.index.querySegments ++ [segment.openWritten]).map some
    have hself : w'.files.get? w.index.nextSegmentId = some segment.openWritten := by
      show (w.files.insert _ _).get? _ = _
      rw [get?_insert, if_pos rfl]
    rw [map_append, map_append, htake.sync]
    simp [openHandle, hself]
  · exact hperm.nodup_iff.mpr (nodup_cons.mpr ⟨h.next_fresh, h.paths_nodup⟩)
  · rcases mem_cons.mp (hperm.mem_iff.mp hp) with rfl | hp
    · exact lt_succ_self _
    · exact (h.paths_lt p hp).trans (lt_succ_self _)
  · refine (h.jobs_ok job hj).mono (le_succ _) (fun p hp => .inl (hres ▸ hp)) rfl subset_rfl
  · -- the selected segments are older than the new one
    refine htake.outputs job hj fun handle hh => ?_
    rcases mem_append.mp (hsel handle hh) with hin | hin
    · exact hin
    · obtain ⟨p, rfl, hlt, -⟩ := (h.jobs_ok job (mem_append_right _ hj)).old handle hh
      cases mem_singleton.mp hin
      exact absurd hlt (lt_irrefl _)

theorem exists_file (h : FilesOk w) {p : ℕ} (hp : p ∈ w.live) : ∃ s, w.files.get? p = some s := by
  have hmem : openHandle w.files (.disk p) ∈ w.index.segmentHandles.map (openHandle w.files) :=
    mem_map_of_mem (mem_live.mp hp)
  rw [h.sync] at hmem
  obtain ⟨s, -, hs⟩ := mem_map.mp hmem
  exact ⟨s, hs.symm⟩

end FilesOk

theorem queueOk_segmentAdded (h : QueueOk w) {i : LsmIndex} {files : SortedMap ℕ Segment}
    (hi : i.flushQueue = w.index.flushQueue.segmentAdded) :
    QueueOk { w with index := i, files := files } where
  seqs_nodup := by
    show (i.flushQueue.pending.map seq).Nodup
    rw [hi, map_seq_segmentAdded]
    exact h.seqs_nodup
  seqs_lt p hp := by
    have hp' : p ∈ w.index.flushQueue.segmentAdded.pending := hi ▸ hp
    obtain ⟨q, hq, rfl⟩ := mem_map.mp hp'
    show q.seq < i.flushQueue.nextSeq
    rw [hi]
    exact h.seqs_lt q hq
  jobs_nodup := by
    show ((i.flushQueue.madeNotFlushed ++ w.writing).map FlushJob.seq).Nodup
    rw [hi]
    exact h.jobs_nodup
  flushes job hjob := by
    have hjob' : job ∈ w.flushJobs := by
      rw [flushJobs] at hjob ⊢
      rw [show i.flushQueue.madeNotFlushed = w.index.flushQueue.madeNotFlushed by rw [hi]; rfl] at hjob
      exact hjob
    obtain ⟨p, hp, hseq, hpath, hgen⟩ := h.flushes job hjob'
    obtain ⟨p', hp', hseq', hpath', hgen'⟩ := mem_segmentAdded hp
    exact ⟨p', hi ▸ hp', hseq'.trans hseq, hpath'.trans hpath, hgen'.trans hgen⟩

theorem inv_addSegment (h : Inv w) (hroot : w.index.hasRoot = true) (segment : Segment)
    (outcome : AddOutcome) : Inv (w.addSegment segment outcome) := by
  rcases addSegment_cases hroot segment outcome with ⟨-, files, hfiles, hw⟩ | ⟨-, hw⟩
  · rw [hw]
    refine ⟨h.files.takeNumber fun p hp => ?_, h.queue.frame rfl,
      ⟨h.tables.generations, h.tables.mem⟩⟩
    rcases hfiles with rfl | rfl
    · rfl
    · rw [get?_insert, if_neg hp]
  · rw [hw]
    exact ⟨h.files.addSegment segment, queueOk_segmentAdded h.queue rfl,
      ⟨h.tables.generations, h.tables.mem⟩⟩

theorem flushOk_addSegment (h : FlushOk w) (segment : Segment) (outcome : AddOutcome) :
    FlushOk (w.addSegment segment outcome) := by
  rcases addSegment_cases h.root segment outcome with ⟨-, files, -, hw⟩ | ⟨-, hw⟩
  · rw [hw]
    exact ⟨h.root, h.seqs, h.length_le, h.disk, h.mem⟩
  · rw [hw]
    refine ⟨h.root, ?_, ?_, fun hnone handle hh => ?_, h.mem⟩
    · show w.index.flushQueue.segmentAdded.pending.map seq = _
      rw [map_seq_segmentAdded, h.seqs]
      simp only [length_segmentAdded]
      rfl
    · show w.index.flushQueue.segmentAdded.pending.length ≤ _
      rw [length_segmentAdded]
      exact h.length_le
    · rcases mem_append.mp hh with hin | hin
      · exact h.disk hnone handle hin
      · exact ⟨_, mem_singleton.mp hin⟩

theorem onDisk_addSegment (h : Inv w) (hroot : w.index.hasRoot = true) (segment : Segment)
    (outcome : AddOutcome) (hdisk : w.OnDisk x d) : (w.addSegment segment outcome).OnDisk x d := by
  obtain ⟨p, s, hp, hs, hholds⟩ := hdisk
  have hne : p ≠ w.index.nextSegmentId := by
    rintro rfl
    exact h.files.next_fresh (mem_append_left _ (mem_live.mpr hp))
  have hget : (w.files.insert w.index.nextSegmentId segment.openWritten).get? p = some s := by
    rw [get?_insert, if_neg hne, hs]
  rcases addSegment_cases hroot segment outcome with ⟨-, files, hfiles, hw⟩ | ⟨-, hw⟩
  · rw [hw]
    refine ⟨p, s, hp, ?_, hholds⟩
    rcases hfiles with rfl | rfl
    · exact hs
    · exact hget
  · rw [hw]
    exact ⟨p, s, mem_append_left _ hp, hget, hholds⟩

theorem onDisk_added (hroot : w.index.hasRoot = true) (hholds : segment.Holds x d) :
    (w.addSegment segment .added).OnDisk x d := by
  rcases addSegment_cases hroot segment .added with ⟨hne, -⟩ | ⟨-, hw⟩
  · exact absurd rfl hne
  · rw [hw]
    refine ⟨w.index.nextSegmentId, segment.openWritten,
      mem_append_right _ (mem_singleton.mpr rfl), ?_, Segment.holds_openWritten.mpr hholds⟩
    show (w.files.insert _ _).get? _ = _
    rw [get?_insert, if_pos rfl]

theorem flushedBelow_addSegment (h : Inv w) (hroot : w.index.hasRoot = true) (segment : Segment)
    (outcome : AddOutcome) {n : ℕ} (hflushed : w.FlushedBelow n x d) :
    (w.addSegment segment outcome).FlushedBelow n x d := by
  rcases hflushed with hf | hdisk | ⟨p, hp, hlt, hg⟩
  · left
    rcases addSegment_cases hroot segment outcome with ⟨-, files, -, hw⟩ | ⟨-, hw⟩
    · rw [hw]
      exact hf
    · rw [hw]
      exact hf
  · exact .inr (.inl (onDisk_addSegment h hroot segment outcome hdisk))
  · right
    right
    rcases addSegment_cases hroot segment outcome with ⟨-, files, -, hw⟩ | ⟨-, hw⟩
    · rw [hw]
      exact ⟨p, hp, hlt, hg⟩
    · obtain ⟨p', hp', hseq, -, hgen⟩ := mem_segmentAdded hp
      rw [hw]
      exact ⟨p', hp', hseq ▸ hlt, hgen ▸ hg⟩

theorem held_addSegment (hroot : w.index.hasRoot = true) (segment : Segment) (outcome : AddOutcome)
    (hheld : w.Held x d) : (w.addSegment segment outcome).Held x d := by
  obtain ⟨r, hr, hholds⟩ := hheld
  refine ⟨r, ?_, hholds⟩
  rcases addSegment_cases hroot segment outcome with ⟨-, files, -, hw⟩ | ⟨-, hw⟩
  · rw [hw]
    exact hr
  · rw [hw]
    rcases mem_cons.mp hr with rfl | hr
    · exact mem_cons_self
    refine mem_cons_of_mem _ ?_
    rcases mem_append.mp hr with hr | hr
    · refine mem_append_left _ ?_
      rcases mem_append.mp hr with hr | hr
      · exact mem_append_left _ hr
      · obtain ⟨p, hp, hg⟩ := mem_flatMap.mp hr
        obtain ⟨p', hp', -, -, hgen⟩ := mem_segmentAdded hp
        exact mem_append_right _ (mem_flatMap.mpr ⟨p', hp', hgen ▸ hg⟩)
    · obtain ⟨s, hs, rfl⟩ := mem_map.mp hr
      exact mem_append_right _ (mem_map_of_mem (mem_append_left _ hs))

end World

/-! ### The manifest and the live segments -/

namespace ManifestWorld

open List World LsmIndex SegmentHandle

variable {m : ManifestWorld}

/-- What a step under its condition can do to the live segments and to the
manifest. -/
inductive Move (m m' : ManifestWorld) : Prop
  | same : m'.world.live = m.world.live → m'.manifest = m.manifest → Move m m'
  | installed (front : PendingFlush) (rest : List PendingFlush) :
      m.world.index.flushQueue.pending = front :: rest →
      m'.world.index.segmentHandles = m.world.index.segmentHandles.insertIdx
        (m.world.index.flushPosition front) (.disk front.path) →
      (∀ h ∈ m.world.index.segmentHandles.drop (m.world.index.flushPosition front),
        h.path? = none) →
      m'.manifest = m.manifest ++ [front.path] → Move m m'
  | added (p : ℕ) : m'.world.live = m.world.live ++ [p] → m'.manifest = m.manifest ++ [p] →
      Move m m'
  | rewritten : m'.manifest = m'.world.live → Move m m'

/-- The condition on one step: no disk segment stands behind the place of a flush
that is installed, and no write of the manifest fails and leaves something
else. -/
def StepOk (m : ManifestWorld) : ManifestStep → Prop
  | .act (.completeFlush seq writeOk appendOk) left =>
    ∀ front ∈ m.world.index.flushQueue.pending.head?, front.seq = seq → writeOk = true →
      if appendOk then ∀ h ∈ m.world.index.segmentHandles.drop (m.world.index.flushPosition front),
        h.path? = none
      else left = m.manifest
  | .act (.installCompaction _ _ manifestOk _) _ => manifestOk = true
  | .addSegment _ .appendFailed left => left = m.manifest
  | _ => True

def Meets (m : ManifestWorld) : List ManifestStep → Prop
  | [] => True
  | st :: steps => m.StepOk st ∧ (m.step st).Meets steps

theorem complete_eq_ok {q queue : FlushQueue} {seq : ℕ} {pending : PendingFlush}
    (h : q.complete seq = .ok (pending, queue)) :
    ∃ rest, q.pending = pending :: rest ∧ pending.seq = seq ∧
      queue = { q with pending := rest } := by
  unfold FlushQueue.complete at h
  split at h
  · next front rest hpending =>
    split_ifs at h with hseq
    cases h
    exact ⟨rest, hpending, hseq, rfl⟩
  · cases h

theorem live_memory {handles : List SegmentHandle} (n : ℕ) (segment : Segment) :
    (handles.insertIdx n (.memory segment)).filterMap path? =
      handles.filterMap path? := by
  induction handles generalizing n with
  | nil => cases n <;> rfl
  | cons handle handles ih =>
    cases n with
    | zero => rfl
    | succ n =>
      rw [insertIdx_succ_cons, filterMap_cons, filterMap_cons, ih]

theorem move_completeFlush (hroot : m.world.index.hasRoot = true) {seq : ℕ} {writeOk appendOk : Bool}
    {left : List ℕ} (hst : m.StepOk (.act (.completeFlush seq writeOk appendOk) left)) :
    Move m (m.step (.act (.completeFlush seq writeOk appendOk) left)) := by
  simp only [step, manifestAfter, World.step, World.completeFlush, hroot]
  cases hfind : m.world.writing.find? fun job => job.seq = seq with
  | none => exact .same rfl rfl
  | some job =>
    cases hcomplete : m.world.index.flushQueue.complete seq with
    | error e =>
      simp only [LsmIndex.completeFlush, hcomplete]
      exact .same rfl rfl
    | ok done =>
      obtain ⟨pending, queue⟩ := done
      obtain ⟨rest, hpending, hseq, rfl⟩ := complete_eq_ok hcomplete
      have hst' := hst pending (by rw [hpending]; rfl) hseq
      cases writeOk with
      | false =>
        simp only [LsmIndex.completeFlush, hcomplete]
        exact .same (live_memory _ _) rfl
      | true =>
        cases appendOk with
        | false =>
          simp only [LsmIndex.completeFlush, hcomplete, installFlushed, hroot]
          exact .same (live_memory _ _) (hst' rfl)
        | true =>
          simp only [LsmIndex.completeFlush, hcomplete, installFlushed, hroot]
          exact .installed pending rest hpending rfl (hst' rfl) rfl

theorem move_installCompaction (hroot : m.world.index.hasRoot = true) {jobId : ℕ}
    {openOk clearOk : Bool} {left : List ℕ} :
    Move m (m.step (.act (.installCompaction jobId openOk true clearOk) left)) := by
  cases hfind : m.world.finished.find? fun job => job.jobId = jobId with
  | none =>
    simp only [step, manifestAfter, World.step, World.installCompaction, hfind]
    exact .same rfl rfl
  | some job =>
    by_cases hstale : m.world.index.isStale job.completed = true
    · simp only [step, manifestAfter, World.step, World.installCompaction, hfind, hroot, hstale,
        LsmIndex.installCompaction]
      exact .same rfl rfl
    · cases hout : m.world.output job openOk with
      | error e =>
        simp only [step, manifestAfter, World.step, World.installCompaction, hfind, hroot, hstale,
          LsmIndex.installCompaction, hout]
        exact .same rfl rfl
      | ok disk =>
        refine .rewritten ?_
        simp only [step, manifestAfter, hfind, hroot, hstale, hout]
        rfl

theorem move_step (hroot : m.world.index.hasRoot = true) {st : ManifestStep}
    (hst : m.StepOk st) : Move m (m.step st) := by
  cases st with
  | addSegment segment outcome left =>
    rcases addSegment_cases hroot segment outcome with ⟨hne, files, -, hw⟩ | ⟨rfl, hw⟩
    · refine .same ?_ ?_
      · show (m.world.addSegment segment outcome).live = _
        rw [hw]
        rfl
      · simp only [step, hroot]
        cases outcome with
        | added => exact absurd rfl hne
        | writeFailed => rfl
        | openFailed => rfl
        | appendFailed => exact hst
    · refine .added m.world.index.nextSegmentId ?_ ?_
      · show (m.world.addSegment segment .added).live = _
        rw [hw]
        exact filterMap_append
      · simp only [step, hroot]
        rfl
  | act a left =>
    have hbuf := m.world.step_buffered (a := a)
    cases a with
    | mergeIntoMemtable docs => exact .same rfl rfl
    | deleteDocument docId appendOk => exact .same rfl rfl
    | completeFlush seq writeOk appendOk => exact move_completeFlush hroot hst
    | runCompaction jobId ok =>
      refine .same ?_ rfl
      show live (m.world.runCompaction jobId ok) = _
      rcases m.world.runCompaction_cases jobId ok with hw | hw | ⟨_, -, _, -, -, hw⟩
      · rw [hw]
      · rw [hw]
        rfl
      · rw [hw]
        rfl
    | installCompaction jobId openOk manifestOk clearOk =>
      obtain rfl : manifestOk = true := hst
      exact move_installCompaction hroot
    | _ => exact .same ((hbuf trivial).live hroot) rfl

theorem live_insertIdx {handles : List SegmentHandle} {n : ℕ} (hn : n ≤ handles.length)
    (hbehind : ∀ h ∈ handles.drop n, h.path? = none) (p : ℕ) :
    (handles.insertIdx n (.disk p)).filterMap path? =
      handles.filterMap path? ++ [p] := by
  induction handles generalizing n with
  | nil =>
    obtain rfl : n = 0 := Nat.le_zero.mp hn
    rfl
  | cons handle handles ih =>
    cases n with
    | zero =>
      have hnone : (handle :: handles).filterMap path? = [] :=
        filterMap_eq_nil_iff.mpr hbehind
      rw [insertIdx_zero, filterMap_cons, hnone]
      rfl
    | succ n =>
      rw [insertIdx_succ_cons, filterMap_cons, filterMap_cons,
        ih (Nat.le_of_succ_le_succ hn) hbehind]
      cases handle.path? <;> rfl

theorem manifest_step (hroot : m.world.index.hasRoot = true) {st : ManifestStep} (hst : m.StepOk st) (hlisted : m.manifest = m.world.live) :
    (m.step st).manifest = (m.step st).world.live := by
  cases move_step hroot hst with
  | same hlive hmanifest => rw [hmanifest, hlive, hlisted]
  | added p hlive hmanifest => rw [hmanifest, hlive, hlisted]
  | rewritten hmanifest => exact hmanifest
  | installed front rest hpending hhandles hbehind hmanifest =>
    rw [hmanifest, hlisted]
    show _ = (m.step st).world.index.segmentHandles.filterMap path?
    rw [hhandles]
    exact (live_insertIdx (Nat.sub_le _ _) hbehind front.path).symm

theorem ok_step (h : m.world.Inv) (hok : m.world.FlushOk) (st : ManifestStep) :
    (m.step st).world.Inv ∧ (m.step st).world.FlushOk := by
  cases st with
  | act a left => exact ⟨inv_step h a, flushOk_step h hok a⟩
  | addSegment segment outcome left =>
    exact ⟨inv_addSegment h hok.root segment outcome, flushOk_addSegment hok segment outcome⟩

theorem manifest_run (h : m.world.Inv) (hok : m.world.FlushOk) {steps : List ManifestStep}
    (hmeets : m.Meets steps) (hlisted : m.manifest = m.world.live) :
    (m.run steps).world.Inv ∧ (m.run steps).manifest = (m.run steps).world.live := by
  induction steps generalizing m with
  | nil => exact ⟨h, hlisted⟩
  | cons st steps ih =>
    obtain ⟨hinv, hflush⟩ := ok_step h hok st
    exact ih hinv hflush hmeets.2 (manifest_step hok.root hmeets.1 hlisted)

theorem map_disk_paths (handles : List SegmentHandle) :
    (handles.filterMap path?).map .disk = handles.filter fun h => h.path?.isSome := by
  induction handles with
  | nil => rfl
  | cons handle handles ih =>
    cases handle with
    | memory segment => exact ih
    | disk p => exact congrArg (disk p :: ·) ih

theorem openSegments_eq (h : m.world.Inv) (hlive : ∀ p ∈ m.manifest, p ∈ m.world.live) :
    ∃ entries, m.openSegments = some entries ∧ entries.map Prod.fst = m.manifest := by
  have hmapM : ∀ ps : List ℕ, (∀ p ∈ ps, p ∈ m.world.live) →
      ∃ entries, ps.mapM (fun p => (m.world.files.get? p).map fun s => (p, s)) = some entries ∧
        entries.map Prod.fst = ps := by
    intro ps
    induction ps with
    | nil => exact fun _ => ⟨[], rfl, rfl⟩
    | cons p ps ih =>
      intro hps
      obtain ⟨entries, hentries, hfst⟩ := ih fun q hq => hps q (mem_cons_of_mem p hq)
      obtain ⟨s, hs⟩ := h.files.exists_file (hps p mem_cons_self)
      refine ⟨(p, s) :: entries, ?_, by rw [map_cons, hfst]⟩
      rw [mapM_cons, hs, hentries]
      rfl
  exact hmapM m.manifest hlive

/-- **The order of the segments survives a restart.**  After every run whose steps
meet the condition the files open, and the list of segments that
`LsmIndex::persistent` builds is the live list of disk segments, in its order. -/
theorem persistent_live (entries : List (ℕ × Segment)) (hnodup : (entries.map Prod.fst).Nodup)
    (tombstones : DeleteSet) (steps : List ManifestStep) (hmeets : (start entries tombstones).Meets steps)
    (deleted : DeleteSet) :
    ∃ i, ((start entries tombstones).run steps).persistent deleted = some i ∧
      i.segmentHandles =
        ((start entries tombstones).run steps).world.index.segmentHandles.filter
          fun h => h.path?.isSome := by
  have hlisted : (start entries tombstones).manifest = (start entries tombstones).world.live := by
    show entries.map Prod.fst = (entries.map fun e => disk e.1).filterMap _
    rw [filterMap_map]
    exact (congrFun filterMap_eq_map' entries).symm
  obtain ⟨hinv, hmanifest⟩ := manifest_run (Fresh.opened entries tombstones hnodup).inv
    (flushOk_start entries tombstones) hmeets hlisted
  set m := (start entries tombstones).run steps
  obtain ⟨opened, hopen, hfst⟩ := openSegments_eq hinv fun p hp => hmanifest ▸ hp
  refine ⟨LsmIndex.persistent opened deleted, by rw [persistent, hopen]; rfl, ?_⟩
  have hhandles : opened.map (fun e => disk e.1) =
      (opened.map Prod.fst).map disk := by
    rw [map_map]
    rfl
  show opened.map (fun e => disk e.1) = _
  rw [hhandles, hfst, hmanifest]
  exact map_disk_paths m.world.index.segmentHandles

def oneDocument : Segment :=
  MemIndex.freezeShared [MemIndex.ofDocuments [⟨2, ⟨[⟨0, 1, [⟨"b", [0], 1⟩]⟩], [], []⟩, []⟩]]

def addedAfterFlush : List ManifestStep :=
  [.act (.mergeIntoMemtable [⟨1, ⟨[⟨0, 1, [⟨"a", [0], 1⟩]⟩], [], []⟩, []⟩]) [],
    .act (.queueFlush (fun _ => false) true) [], .act .takeFlushJobs [],
    .act (.completeFlush 0 true true) [], .addSegment oneDocument .added []]

theorem persistent_live_added :
    (start [] ∅).Meets addedAfterFlush ∧
    ∃ i, ((start [] ∅).run addedAfterFlush).persistent ∅ = some i ∧
      i.segmentHandles = ((start [] ∅).run addedAfterFlush).world.index.segmentHandles.filter
        fun h => h.path?.isSome := by
  have hmeets : (start [] ∅).Meets addedAfterFlush := by
    refine ⟨trivial, trivial, trivial, ?_, trivial, trivial⟩
    intro front _ _ _ h hh
    have hnone : ((start [] ∅).run (addedAfterFlush.take 3)).world.index.segmentHandles = [] := by
      decide +kernel
    have hh' : h ∈ ((start [] ∅).run (addedAfterFlush.take 3)).world.index.segmentHandles :=
      mem_of_mem_drop hh
    rw [hnone] at hh'
    cases hh'
  exact ⟨hmeets, persistent_live [] nodup_nil ∅ addedAfterFlush hmeets ∅⟩

def addedWhilePending : List ManifestStep :=
  [.act (.mergeIntoMemtable [⟨1, ⟨[⟨0, 1, [⟨"a", [0], 1⟩]⟩], [], []⟩, []⟩]) [],
    .act (.queueFlush (fun _ => false) true) [], .act .takeFlushJobs [],
    .addSegment oneDocument .added [], .act (.completeFlush 0 true true) []]

/-- The live list has the flush first, the manifest the added segment. -/
theorem persistent_reorders :
    ∃ steps i, ((start [] ∅).run steps).persistent ∅ = some i ∧
      i.segmentHandles ≠ ((start [] ∅).run steps).world.index.segmentHandles.filter
        fun h => h.path?.isSome := by
  have hopened : (((start [] ∅).run addedWhilePending).persistent ∅).map segmentHandles =
      some [.disk 1, .disk 0] := by decide +kernel
  have hlive : ((start [] ∅).run addedWhilePending).world.index.segmentHandles =
      [.disk 0, .disk 1] := by decide +kernel
  obtain ⟨i, hi, hhandles⟩ := Option.map_eq_some_iff.mp hopened
  refine ⟨addedWhilePending, i, hi, ?_⟩
  rw [hhandles, hlive]
  decide

end ManifestWorld

/-
What holds in every reachable world.
-/
import Riets.LsmMoves
import Riets.LsmRun

open MemIndex Reader

namespace World

open List LsmIndex MemIndex Nat SortedMap

/-! ### Invariant -/

def jobs (w : World) : List CompactionJob := w.planned ++ w.finished

/-- Numbers that belong to a pending flush or to the output of a job. -/
def reserved (w : World) : List ℕ :=
  w.index.flushQueue.pending.map PendingFlush.path ++ w.jobs.map CompactionJob.outputPath

def live (w : World) : List ℕ := w.index.segmentHandles.filterMap SegmentHandle.path?

def flushJobs (w : World) : List FlushJob := w.index.flushQueue.madeNotFlushed ++ w.writing

/-- A job selects some distinct disk segments, none of whose numbers can become
live again. -/
structure JobOk (w : World) (job : CompactionJob) : Prop where
  ne_nil : job.selected ≠ []
  nodup : job.selected.Nodup
  old : ∀ h ∈ job.selected, ∃ p, h = .disk p ∧ p < w.index.nextSegmentId ∧ p ∉ w.reserved
  generation_le : job.deleteGeneration ≤ w.index.deleteGeneration
  knows : job.deleteGeneration = w.index.deleteGeneration → w.index.deleted ⊆ job.deleted

structure FilesOk (w : World) : Prop where
  sync : w.index.segmentHandles.map (openHandle w.files) = w.index.querySegments.map some
  paths_nodup : (w.live ++ w.reserved).Nodup
  paths_lt : ∀ p ∈ w.live ++ w.reserved, p < w.index.nextSegmentId
  jobs_ok : ∀ job ∈ w.jobs, JobOk w job
  outputs : ∀ job ∈ w.finished, (∀ h ∈ job.selected, h ∈ w.index.segmentHandles) →
    ∃ opened, job.selected.map (openHandle w.files) = opened.map some ∧
      w.files.get? job.outputPath = some (Compaction.compacted job.deleted opened)

structure QueueOk (w : World) : Prop where
  seqs_nodup : (w.index.flushQueue.pending.map PendingFlush.seq).Nodup
  seqs_lt : ∀ p ∈ w.index.flushQueue.pending, p.seq < w.index.flushQueue.nextSeq
  jobs_nodup : (w.flushJobs.map FlushJob.seq).Nodup
  flushes : ∀ job ∈ w.flushJobs, ∃ p ∈ w.index.flushQueue.pending,
    p.seq = job.seq ∧ p.path = job.path ∧ p.generations = job.generations

structure TablesOk (i : LsmIndex) : Prop where
  generations : ∀ g ∈ i.generations, g.docIdRange ≠ none
  mem : i.mem.docIdRange = none → i.mem.termCount = 0

structure Inv (w : World) : Prop where
  files : FilesOk w
  queue : QueueOk w
  tables : TablesOk w.index

variable {w : World}

theorem tracked_sealInto {busy : ℕ → Bool} {generations : List MemIndex} {table : MemIndex}
    (hg : ∀ g ∈ generations, g.Tracked) (ht : table.Tracked) :
    ∀ g ∈ sealInto busy generations table, g.Tracked := by
  induction generations generalizing table with
  | nil => simpa [sealInto] using ht
  | cons newest older ih =>
    rw [sealInto]
    split_ifs
    · intro g hgm
      rcases mem_cons.mp hgm with rfl | hgm
      · exact ht
      · exact hg g hgm
    · exact ih (fun g hgm => hg g (by simp [hgm])) (tracked_mergeFrom (.inr ht))

theorem tablesOk_sealMem {i : LsmIndex} (busy : ℕ → Bool) (h : TablesOk i) :
    TablesOk (i.sealMem busy) := by
  rcases sealMem_cases (i := i) busy with ⟨-, -, hs⟩ | ⟨hne, hs⟩
  · rw [hs]
    exact h
  · rw [hs]
    refine ⟨fun g hg => ?_, fun _ => rfl⟩
    have hmem : i.mem.Tracked := fun hnone => hne ⟨h.mem hnone, hnone⟩
    refine tracked_sealInto (fun g hg => ?_) hmem g (mem_reverse.mp hg)
    exact h.generations g (mem_reverse.mp hg)

theorem tracked_ofDocuments {docs : List AnalyzedDocument} (h : docs ≠ []) :
    (ofDocuments docs).Tracked := by
  induction docs using reverseRecOn with
  | nil => exact absurd rfl h
  | append_singleton docs doc ih =>
    rw [ofDocuments, foldl_append]
    exact tracked_addAnalyzedDocument _ doc

theorem tablesOk_mergeIntoMemtable {i : LsmIndex} (docs : List AnalyzedDocument) (h : TablesOk i) :
    TablesOk (i.mergeIntoMemtable (ofDocuments docs)) := by
  refine ⟨h.generations, fun hnone => ?_⟩
  rcases docs with _ | ⟨doc, docs⟩
  · -- an empty batch changes no term
    have hterms : (i.mem.mergeFrom new).terms = i.mem.terms :=
      mergeFrom_terms i.mem new
    have hmem : i.mem.docIdRange = none := by
      by_contra hne
      exact tracked_mergeFrom (.inl hne) hnone
    exact (congrArg SortedMap.size hterms).trans (h.mem hmem)
  · exact absurd hnone (tracked_mergeFrom (.inr (tracked_ofDocuments (by simp))))

/-! ### Numbers and files -/

theorem mem_live {p : ℕ} : p ∈ w.live ↔ .disk p ∈ w.index.segmentHandles := by
  rw [live, mem_filterMap]
  constructor
  · rintro ⟨h, hh, hp⟩
    cases h with
    | memory s => cases hp
    | disk q => exact Option.some_inj.mp hp ▸ hh
  · exact fun h => ⟨_, h, rfl⟩

theorem map_openHandle_congr {files files' : SortedMap ℕ Segment} {handles : List SegmentHandle}
    (h : ∀ p, .disk p ∈ handles → files'.get? p = files.get? p) :
    handles.map (openHandle files') = handles.map (openHandle files) := by
  refine map_congr_left fun a ha => ?_
  cases a with
  | memory s => rfl
  | disk p => exact h p ha

theorem nodup_of_subperm {l l' : List ℕ} (h : l'.Subperm l) (hl : l.Nodup) : l'.Nodup := by
  obtain ⟨m, hperm, hsub⟩ := h
  exact hperm.nodup_iff.mp (hl.sublist hsub)

theorem subperm_map {α β : Type*} (f : α → β) {l l' : List α} (h : l'.Subperm l) :
    (l'.map f).Subperm (l.map f) := by
  obtain ⟨m, hperm, hsub⟩ := h
  exact ⟨m.map f, hperm.map f, hsub.map f⟩

theorem cons_filter_subperm {α : Type*} {p : α → Bool} {l : List α} {a : α} (ha : a ∈ l)
    (hp : p a = false) : (a :: l.filter p).Subperm l := by
  have hmem : a ∈ l.filter fun b => !p b := mem_filter.mpr ⟨ha, by simp [hp]⟩
  have hsub : [a].Subperm (l.filter fun b => !p b) := singleton_subperm_iff.mpr hmem
  have happ := (Subperm.refl (l.filter p)).append hsub
  exact (perm_append_singleton a _).symm.subperm.trans
    (happ.trans (filter_append_perm p l).subperm)

theorem JobOk.mono {w' : World} {job : CompactionJob} (h : JobOk w job)
    (hnext : w.index.nextSegmentId ≤ w'.index.nextSegmentId)
    (hreserved : ∀ p ∈ w'.reserved, p ∈ w.reserved ∨ w.index.nextSegmentId ≤ p)
    (hgen : w'.index.deleteGeneration = w.index.deleteGeneration)
    (hdeleted : w'.index.deleted ⊆ w.index.deleted) : JobOk w' job where
  ne_nil := h.ne_nil
  nodup := h.nodup
  old a ha := by
    obtain ⟨p, hp, hlt, hnot⟩ := h.old a ha
    refine ⟨p, hp, hlt.trans_le hnext, fun hmem => ?_⟩
    rcases hreserved p hmem with hmem | hle
    · exact hnot hmem
    · omega
  generation_le := hgen ▸ h.generation_le
  knows heq := hdeleted.trans (h.knows (heq.trans hgen))

namespace FilesOk

section

variable (h : FilesOk w)
include h

theorem not_live_of_reserved {p : ℕ} (hp : p ∈ w.reserved) : p ∉ w.live :=
  fun hl => (nodup_append.mp h.paths_nodup).2.2 p hl p hp rfl

theorem setFiles {files : SortedMap ℕ Segment}
    (hlive : ∀ p ∈ w.live, files.get? p = w.files.get? p)
    (hout : ∀ job ∈ w.finished, files.get? job.outputPath = w.files.get? job.outputPath) :
    FilesOk { w with files := files } where
  sync := (map_openHandle_congr fun p hp => hlive p (mem_live.mpr hp)).trans h.sync
  paths_nodup := h.paths_nodup
  paths_lt := h.paths_lt
  jobs_ok job hj := (h.jobs_ok job hj).mono le_rfl (fun _ => .inl) rfl subset_rfl
  outputs job hj hsel := by
    obtain ⟨opened, hopen, hget⟩ := h.outputs job hj hsel
    refine ⟨opened, ?_, (hout job hj).trans hget⟩
    exact (map_openHandle_congr fun p hp => hlive p (mem_live.mpr (hsel _ hp))).trans hopen

theorem frame {i : LsmIndex} {writing : List FlushJob}
    (hhandles : i.segmentHandles = w.index.segmentHandles)
    (hquery : i.querySegments = w.index.querySegments)
    (hpending : i.flushQueue.pending = w.index.flushQueue.pending)
    (hnext : i.nextSegmentId = w.index.nextSegmentId) (hdel : i.deleted = w.index.deleted)
    (hgen : i.deleteGeneration = w.index.deleteGeneration) :
    FilesOk { w with index := i, writing := writing } := by
  have hlive : live { w with index := i, writing := writing } = w.live := by
    rw [live, live, hhandles]
  have hres : reserved { w with index := i, writing := writing } = w.reserved := by
    rw [reserved, reserved, hpending]
    rfl
  exact
    { sync := by simpa only [hhandles, hquery] using h.sync
      paths_nodup := by rw [hlive, hres]; exact h.paths_nodup
      paths_lt := by simpa only [hlive, hres, hnext] using h.paths_lt
      jobs_ok := fun job hj =>
        (h.jobs_ok job hj).mono hnext.ge (fun p hp => .inl (hres ▸ hp)) hgen hdel.subset
      outputs := fun job hj hsel => h.outputs job hj (by simpa only [hhandles] using hsel) }

theorem forget {planned finished : List CompactionJob}
    (hp : planned.Sublist w.planned) (hf : finished.Sublist w.finished) :
    FilesOk { w with planned := planned, finished := finished } := by
  have hsub : (planned ++ finished).Sublist w.jobs := hp.append hf
  have hall : (w.live ++ (w.index.flushQueue.pending.map PendingFlush.path ++
      (planned ++ finished).map CompactionJob.outputPath)).Sublist (w.live ++ w.reserved) :=
    ((hsub.map _).append_left _).append_left _
  exact
    { sync := h.sync
      paths_nodup := h.paths_nodup.sublist hall
      paths_lt := fun p hp => h.paths_lt p (hall.subset hp)
      jobs_ok := fun job hj => (h.jobs_ok job (hsub.subset hj)).mono le_rfl
        (fun p hp => .inl (((hsub.map _).append_left _).subset hp)) rfl subset_rfl
      outputs := fun job hj => h.outputs job (hf.subset hj) }

theorem next_fresh : w.index.nextSegmentId ∉ w.live ++ w.reserved :=
  fun hmem => lt_irrefl _ (h.paths_lt _ hmem)

theorem queueFlush {seq : ℕ} {generations : List MemIndex} {i : LsmIndex}
    (hi : i.segmentHandles = w.index.segmentHandles ∧ i.querySegments = w.index.querySegments ∧
      i.flushQueue.pending = w.index.flushQueue.pending ++
        [⟨seq, w.index.nextSegmentId, generations, 0⟩] ∧
      i.nextSegmentId = w.index.nextSegmentId + 1 ∧ i.deleted = w.index.deleted ∧
      i.deleteGeneration = w.index.deleteGeneration) : FilesOk { w with index := i } := by
  obtain ⟨hhandles, hquery, hpending, hnext, hdel, hgen⟩ := hi
  have hlive : live { w with index := i } = w.live := by rw [live, live, hhandles]
  have hres : (reserved { w with index := i }).Perm (w.index.nextSegmentId :: w.reserved) := by
    simp only [reserved, jobs, hpending, map_append, map_singleton, append_assoc]
    exact perm_middle
  have hperm : (live { w with index := i } ++ reserved { w with index := i }).Perm
      (w.index.nextSegmentId :: (w.live ++ w.reserved)) := by
    rw [hlive]
    exact (hres.append_left _).trans perm_middle
  exact
    { sync := by simpa only [hhandles, hquery] using h.sync
      paths_nodup := hperm.nodup_iff.mpr (nodup_cons.mpr ⟨h.next_fresh, h.paths_nodup⟩)
      paths_lt := fun p hp => by
        simp only [hnext]
        rcases mem_cons.mp (hperm.mem_iff.mp hp) with rfl | hp
        · exact lt_succ_self _
        · exact (h.paths_lt p hp).trans (lt_succ_self _)
      jobs_ok := fun job hj => by
        refine (h.jobs_ok job hj).mono (by simp only [hnext]; omega) (fun p hp => ?_) hgen hdel.subset
        rcases mem_cons.mp (hres.mem_iff.mp hp) with rfl | hp
        · exact .inr le_rfl
        · exact .inl hp
      outputs := fun job hj hsel => h.outputs job hj (by simpa only [hhandles] using hsel) }

theorem addMemory (segment : Segment) :
    FilesOk { w with index := { w.index with
      segmentHandles := w.index.segmentHandles ++ [.memory segment]
      querySegments := w.index.querySegments ++ [segment] } } := by
  have hlive : (w.index.segmentHandles ++ [SegmentHandle.memory segment]).filterMap
      SegmentHandle.path? = w.live := by
    rw [filterMap_append]
    exact append_nil _
  exact
    { sync := by
        simp only [map_append, h.sync]
        rfl
      paths_nodup := by simp only [live, hlive]; exact h.paths_nodup
      paths_lt := by simp only [live, hlive]; exact h.paths_lt
      jobs_ok := fun job hj => (h.jobs_ok job hj).mono le_rfl (fun _ => .inl) rfl subset_rfl
      outputs := fun job hj hsel => by
        refine h.outputs job hj fun a ha => ?_
        obtain ⟨p, rfl, -⟩ := (h.jobs_ok job (mem_append_right _ hj)).old a ha
        simpa using hsel _ ha }

theorem completeFlush {front : PendingFlush} {rest : List PendingFlush}
    {handle : SegmentHandle} {segment : Segment} {place : ℕ} {failure : Option String}
    (hpending : w.index.flushQueue.pending = front :: rest)
    (hopen : openHandle w.files handle = some segment)
    (hhandle : handle.path? = none ∨ handle.path? = some front.path)
    (hplace : place ≤ w.index.segmentHandles.length) :
    FilesOk { w with index := { w.index with
      flushQueue := { w.index.flushQueue with pending := rest, failure := failure }
      segmentHandles := w.index.segmentHandles.insertIdx place handle
      querySegments := w.index.querySegments.insertIdx place segment } } := by
  have hins := perm_insertIdx handle w.index.segmentHandles hplace
  have hlive : ((w.index.segmentHandles.insertIdx place handle).filterMap SegmentHandle.path?).Perm
      (handle.path?.toList ++ w.live) := by
    refine (hins.filterMap _).trans ?_
    rw [filterMap_cons, live]
    cases handle.path? <;> exact Perm.refl _
  have hpaths : (handle.path?.toList ++ w.live ++ (rest.map PendingFlush.path ++
      w.jobs.map CompactionJob.outputPath)).Subperm (w.live ++ w.reserved) := by
    rw [reserved, hpending, map_cons]
    rcases hhandle with hnone | hsome
    · rw [hnone]
      exact ((sublist_cons_self _ _).append_left _).subperm
    · rw [hsome]
      exact perm_middle.symm.subperm
  have hall := (hlive.append_right (rest.map PendingFlush.path ++
    w.jobs.map CompactionJob.outputPath)).subperm.trans hpaths
  have hres : ∀ p ∈ rest.map PendingFlush.path ++ w.jobs.map CompactionJob.outputPath,
      p ∈ w.reserved := by
    rw [reserved, hpending, map_cons]
    exact fun p hp => mem_cons_of_mem _ hp
  exact
    { sync := by
        simp only [map_insertIdx, h.sync, hopen]
      paths_nodup := nodup_of_subperm hall h.paths_nodup
      paths_lt := fun p hp => h.paths_lt p (hall.subset hp)
      jobs_ok := fun job hj =>
        (h.jobs_ok job hj).mono le_rfl (fun p hp => .inl (hres p hp)) rfl subset_rfl
      outputs := fun job hj hsel => by
        refine h.outputs job hj fun a ha => ?_
        -- a selected number is not reserved, so it is not the one that became live
        obtain ⟨p, rfl, -, hp⟩ := (h.jobs_ok job (mem_append_right _ hj)).old a ha
        rcases mem_cons.mp (hins.mem_iff.mp (hsel _ ha)) with hnew | hold
        · rcases hhandle with hnone | hsome
          · simp [← hnew, SegmentHandle.path?] at hnone
          · refine absurd ?_ hp
            have : p = front.path := by simpa [← hnew, SegmentHandle.path?] using hsome
            simp [reserved, hpending, this]
        · exact hold }

theorem window_spec {start stop : ℕ} {fileSize : ℕ → ℕ}
    (hwindow : IsWindow (w.index.segmentSizes fileSize) (start, stop)) :
    (w.index.segmentHandles.take stop).drop start ≠ [] ∧
      ((w.index.segmentHandles.take stop).drop start).Nodup ∧
      ∀ a ∈ (w.index.segmentHandles.take stop).drop start, ∃ p, a = .disk p ∧ p ∈ w.live := by
  obtain ⟨hlt, hle, hdisk⟩ := hwindow
  simp only [segmentSizes, length_map] at hlt hle hdisk
  obtain ⟨selected, hsel⟩ :
    ∃ selected, selected = (w.index.segmentHandles.take stop).drop start := ⟨_, rfl⟩
  have hsub : selected.Sublist w.index.segmentHandles :=
    hsel ▸ (drop_sublist _ _).trans (take_sublist _ _)
  have hpath : ∀ a ∈ selected, ∃ p, a = .disk p ∧ p ∈ w.live := by
    intro a ha
    obtain ⟨n, hn, hget⟩ := mem_iff_getElem.mp (hsel ▸ ha)
    simp only [length_drop, length_take] at hn
    rw [getElem_drop, getElem_take] at hget
    obtain ⟨size, hsize⟩ := hdisk (start + n) (by omega) (by omega)
    rw [getElem?_map, getElem?_eq_getElem (by omega), hget] at hsize
    cases a with
    | memory s => simp at hsize
    | disk p => exact ⟨p, rfl, mem_live.mpr (hsub.subset ha)⟩
  refine hsel ▸ ⟨?_, ?_, hpath⟩
  · rw [hsel, ← length_pos_iff, length_drop, length_take]
    omega
  · -- the handles are their numbers, and these are distinct
    have hnums : (selected.filterMap SegmentHandle.path?).Nodup :=
      (nodup_append.mp h.paths_nodup).1.sublist (hsub.filterMap _)
    have hback : ∀ l : List SegmentHandle, (∀ a ∈ l, ∃ p, a = .disk p ∧ p ∈ w.live) →
        l = (l.filterMap SegmentHandle.path?).map .disk := by
      intro l
      induction l with
      | nil => exact fun _ => rfl
      | cons a l ih =>
        intro hl
        obtain ⟨p, rfl, -⟩ := hl a (by simp)
        rw [filterMap_cons]
        exact congrArg _ (ih fun b hb => hl b (by simp [hb]))
    rw [hback selected hpath]
    exact hnums.map fun p q hpq => by simpa using hpq

theorem planCompaction {jobId next start stop : ℕ} {fileSize : ℕ → ℕ}
    (hwindow : IsWindow (w.index.segmentSizes fileSize) (start, stop)) :
    FilesOk { w with
      index := { w.index with
        nextSegmentId := w.index.nextSegmentId + 1
        nextCompactionJobId := next }
      planned := w.planned ++
        [{ jobId := jobId
           selected := (w.index.segmentHandles.take stop).drop start
           deleted := w.index.deleted
           deleteGeneration := w.index.deleteGeneration
           outputPath := w.index.nextSegmentId }] } := by
  obtain ⟨hne, hnodup, hpath⟩ := h.window_spec hwindow
  obtain ⟨w', hw'⟩ : ∃ w' : World, w' = { w with
      index := { w.index with
        nextSegmentId := w.index.nextSegmentId + 1
        nextCompactionJobId := next }
      planned := w.planned ++
        [{ jobId := jobId
           selected := (w.index.segmentHandles.take stop).drop start
           deleted := w.index.deleted
           deleteGeneration := w.index.deleteGeneration
           outputPath := w.index.nextSegmentId }] } := ⟨_, rfl⟩
  have hres : w'.reserved.Perm (w.index.nextSegmentId :: w.reserved) := by
    simp only [hw', reserved, jobs, map_append, map_singleton, append_assoc]
    refine (Perm.append_left _ perm_middle).trans ?_
    exact perm_middle
  have hperm : (w'.live ++ w'.reserved).Perm (w.index.nextSegmentId :: (w.live ++ w.reserved)) := by
    have hlive : w'.live = w.live := by rw [hw']; rfl
    rw [hlive]
    exact (hres.append_left _).trans perm_middle
  have hnext : w'.index.nextSegmentId = w.index.nextSegmentId + 1 := by rw [hw']
  have hmono : ∀ {job}, JobOk w job → JobOk w' job := by
    intro job hjob
    refine hjob.mono (by omega) (fun p hp => ?_) (by rw [hw']) (by rw [hw'])
    rcases mem_cons.mp (hres.mem_iff.mp hp) with rfl | hp
    · exact .inr le_rfl
    · exact .inl hp
  rw [← hw']
  exact
    { sync := by rw [hw']; exact h.sync
      paths_nodup := hperm.nodup_iff.mpr (nodup_cons.mpr ⟨h.next_fresh, h.paths_nodup⟩)
      paths_lt := fun p hp => by
        rw [hnext]
        rcases mem_cons.mp (hperm.mem_iff.mp hp) with rfl | hp
        · exact lt_succ_self _
        · exact (h.paths_lt p hp).trans (lt_succ_self _)
      jobs_ok := fun job hj => by
        simp only [hw', jobs, mem_append, mem_singleton] at hj
        rcases hj with (hj | rfl) | hj
        · exact hmono (h.jobs_ok job (mem_append_left _ hj))
        · refine hmono ⟨hne, hnodup, fun a ha => ?_, le_rfl, fun _ => subset_rfl⟩
          obtain ⟨p, rfl, hp⟩ := hpath a ha
          exact ⟨p, rfl, h.paths_lt p (mem_append_left _ hp),
            fun hr => h.not_live_of_reserved hr hp⟩
        · exact hmono (h.jobs_ok job (mem_append_right _ hj))
      outputs := by
        rw [hw']
        exact h.outputs }

end

variable {job : CompactionJob}

theorem outputPath_mem (hj : job ∈ w.jobs) : job.outputPath ∈ w.reserved :=
  mem_append_right _ (mem_map_of_mem hj)

theorem ne_outputPath (h : FilesOk w) {job' : CompactionJob} (hj : job ∈ w.jobs)
    (hj' : job' ∈ w.jobs) {p : ℕ} (hp : .disk p ∈ job.selected) : p ≠ job'.outputPath := by
  obtain ⟨q, hq, -, hnot⟩ := (h.jobs_ok job hj).old _ hp
  obtain rfl : p = q := by simpa using hq
  exact fun heq => hnot (heq ▸ outputPath_mem hj')

theorem outputPath_inj (h : FilesOk w) {job' : CompactionJob} (hj : job ∈ w.jobs)
    (hj' : job' ∈ w.jobs) (heq : job.outputPath = job'.outputPath) : job = job' := by
  have hres := (nodup_append.mp (nodup_append.mp h.paths_nodup).2.1).2.1
  exact inj_on_of_nodup_map hres hj hj' heq

theorem planned_ne_finished (h : FilesOk w) {job' : CompactionJob} (hj : job ∈ w.planned)
    (hj' : job' ∈ w.finished) : job.outputPath ≠ job'.outputPath := by
  have hres := (nodup_append.mp (nodup_append.mp h.paths_nodup).2.1).2.1
  rw [jobs, map_append] at hres
  exact (nodup_append.mp hres).2.2 _ (mem_map_of_mem hj) _ (mem_map_of_mem hj')

theorem runCompaction (h : FilesOk w) {opened : List Segment}
    (hjob : job ∈ w.planned) (hopened : job.selected.map (openHandle w.files) = opened.map some) :
    FilesOk { w with
      planned := w.planned.filter fun j => j.jobId ≠ job.jobId
      files := w.files.insert job.outputPath (Compaction.compacted job.deleted opened)
      finished := w.finished ++ [job] } := by
  have hmem : job ∈ w.jobs := mem_append_left _ hjob
  have hsub : ((w.planned.filter fun j => j.jobId ≠ job.jobId) ++ (w.finished ++ [job])).Subperm
      w.jobs := by
    have hcons : (job :: w.planned.filter fun j => j.jobId ≠ job.jobId).Subperm w.planned :=
      cons_filter_subperm hjob (by simp)
    refine Perm.subperm ?_ |>.trans (hcons.append (Subperm.refl w.finished))
    rw [← append_assoc]
    exact perm_append_singleton _ _
  have hres := (subperm_append_left (w.index.flushQueue.pending.map PendingFlush.path)).mpr
    (subperm_map CompactionJob.outputPath hsub)
  have hall := (subperm_append_left w.live).mpr hres
  have hkeep : ∀ p, p ≠ job.outputPath →
      (w.files.insert job.outputPath (Compaction.compacted job.deleted opened)).get? p
        = w.files.get? p := by
    intro p hp
    rw [get?_insert, if_neg hp]
  have hlive : ∀ p ∈ w.live, p ≠ job.outputPath :=
    fun p hp heq => h.not_live_of_reserved (outputPath_mem hmem) (heq ▸ hp)
  exact
    { sync := (map_openHandle_congr fun p hp => hkeep p (hlive p (mem_live.mpr hp))).trans h.sync
      paths_nodup := nodup_of_subperm hall h.paths_nodup
      paths_lt := fun p hp => h.paths_lt p (hall.subset hp)
      jobs_ok := fun job' hj' => (h.jobs_ok job' (hsub.subset hj')).mono le_rfl
        (fun p hp => .inl (hres.subset hp)) rfl subset_rfl
      outputs := fun job' hj' hsel => by
        rcases mem_append.mp hj' with hj' | hj'
        · have hmem' : job' ∈ w.jobs := mem_append_right _ hj'
          obtain ⟨opened', hopen', hget⟩ := h.outputs job' hj' hsel
          refine ⟨opened', ?_, ?_⟩
          · exact (map_openHandle_congr fun p hp => hkeep p (h.ne_outputPath hmem' hmem hp)).trans
              hopen'
          · exact (hkeep _ fun heq => h.planned_ne_finished hjob hj' heq.symm).trans hget
        · rw [mem_singleton] at hj'
          subst hj'
          refine ⟨opened, ?_, by rw [get?_insert, if_pos rfl]⟩
          exact (map_openHandle_congr fun p hp => hkeep p (h.ne_outputPath hmem hmem hp)).trans
            hopened }

section Install

variable (h : FilesOk w) {job : CompactionJob} (hjob : job ∈ w.finished)
  (hfresh : w.index.isStale job.completed = false)
include h hjob hfresh

theorem replaced (disk : Segment) : ∃ stay,
    w.index.segmentHandles.Perm (job.selected ++ stay) ∧
    (w.index.replaceSelected job.completed disk).segmentHandles.Perm
      (.disk job.outputPath :: stay) ∧ ∀ a ∈ job.selected, a ∉ stay := by
  have hok := h.jobs_ok job (mem_append_right _ hjob)
  obtain ⟨hperm, hins⟩ := perm_replaceSelected (f := some)
    hfresh hok.nodup rfl rfl (SegmentHandle.disk job.outputPath)
  refine ⟨_, hperm, hins, fun a ha hstay => ?_⟩
  obtain ⟨p, rfl, -⟩ := hok.old a ha
  have hlive := (hperm.filterMap SegmentHandle.path?).nodup_iff.mp
    (nodup_append.mp h.paths_nodup).1
  rw [filterMap_append] at hlive
  exact (nodup_append.mp hlive).2.2 p (mem_filterMap.mpr ⟨_, ha, rfl⟩) p
    (mem_filterMap.mpr ⟨_, hstay, rfl⟩) rfl

theorem replace {disk : Segment} {deleted : DeleteSet} (hdeleted : deleted ⊆ w.index.deleted)
    (hget : w.files.get? job.outputPath = some disk) :
    FilesOk { w with
      index := { w.index.replaceSelected job.completed disk with deleted := deleted }
      finished := w.finished.filter fun j => j.jobId ≠ job.jobId } := by
  obtain ⟨stay, hperm, hins, -⟩ := h.replaced hjob hfresh disk
  have hfin : (job :: w.finished.filter fun j => j.jobId ≠ job.jobId).Subperm w.finished :=
    cons_filter_subperm hjob (by simp)
  have hjobs : (job :: (w.planned ++ w.finished.filter fun j => j.jobId ≠ job.jobId)).Subperm
      w.jobs :=
    perm_middle.symm.subperm.trans ((subperm_append_left w.planned).mpr hfin)
  have hres : (job.outputPath :: (w.index.flushQueue.pending.map PendingFlush.path ++
      (w.planned ++ w.finished.filter fun j => j.jobId ≠ job.jobId).map
        CompactionJob.outputPath)).Subperm w.reserved :=
    perm_middle.symm.subperm.trans
      ((subperm_append_left _).mpr (subperm_map CompactionJob.outputPath hjobs))
  have hlive : ((w.index.replaceSelected job.completed disk).segmentHandles.filterMap
      SegmentHandle.path?).Perm (job.outputPath :: stay.filterMap SegmentHandle.path?) :=
    hins.filterMap SegmentHandle.path?
  have hstay : (stay.filterMap SegmentHandle.path?).Subperm w.live := by
    refine Subperm.trans ?_ (hperm.filterMap SegmentHandle.path?).symm.subperm
    rw [filterMap_append]
    exact (sublist_append_right _ _).subperm
  have hall := ((hlive.append_right (w.index.flushQueue.pending.map PendingFlush.path ++
      (w.planned ++ w.finished.filter fun j => j.jobId ≠ job.jobId).map
        CompactionJob.outputPath)).trans perm_middle.symm).subperm.trans (hstay.append hres)
  exact
    { sync := by
        simp only [replaceSelected, map_insertIdx, map_removeAt, h.sync]
        exact congrArg _ hget
      paths_nodup := nodup_of_subperm hall h.paths_nodup
      paths_lt := fun p hp => h.paths_lt p (hall.subset hp)
      jobs_ok := fun job' hj' =>
        (h.jobs_ok job' (hjobs.subset (mem_cons_of_mem _ hj'))).mono le_rfl
          (fun p hp => .inl (hres.subset (mem_cons_of_mem _ hp))) rfl hdeleted
      outputs := fun job' hj' hsel => by
        have hj'' : job' ∈ w.finished := (mem_filter.mp hj').1
        refine h.outputs job' hj'' fun a ha => ?_
        -- inputs of other jobs were live before
        obtain ⟨p, rfl, -⟩ := (h.jobs_ok job' (mem_append_right _ hj'')).old a ha
        rcases mem_cons.mp (hins.mem_iff.mp (hsel _ ha)) with heq | hmem
        · exact absurd (by simpa using heq) (h.ne_outputPath (mem_append_right _ hj'')
            (mem_append_right _ hjob) ha)
        · exact hperm.mem_iff.mpr (mem_append_right _ hmem) }

end Install

end FilesOk

/-! ### One step -/

theorem find_job {jobs : List CompactionJob} {jobId : ℕ} {job : CompactionJob}
    (h : jobs.find? (fun job => job.jobId = jobId) = some job) : job ∈ jobs ∧ job.jobId = jobId :=
  ⟨mem_of_find?_eq_some h, by simpa using find?_some h⟩

/-- An install that drops all tombstones: every live segment was merged and no
delete arrived since the job was planned. -/
def Clears (w : World) : IndexAction → Prop
  | .installCompaction jobId openOk manifestOk _ =>
    ∃ job, w.finished.find? (fun job => job.jobId = jobId) = some job ∧ w.index.hasRoot = true ∧
      w.index.isStale job.completed = false ∧ (w.output job openOk).isOk = true ∧
      manifestOk = true ∧ w.index.mergedAll job.completed = true ∧
      job.deleteGeneration = w.index.deleteGeneration
  | _ => False

theorem installCompaction_cases (w : World) (jobId : ℕ) (openOk manifestOk clearOk : Bool) :
    w.installCompaction jobId openOk manifestOk clearOk = w ∨
    ∃ job ∈ w.finished, job.jobId = jobId ∧
      ((∃ files, (files = w.files ∨ files = w.files.erase job.outputPath) ∧
        w.installCompaction jobId openOk manifestOk clearOk = { w with
          files := files
          finished := w.finished.filter fun j => j.jobId ≠ job.jobId }) ∨
      ∃ disk deleted files, w.index.hasRoot = true ∧ w.index.isStale job.completed = false ∧
        w.files.get? job.outputPath = some disk ∧
        (deleted = w.index.deleted ∨
          (deleted = ∅ ∧ Clears w (.installCompaction jobId openOk manifestOk clearOk))) ∧
        (files = w.files ∨ files = removeSelected w.files job.selected) ∧
        w.installCompaction jobId openOk manifestOk clearOk = { w with
          index := { w.index.replaceSelected job.completed disk with deleted := deleted }
          files := files
          finished := w.finished.filter fun j => j.jobId ≠ job.jobId }) := by
  unfold installCompaction
  cases hfind : w.finished.find? fun job => job.jobId = jobId with
  | none => exact .inl rfl
  | some job =>
    obtain ⟨hjob, rfl⟩ := find_job hfind
    refine .inr ⟨job, hjob, rfl, ?_⟩
    simp only
    rcases LsmIndex.installCompaction_cases (i := w.index) job.completed (w.output job openOk)
        manifestOk clearOk with ⟨hwhy, h⟩ | ⟨disk, hroot, hfresh, hout, hrest⟩
    · left
      rw [h]
      refine ⟨_, ?_, rfl⟩
      split_ifs with hstale hremove
      · exact .inr rfl
      · rcases hwhy with hw | hw | hw
        · simp [hw] at hremove
        · exact absurd ⟨hremove.1, hw⟩ hstale
        · simp [hw] at hremove
      · exact .inl rfl
    · right
      have hget : w.files.get? job.outputPath = some disk := by
        unfold output at hout
        cases openOk with
        | false => simp at hout
        | true =>
          cases hf : w.files.get? job.outputPath with
          | none => simp [hf] at hout
          | some s => simpa [hf] using hout
      rcases hrest with h | ⟨hmanifest, hall, hgen, h⟩
      · rw [h]
        refine ⟨disk, w.index.deleted, _, hroot, hfresh, hget, .inl rfl, ?_, rfl⟩
        split_ifs with hstale
        · simp [hfresh] at hstale
        · exact .inr rfl
        · exact .inl rfl
      · rw [h]
        have hclears : Clears w (.installCompaction job.jobId openOk manifestOk clearOk) :=
          ⟨job, hfind, hroot, hfresh, by rw [hout]; rfl, hmanifest, hall, hgen⟩
        refine ⟨disk, ∅, _, hroot, hfresh, hget, .inr ⟨rfl, hclears⟩, ?_, rfl⟩
        split_ifs with hstale
        · simp [hfresh] at hstale
        · exact .inr rfl
        · exact .inl rfl

theorem filesOk_installCompaction (h : FilesOk w) (jobId : ℕ) (openOk manifestOk clearOk : Bool) :
    FilesOk (w.installCompaction jobId openOk manifestOk clearOk) := by
  rcases w.installCompaction_cases jobId openOk manifestOk clearOk with hw | ⟨job, hjob, rfl, hw⟩
  · rw [hw]
    exact h
  have hmem : job ∈ w.jobs := mem_append_right _ hjob
  rcases hw with ⟨files, hfiles, hw⟩ | ⟨disk, deleted, files, hroot, hfresh, hget, hdel, hfiles, hw⟩
  · rw [hw]
    have hrest := h.forget (Sublist.refl w.planned)
      (filter_sublist (p := fun j => j.jobId ≠ job.jobId) (l := w.finished))
    rcases hfiles with rfl | rfl
    · exact hrest
    · -- the output of the dropped job is neither live nor another output
      refine hrest.setFiles (fun p hp => ?_) fun job' hj' => ?_
      · have : p ≠ job.outputPath :=
          fun heq => h.not_live_of_reserved (FilesOk.outputPath_mem hmem) (heq ▸ hp)
        simp [this]
      · obtain ⟨hj', hne⟩ := mem_filter.mp hj'
        have : job'.outputPath ≠ job.outputPath := by
          intro heq
          have := h.outputPath_inj (mem_append_right _ hj') hmem heq
          simp [this] at hne
        simp [this]
  · have hsub : deleted ⊆ w.index.deleted := by
      rcases hdel with rfl | ⟨rfl, -⟩
      · exact subset_rfl
      · exact Finset.empty_subset _
    have hrest := h.replace hjob hfresh hsub hget
    rw [hw]
    rcases hfiles with rfl | rfl
    · exact hrest
    · -- the removed files are not live any more, and no job writes to them
      obtain ⟨stay, -, hins, hdisj⟩ := h.replaced hjob hfresh disk
      have hkeep : ∀ p, .disk p ∉ job.selected →
          (removeSelected w.files job.selected).get? p = w.files.get? p := by
        intro p hp
        rw [removeSelected, get?_filter]
        cases w.files.get? p <;> simp [Option.filter, hp]
      refine hrest.setFiles (fun p hp => hkeep p fun hsel => ?_) fun job' hj' => hkeep _ fun hsel => ?_
      · rcases mem_cons.mp (hins.mem_iff.mp (mem_live.mp hp)) with heq | hmem'
        · exact h.ne_outputPath hmem hmem hsel (by simpa using heq)
        · exact hdisj _ hsel hmem'
      · exact h.ne_outputPath hmem (mem_append_right _ (mem_filter.mp hj').1) hsel rfl

theorem completeFlush_cases (hq : QueueOk w) (seq : ℕ) (writeOk appendOk : Bool) :
    w.completeFlush seq writeOk appendOk = w ∨
    ∃ job ∈ w.writing, job.seq = seq ∧
      ∃ files, (files = w.files ∨ files = w.files.insert job.path job.write) ∧
      ((∃ e, w.completeFlush seq writeOk appendOk = { w with
          index := { w.index with flushQueue := w.index.flushQueue.fail e }
          files := files
          writing := w.writing.filter fun j => j.seq ≠ seq }) ∨
      ∃ front rest handle segment failure, w.index.flushQueue.pending = front :: rest ∧
        front.seq = seq ∧ openHandle files handle = some segment ∧
        ((handle.path? = none ∧ failure ≠ none) ∨
          (handle.path? = some front.path ∧ failure = w.index.flushQueue.failure)) ∧
        Makes ∅ (.seg segment) (front.generations.map .mem) ∧
        w.completeFlush seq writeOk appendOk = { w with
          index := { w.index with
            flushQueue := { w.index.flushQueue with pending := rest, failure := failure }
            segmentHandles := w.index.segmentHandles.insertIdx (w.index.flushPosition front) handle
            querySegments := w.index.querySegments.insertIdx (w.index.flushPosition front) segment }
          files := files
          writing := w.writing.filter fun j => j.seq ≠ seq }) := by
  unfold completeFlush
  cases hfind : w.writing.find? fun job => job.seq = seq with
  | none => exact .inl rfl
  | some job =>
    have hjob : job ∈ w.writing := mem_of_find?_eq_some hfind
    have hseq : job.seq = seq := by simpa using find?_some hfind
    refine .inr ⟨job, hjob, hseq,
      if writeOk then w.files.insert job.path job.write else w.files, ?_, ?_⟩
    · split_ifs
      · exact .inr rfl
      · exact .inl rfl
    simp only
    rcases LsmIndex.completeFlush_cases (i := w.index) seq
        (if writeOk then .ok job.write else .error "write segment") appendOk with
      ⟨e, h⟩ | ⟨front, rest, handle, segment, failure, hpending, hfront, hhandle, h⟩
    · exact .inl ⟨e, by rw [h]⟩
    right
    refine ⟨front, rest, handle, segment, failure, hpending, hfront, ?_⟩
    rw [h]
    rcases hhandle with ⟨-, hwritten, rfl, hfailure⟩ | ⟨rfl, rfl, hfailure⟩
    · -- the job that wrote the file is the one of the oldest pending flush
      cases writeOk with
      | false => simp at hwritten
      | true =>
        obtain rfl : job.write = segment := by simpa using hwritten
        obtain ⟨p, hp, hpseq, hppath, hpgen⟩ := hq.flushes job (mem_append_right _ hjob)
        obtain rfl : p = front := by
          refine inj_on_of_nodup_map hq.seqs_nodup hp (by simp [hpending]) ?_
          rw [hpseq, hseq, hfront]
        refine ⟨?_, .inr ⟨rfl, hfailure⟩, ?_, rfl⟩
        · simp [openHandle, hppath]
        · rw [hpgen]
          exact .write job
    · exact ⟨rfl, .inl ⟨rfl, hfailure⟩, .freezeShared front.generations, rfl⟩

theorem filesOk_completeFlush (h : FilesOk w) (hq : QueueOk w) (seq : ℕ) (writeOk appendOk : Bool) :
    FilesOk (w.completeFlush seq writeOk appendOk) := by
  rcases completeFlush_cases hq seq writeOk appendOk with hw | ⟨job, hjob, -, files, hfiles, hw⟩
  · rw [hw]
    exact h
  -- the file that was written is reserved by the pending flush
  have hset : FilesOk { w with files := files } := by
    rcases hfiles with rfl | rfl
    · exact h
    · obtain ⟨p, hp, -, hpath, -⟩ := hq.flushes job (mem_append_right _ hjob)
      have hmem : job.path ∈ w.index.flushQueue.pending.map PendingFlush.path :=
        hpath ▸ mem_map_of_mem hp
      refine h.setFiles (fun p hp => ?_) fun job' hj' => ?_
      · have : p ≠ job.path :=
          fun heq => h.not_live_of_reserved (mem_append_left _ hmem) (heq ▸ hp)
        simp [this]
      · have hres := (nodup_append.mp (nodup_append.mp h.paths_nodup).2.1).2.2
        have : job'.outputPath ≠ job.path := fun heq =>
          hres _ hmem _ (mem_map_of_mem (mem_append_right _ hj')) heq.symm
        simp [this]
  rcases hw with ⟨e, hw⟩ | ⟨front, rest, handle, segment, failure, hpending, -, hopen, hpath, -, hw⟩
  · rw [hw]
    exact hset.frame rfl rfl rfl rfl rfl rfl
  · rw [hw]
    exact (hset.completeFlush hpending hopen (hpath.imp And.left And.left)
      (sub_le _ _)).frame rfl rfl rfl rfl rfl rfl

theorem map_of_mapM {α β : Type*} {f : α → Option β} {l : List α} {l' : List β}
    (h : l.mapM f = some l') : l.map f = l'.map some := by
  induction l generalizing l' with
  | nil =>
    obtain rfl : [] = l' := by simpa using h
    rfl
  | cons a l ih =>
    rw [mapM_cons] at h
    obtain ⟨b, hb, h⟩ := Option.bind_eq_some_iff.mp h
    obtain ⟨bs, hbs, h⟩ := Option.bind_eq_some_iff.mp h
    obtain rfl : b :: bs = l' := by simpa using h
    rw [map_cons, map_cons, hb, ih hbs]

theorem runCompaction_cases (w : World) (jobId : ℕ) (ok : Bool) :
    w.runCompaction jobId ok = w ∨
    w.runCompaction jobId ok
      = { w with planned := w.planned.filter fun j => j.jobId ≠ jobId } ∨
    ∃ job ∈ w.planned, ∃ opened, job.jobId = jobId ∧
      job.selected.map (openHandle w.files) = opened.map some ∧
      w.runCompaction jobId ok = { w with
        planned := w.planned.filter fun j => j.jobId ≠ job.jobId
        files := w.files.insert job.outputPath (Compaction.compacted job.deleted opened)
        finished := w.finished ++ [job] } := by
  unfold runCompaction
  cases hfind : w.planned.find? fun job => job.jobId = jobId with
  | none => exact .inl rfl
  | some job =>
    obtain ⟨hjob, hid⟩ := find_job hfind
    right
    simp only
    cases hopen : (if ok then job.selected.mapM (openHandle w.files) else none) with
    | none => exact .inl rfl
    | some opened =>
      obtain ⟨file, hfile, hcompacted, -⟩ := Compaction.compacted_spec job.deleted opened
      have hmap : job.selected.map (openHandle w.files) = opened.map some := by
        split_ifs at hopen
        exact map_of_mapM hopen
      right
      refine ⟨job, hjob, opened, hid, hmap, ?_⟩
      simp only [hfile]
      rw [hcompacted, hid]

theorem filesOk_runCompaction (h : FilesOk w) (jobId : ℕ) (ok : Bool) :
    FilesOk (w.runCompaction jobId ok) := by
  rcases w.runCompaction_cases jobId ok with hw | hw | ⟨job, hjob, opened, -, hopened, hw⟩
  · rw [hw]
    exact h
  · rw [hw]
    exact h.forget filter_sublist (Sublist.refl _)
  · rw [hw]
    exact h.runCompaction hjob hopened

namespace QueueOk

theorem frame (h : QueueOk w) {i : LsmIndex} {files : SortedMap ℕ Segment}
    {planned finished : List CompactionJob} (hqueue : i.flushQueue = w.index.flushQueue) :
    QueueOk ⟨i, files, w.writing, planned, finished⟩ := by
  have hjobs : flushJobs ⟨i, files, w.writing, planned, finished⟩ = w.flushJobs := by
    rw [flushJobs, flushJobs, hqueue]
  exact
    { seqs_nodup := by simpa only [hqueue] using h.seqs_nodup
      seqs_lt := by simpa only [hqueue] using h.seqs_lt
      jobs_nodup := by rw [hjobs]; exact h.jobs_nodup
      flushes := by simpa only [hjobs, hqueue] using h.flushes }

theorem push (h : QueueOk w) {i : LsmIndex} {path : ℕ} {generations : List MemIndex}
    (hqueue : i.flushQueue = w.index.flushQueue.push path generations) :
    QueueOk { w with index := i } := by
  have hpending : i.flushQueue.pending = w.index.flushQueue.pending ++
      [⟨w.index.flushQueue.nextSeq, path, generations, 0⟩] := by rw [hqueue]; rfl
  have hnext : i.flushQueue.nextSeq = w.index.flushQueue.nextSeq + 1 := by rw [hqueue]; rfl
  exact
    { seqs_nodup := by
        simp only [hpending, map_append, map_singleton]
        refine nodup_append.mpr ⟨h.seqs_nodup, by simp, fun a ha b hb => ?_⟩
        obtain ⟨p, hp, rfl⟩ := mem_map.mp ha
        obtain rfl : b = w.index.flushQueue.nextSeq := by simpa using hb
        exact (h.seqs_lt p hp).ne
      seqs_lt := fun p hp => by
        simp only [hpending, mem_append, mem_singleton] at hp
        simp only [hnext]
        rcases hp with hp | rfl
        · exact (h.seqs_lt p hp).trans (lt_succ_self _)
        · exact lt_succ_self _
      jobs_nodup := by
        have hperm : (flushJobs { w with index := i }).Perm
            (⟨w.index.flushQueue.nextSeq, path, generations⟩ :: w.flushJobs) := by
          simp only [flushJobs, hqueue, FlushQueue.push, append_assoc]
          exact perm_middle
        refine (hperm.map FlushJob.seq).nodup_iff.mpr (nodup_cons.mpr ⟨?_, h.jobs_nodup⟩)
        rintro hmem
        obtain ⟨job, hjob, heq⟩ := mem_map.mp hmem
        obtain ⟨p, hp, hseq, -⟩ := h.flushes job hjob
        exact (h.seqs_lt p hp).ne (hseq.trans heq)
      flushes := fun job hjob => by
        simp only [hpending]
        simp only [flushJobs, hqueue, FlushQueue.push, mem_append, mem_singleton] at hjob
        rcases hjob with (hjob | rfl) | hjob
        · obtain ⟨p, hp, heq⟩ := h.flushes job (mem_append_left _ hjob)
          exact ⟨p, mem_append_left _ hp, heq⟩
        · exact ⟨_, mem_append_right _ (mem_singleton_self _), rfl, rfl, rfl⟩
        · obtain ⟨p, hp, heq⟩ := h.flushes job (mem_append_right _ hjob)
          exact ⟨p, mem_append_left _ hp, heq⟩ }

theorem takeFlushJobs (h : QueueOk w) : QueueOk (w.step .takeFlushJobs) where
  seqs_nodup := h.seqs_nodup
  seqs_lt := h.seqs_lt
  jobs_nodup := by
    have hperm : (w.writing ++ w.index.flushQueue.madeNotFlushed).Perm w.flushJobs :=
      perm_append_comm
    exact (hperm.map FlushJob.seq).nodup_iff.mpr h.jobs_nodup
  flushes job hjob := by
    refine h.flushes job ?_
    simp only [flushJobs, World.step, LsmIndex.takeFlushJobs, FlushQueue.takeJobs, nil_append,
      mem_append] at hjob
    exact mem_append.mpr hjob.symm

theorem completeFlush (h : QueueOk w) (seq : ℕ) (writeOk appendOk : Bool) :
    QueueOk (w.completeFlush seq writeOk appendOk) := by
  have hsub : (w.index.flushQueue.madeNotFlushed ++ w.writing.filter fun j => j.seq ≠ seq).Sublist
      w.flushJobs := filter_sublist.append_left _
  have hnodup := h.jobs_nodup.sublist (hsub.map FlushJob.seq)
  rcases completeFlush_cases h seq writeOk appendOk with hw | ⟨done, hdone, hdseq, files, -, hw⟩
  · rw [hw]
    exact h
  rcases hw with ⟨e, hw⟩ | ⟨front, rest, handle, segment, failure, hpending, hseq, -, -, -, hw⟩
  · rw [hw]
    exact ⟨h.seqs_nodup, h.seqs_lt, hnodup, fun job hjob => h.flushes job (hsub.subset hjob)⟩
  · rw [hw]
    have hseqs := h.seqs_nodup
    rw [hpending, map_cons, nodup_cons] at hseqs
    refine ⟨hseqs.2, fun p hp => h.seqs_lt p (by rw [hpending]; exact mem_cons_of_mem _ hp),
      hnodup, fun job hjob => ?_⟩
    obtain ⟨p, hp, heq, hrest⟩ := h.flushes job (hsub.subset hjob)
    rw [hpending] at hp
    rcases mem_cons.mp hp with rfl | hp
    · -- the job of the completed flush is gone, and no other has its number
      have hjseq : job.seq = seq := heq.symm.trans hseq
      rcases mem_append.mp hjob with hmade | hwriting
      · have hall := h.jobs_nodup
        rw [flushJobs, map_append] at hall
        exact absurd (hjseq.trans hdseq.symm) ((nodup_append.mp hall).2.2 _
          (mem_map_of_mem hmade) _ (mem_map_of_mem hdone))
      · simpa [hjseq] using (mem_filter.mp hwriting).2
    · exact ⟨p, hp, heq, hrest⟩

end QueueOk

/-- The actions that only seal tables, queue flushes, hand them out or plan. -/
def IndexAction.Buffers : IndexAction → Prop
  | .publishSnapshot _ | .queueFlush _ _ | .takeFlushJobs | .planCompaction _ _ _ => True
  | _ => False

/-- No file and no tombstone changes, and no segment of an index in a directory. -/
structure Buffered (w w' : World) : Prop where
  root : w'.index.hasRoot = w.index.hasRoot
  handles : w.index.hasRoot = true → w'.index.segmentHandles = w.index.segmentHandles
  mem : w'.index.mem = w.index.mem ∨ w'.index.mem = MemIndex.new
  deleted : w'.index.deleted = w.index.deleted
  files : w'.files = w.files
  finished : w'.finished = w.finished
  queue : (w'.writing = w.writing ∧ w'.index.flushQueue = w.index.flushQueue) ∨
    (w'.writing = w.writing ∧ ∃ path generations,
      w'.index.flushQueue = w.index.flushQueue.push path generations) ∨
    (w'.writing = w.writing ++ w.index.flushQueue.madeNotFlushed ∧
      w'.index.flushQueue = { w.index.flushQueue with madeNotFlushed := [] })

theorem Buffered.live {w' : World} (h : Buffered w w') (hroot : w.index.hasRoot = true) :
    w'.live = w.live := congrArg (filterMap SegmentHandle.path?) (h.handles hroot)

variable {a : IndexAction}

theorem step_buffered (w : World) (ha : IndexAction.Buffers a) : Buffered w (w.step a) := by
  have hseal : ∀ busy, ∃ mem generations, (mem = w.index.mem ∨ mem = MemIndex.new) ∧
      w.index.sealMem busy = { w.index with mem := mem, generations := generations } := by
    intro busy
    rcases sealMem_cases (i := w.index) busy with ⟨-, -, hw⟩ | ⟨-, hw⟩
    · exact ⟨w.index.mem, w.index.generations, .inl rfl, hw⟩
    · exact ⟨_, _, .inr rfl, hw⟩
  cases a with
  | publishSnapshot busy =>
    obtain ⟨mem, generations, hmem, hseal⟩ := hseal busy
    simp only [step, publishSnapshot, hseal]
    exact ⟨rfl, fun _ => rfl, hmem, rfl, rfl, rfl, .inl ⟨rfl, rfl⟩⟩
  | queueFlush busy syncOk =>
    obtain ⟨mem, generations, hmem, hseal⟩ := hseal busy
    simp only [step]
    rcases queueFlush_cases (i := w.index) busy syncOk with
      hw | hw | ⟨_, -, -, -, hw⟩ | ⟨_, hnoroot, hw⟩ | ⟨-, -, hw⟩
    · rw [hw]
      exact ⟨rfl, fun _ => rfl, .inl rfl, rfl, rfl, rfl, .inl ⟨rfl, rfl⟩⟩
    · rw [hw, hseal]
      exact ⟨rfl, fun _ => rfl, hmem, rfl, rfl, rfl, .inl ⟨rfl, rfl⟩⟩
    · rw [hw, hseal]
      exact ⟨rfl, fun _ => rfl, hmem, rfl, rfl, rfl, .inr (.inl ⟨rfl, _, _, rfl⟩)⟩
    · rw [hw, hseal]
      refine ⟨rfl, fun hroot => ?_, hmem, rfl, rfl, rfl, .inl ⟨rfl, rfl⟩⟩
      rw [hroot] at hnoroot
      cases hnoroot
    · rw [hw, hseal]
      exact ⟨rfl, fun _ => rfl, hmem, rfl, rfl, rfl, .inl ⟨rfl, rfl⟩⟩
  | takeFlushJobs => exact ⟨rfl, fun _ => rfl, .inl rfl, rfl, rfl, rfl, .inr (.inr ⟨rfl, rfl⟩)⟩
  | planCompaction config quiet fileSize =>
    simp only [step, planCompaction]
    rcases planCompaction_cases (i := w.index) config quiet fileSize with
      hw | ⟨start, stop, -, -, hw⟩
    all_goals
      rw [hw]
      exact ⟨rfl, fun _ => rfl, .inl rfl, rfl, rfl, rfl, .inl ⟨rfl, rfl⟩⟩
  | _ => cases ha

/-! ### Every reachable world -/

theorem inv_queueFlush (h : Inv w) (busy : ℕ → Bool) (syncOk : Bool) :
    Inv (w.step (.queueFlush busy syncOk)) := by
  have htables := tablesOk_sealMem busy h.tables
  obtain ⟨mem, generations, hseal⟩ := w.index.sealMem_frame busy
  simp only [step]
  rcases queueFlush_cases (i := w.index) busy syncOk with
    hw | hw | ⟨n, -, -, -, hw⟩ | ⟨n, -, hw⟩ | ⟨hne, hmax, -⟩
  · rw [hw]
    exact h
  · rw [hw]
    refine ⟨?_, ?_, htables⟩
    · rw [hseal]
      exact h.files.frame rfl rfl rfl rfl rfl rfl
    · rw [hseal]
      exact h.queue.frame rfl
  · rw [hw]
    refine ⟨?_, ?_, ⟨by simp, htables.mem⟩⟩
    · rw [hseal]
      exact h.files.queueFlush ⟨rfl, rfl, rfl, rfl, rfl, rfl⟩
    · rw [hseal]
      exact h.queue.push rfl
  · rw [hw]
    refine ⟨?_, ?_, ⟨by simp, htables.mem⟩⟩
    · rw [hseal]
      exact (h.files.addMemory _).frame rfl rfl rfl rfl rfl rfl
    · rw [hseal]
      exact h.queue.frame rfl
  · exact absurd (maxDocIdOf_eq_none hmax htables.generations) hne

theorem inv_planCompaction (h : Inv w) (config : CompactionConfig) (quiet : Bool)
    (fileSize : ℕ → ℕ) : Inv (w.planCompaction config quiet fileSize) := by
  unfold planCompaction
  rcases planCompaction_cases (i := w.index) config quiet fileSize with
    hw | ⟨start, stop, hwindow, -, hw⟩
  · simp only [hw, Option.toList_none, append_nil]
    exact h
  · simp only [hw, Option.toList_some]
    exact ⟨h.files.planCompaction hwindow, h.queue.frame rfl, ⟨h.tables.generations, h.tables.mem⟩⟩

theorem inv_step (h : Inv w) (a : IndexAction) : Inv (w.step a) := by
  cases a with
  | mergeIntoMemtable docs =>
    exact ⟨h.files.frame rfl rfl rfl rfl rfl rfl, h.queue.frame rfl,
      tablesOk_mergeIntoMemtable docs h.tables⟩
  | deleteDocument docId appendOk =>
    refine ⟨?_, h.queue.frame rfl, ⟨h.tables.generations, h.tables.mem⟩⟩
    -- a new delete generation: no job knows it
    refine ⟨h.files.sync, h.files.paths_nodup, h.files.paths_lt, fun job hj => ?_, h.files.outputs⟩
    have hok := h.files.jobs_ok job hj
    have hle : job.deleteGeneration < w.index.deleteGeneration + 1 :=
      lt_succ_of_le hok.generation_le
    exact ⟨hok.ne_nil, hok.nodup, hok.old, hle.le, fun heq => absurd heq hle.ne⟩
  | publishSnapshot busy =>
    obtain ⟨mem, generations, hseal⟩ := w.index.sealMem_frame busy
    refine ⟨?_, ?_, tablesOk_sealMem busy h.tables⟩
    · simp only [step, publishSnapshot, hseal]
      exact h.files.frame rfl rfl rfl rfl rfl rfl
    · simp only [step, publishSnapshot, hseal]
      exact h.queue.frame rfl
  | queueFlush busy syncOk => exact inv_queueFlush h busy syncOk
  | takeFlushJobs =>
    exact ⟨h.files.frame rfl rfl rfl rfl rfl rfl, h.queue.takeFlushJobs,
      ⟨h.tables.generations, h.tables.mem⟩⟩
  | completeFlush seq writeOk appendOk =>
    refine ⟨filesOk_completeFlush h.files h.queue seq writeOk appendOk,
      h.queue.completeFlush seq writeOk appendOk, ?_⟩
    simp only [step]
    rcases completeFlush_cases h.queue seq writeOk appendOk with
      hw | ⟨_, -, -, _, -, ⟨_, hw⟩ | ⟨_, _, _, _, _, -, -, -, -, -, hw⟩⟩
    all_goals
      rw [hw]
      exact ⟨h.tables.generations, h.tables.mem⟩
  | planCompaction config quiet fileSize => exact inv_planCompaction h config quiet fileSize
  | runCompaction jobId ok =>
    refine ⟨filesOk_runCompaction h.files jobId ok, ?_, ?_⟩
    all_goals
      simp only [step]
      rcases w.runCompaction_cases jobId ok with hw | hw | ⟨_, -, _, -, -, hw⟩
    · rw [hw]; exact h.queue
    · rw [hw]; exact h.queue.frame rfl
    · rw [hw]; exact h.queue.frame rfl
    · rw [hw]; exact h.tables
    · rw [hw]; exact h.tables
    · rw [hw]; exact h.tables
  | installCompaction jobId openOk manifestOk clearOk =>
    refine ⟨filesOk_installCompaction h.files jobId openOk manifestOk clearOk, ?_, ?_⟩
    all_goals
      simp only [step]
      rcases w.installCompaction_cases jobId openOk manifestOk clearOk with
        hw | ⟨_, -, -, ⟨_, -, hw⟩ | ⟨_, _, _, -, -, -, -, -, hw⟩⟩
    · rw [hw]; exact h.queue
    · rw [hw]; exact h.queue.frame rfl
    · rw [hw]; exact h.queue.frame rfl
    · rw [hw]; exact h.tables
    · rw [hw]; exact h.tables
    · rw [hw]; exact ⟨h.tables.generations, h.tables.mem⟩

theorem inv_run (h : Inv w) (as : List IndexAction) : Inv (w.run as) := by
  induction as generalizing w with
  | nil => exact h
  | cons a as ih => exact ih (inv_step h a)

variable {manifest : List (ℕ × Segment)}

theorem lt_nextSegmentId (n : ℕ) :
    n ≤ manifest.foldl (fun n e => max n (e.1 + 1)) n ∧
      ∀ p ∈ manifest.map Prod.fst, p < manifest.foldl (fun n e => max n (e.1 + 1)) n := by
  induction manifest generalizing n with
  | nil => simp
  | cons e manifest ih =>
    obtain ⟨hle, hlt⟩ := ih (max n (e.1 + 1))
    rw [foldl_cons]
    refine ⟨(le_max_left _ _).trans hle, fun p hp => ?_⟩
    rcases mem_cons.mp hp with rfl | hp
    · exact (lt_succ_self _).trans_le ((le_max_right _ _).trans hle)
    · exact hlt p hp

theorem get?_manifest (h : (manifest.map Prod.fst).Nodup)
    {e : ℕ × Segment} (he : e ∈ manifest) :
    (empty.extend (fun _ s => s) manifest : SortedMap ℕ Segment).get? e.1 = some e.2 :=
  get?_extend_of_nodup h he

theorem inv_idle {i : LsmIndex} {files : SortedMap ℕ Segment} (hq : i.flushQueue = FlushQueue.empty)
    (hg : i.generations = []) (hm : i.mem = MemIndex.new)
    (hsync : i.segmentHandles.map (openHandle files) = i.querySegments.map some)
    (hnodup : (i.segmentHandles.filterMap SegmentHandle.path?).Nodup)
    (hlt : ∀ p ∈ i.segmentHandles.filterMap SegmentHandle.path?, p < i.nextSegmentId) :
    Inv ⟨i, files, [], [], []⟩ where
  files := by
    have hres : reserved ⟨i, files, [], [], []⟩ = [] := by
      simp [reserved, jobs, hq, FlushQueue.empty]
    exact ⟨hsync, by rwa [hres, append_nil], by rwa [hres, append_nil], by simp [jobs], by simp⟩
  queue := by
    have hjobs : flushJobs ⟨i, files, [], [], []⟩ = [] := by simp [flushJobs, hq, FlushQueue.empty]
    exact ⟨by simp [hq, FlushQueue.empty], by simp [hq, FlushQueue.empty], by simp [hjobs],
      by simp [hjobs]⟩
  tables := ⟨by simp [hg], fun _ => by rw [hm]; rfl⟩

theorem Fresh.inv (h : Fresh w) : Inv w := by
  cases h with
  | inMemory => exact inv_idle rfl rfl rfl rfl nodup_nil (by simp [LsmIndex.new])
  | opened manifest deleted hnodup =>
    have hpaths : (persistent manifest deleted).segmentHandles.filterMap
        SegmentHandle.path? = manifest.map Prod.fst := by
      rw [persistent, filterMap_map, ← filterMap_eq_map]
      rfl
    refine inv_idle rfl rfl rfl ?_ (by rwa [hpaths]) (by rw [hpaths]; exact (lt_nextSegmentId 0).2)
    simp only [persistent, map_map]
    exact map_congr_left fun e he => get?_manifest hnodup he

/-! ### What an action does to the parts and the tombstones -/

def IndexAction.added : IndexAction → List Reader
  | .mergeIntoMemtable docs => [.mem (ofDocuments docs)]
  | _ => []

def IndexAction.Installs (job : CompactionJob) : IndexAction → Prop
  | .installCompaction jobId _ _ _ => job.jobId = jobId
  | _ => False

def groups (w : World) : IndexAction → List (List Reader)
  | .mergeIntoMemtable docs => [[.mem w.index.mem, .mem (ofDocuments docs)]]
  | .publishSnapshot busy => w.index.sealMemGroups busy
  | .queueFlush busy _ => w.index.queueFlushGroups busy
  | .completeFlush seq _ _ =>
    if w.writing.any fun job => job.seq = seq then
      (w.index.flushQueue.pending.filter fun p => p.seq = seq).map fun p => p.generations.map .mem
    else []
  | .installCompaction jobId _ _ _ =>
    (w.finished.filter fun job => job.jobId = jobId).map fun job =>
      (job.selected.filterMap (openHandle w.files)).map .seg
  | _ => []

theorem step_makesIn (h : Inv w) (a : IndexAction) :
    ∃ deleted, (deleted = ∅ ∨ ∃ job ∈ w.finished, IndexAction.Installs job a ∧ deleted = job.deleted) ∧
      Regroup (MakesIn (w.groups a) deleted) (IndexAction.added a ++ w.index.readers)
        (w.step a).index.readers := by
  cases a with
  | mergeIntoMemtable docs =>
    refine ⟨∅, .inl rfl, ?_⟩
    refine Regroup.trans (Regroup.perm (Perm.swap _ _ _)) ?_
    have hpair : MakesIn (w.groups (.mergeIntoMemtable docs)) ∅
        (.mem (w.index.mem.mergeFrom (ofDocuments docs)))
        [.mem w.index.mem, .mem (ofDocuments docs)] :=
      ⟨.mergeFrom _ _, .inr mem_cons_self⟩
    exact Regroup.gather w.index.parts hpair
  | deleteDocument docId appendOk => exact ⟨∅, .inl rfl, Regroup.refl _⟩
  | publishSnapshot busy => exact ⟨∅, .inl rfl, sealMem_regroupIn busy⟩
  | queueFlush busy syncOk =>
    exact ⟨∅, .inl rfl, queueFlush_regroupIn syncOk (tablesOk_sealMem busy h.tables).generations⟩
  | takeFlushJobs => exact ⟨∅, .inl rfl, Regroup.refl _⟩
  | completeFlush seq writeOk appendOk =>
    refine ⟨∅, .inl rfl, ?_⟩
    simp only [step, IndexAction.added, nil_append]
    have hlen : w.index.segmentHandles.length = w.index.querySegments.length := by
      simpa using congrArg length h.files.sync
    rcases completeFlush_cases h.queue seq writeOk appendOk with
      hw | ⟨job, hjob, hseq, _, -, ⟨_, hw⟩ |
        ⟨front, rest, _, segment, _, hpending, hfront, -, -, hmakes, hw⟩⟩
    · rw [hw]
      exact Regroup.refl _
    · rw [hw]
      exact Regroup.refl _
    · rw [hw]
      have hmem : front.generations.map Reader.mem ∈ w.groups (.completeFlush seq writeOk appendOk) := by
        have hwriting : (w.writing.any fun job => job.seq = seq) = true :=
          any_eq_true.mpr ⟨job, hjob, by simpa using hseq⟩
        rw [groups, if_pos hwriting]
        refine mem_map.mpr ⟨front, mem_filter.mpr ⟨?_, by simpa using hfront⟩, rfl⟩
        rw [hpending]
        exact mem_cons_self
      exact flushed_regroup hpending (hlen ▸ sub_le _ _) ⟨hmakes, .inr hmem⟩
  | planCompaction config quiet fileSize =>
    refine ⟨∅, .inl rfl, ?_⟩
    simp only [step, planCompaction, IndexAction.added, nil_append]
    rcases planCompaction_cases (i := w.index) config quiet fileSize with
      hw | ⟨start, stop, -, -, hw⟩
    · rw [hw]
      exact Regroup.refl _
    · rw [hw]
      exact Regroup.refl _
  | runCompaction jobId ok =>
    refine ⟨∅, .inl rfl, ?_⟩
    simp only [step, IndexAction.added, nil_append]
    rcases w.runCompaction_cases jobId ok with hw | hw | ⟨_, -, _, -, -, hw⟩
    · rw [hw]
      exact Regroup.refl _
    · rw [hw]
      exact Regroup.refl _
    · rw [hw]
      exact Regroup.refl _
  | installCompaction jobId openOk manifestOk clearOk =>
    simp only [step, IndexAction.added, nil_append]
    rcases w.installCompaction_cases jobId openOk manifestOk clearOk with
      hw | ⟨job, hjob, hid, ⟨_, -, hw⟩ | ⟨disk, _, _, -, hfresh, hget, -, -, hw⟩⟩
    · rw [hw]
      exact ⟨∅, .inl rfl, Regroup.refl _⟩
    · rw [hw]
      exact ⟨∅, .inl rfl, Regroup.refl _⟩
    · rw [hw]
      have hlive : ∀ a ∈ job.selected, a ∈ w.index.segmentHandles := mem_of_not_stale hfresh
      obtain ⟨opened, hopened, hout⟩ := h.files.outputs job hjob hlive
      obtain rfl : Compaction.compacted job.deleted opened = disk :=
        Option.some_inj.mp (hout.symm.trans hget)
      refine ⟨job.deleted, .inr ⟨job, hjob, hid, rfl⟩, ?_⟩
      refine replaceSelected_regroup hfresh
        (h.files.jobs_ok job (mem_append_right _ hjob)).nodup h.files.sync hopened
        ⟨.compacted job.deleted opened, .inr ?_⟩
      have hfilter : job.selected.filterMap (openHandle w.files) = opened := by
        have hids := congrArg (filterMap id) hopened
        rwa [filterMap_map, filterMap_map, Function.id_comp, Function.id_comp,
          filterMap_some] at hids
      refine mem_map.mpr ⟨job, mem_filter.mpr ⟨hjob, by simpa using hid⟩, ?_⟩
      rw [hfilter]

theorem step_regroupIn (h : Inv w) (a : IndexAction) :
    ∃ deleted, (deleted = ∅ ∨ ∃ job ∈ w.finished, IndexAction.Installs job a ∧ deleted = job.deleted) ∧
      Regroup (GathersIn (w.groups a) deleted) (IndexAction.added a ++ w.index.readers)
        (w.step a).index.readers := by
  obtain ⟨deleted, hdeleted, hregroup⟩ := step_makesIn h a
  exact ⟨deleted, hdeleted, hregroup.mono MakesIn.gathersIn⟩

theorem step_regroup (h : Inv w) (a : IndexAction) :
    ∃ deleted, (deleted = ∅ ∨ ∃ job ∈ w.finished, IndexAction.Installs job a ∧ deleted = job.deleted) ∧
      Regroup (Gathers deleted) (IndexAction.added a ++ w.index.readers)
        (w.step a).index.readers := by
  obtain ⟨deleted, hdeleted, hregroup⟩ := step_regroupIn h a
  exact ⟨deleted, hdeleted, hregroup.mono fun _ _ h => h.1⟩

theorem clears_spec (h : Inv w) (hc : Clears w a) :
    (w.step a).index.deleted = ∅ ∧ (w.step a).index.mem = w.index.mem ∧
      (w.step a).index.generations = w.index.generations ∧
      (w.step a).index.flushQueue = w.index.flushQueue ∧
      ∃ deleted opened, w.index.deleted ⊆ deleted ∧
        (w.step a).index.querySegments = [Compaction.compacted deleted opened] ∧
        ∀ s ∈ opened, s ∈ w.index.querySegments := by
  cases a with
  | installCompaction jobId openOk manifestOk clearOk =>
    obtain ⟨job, hfind, hroot, hfresh, hok, rfl, hall, hgen⟩ := hc
    have hjob : job ∈ w.finished := (find_job hfind).1
    have hjobOk := h.files.jobs_ok job (mem_append_right _ hjob)
    obtain ⟨opened, hopened, hout⟩ :=
      h.files.outputs job hjob (mem_of_not_stale hfresh)
    have houtput : w.output job openOk = .ok (Compaction.compacted job.deleted opened) := by
      cases openOk with
      | false => simp [output, Except.isOk, Except.toBool] at hok
      | true => simp [output, hout]
    have hstep : (w.step (.installCompaction jobId openOk true clearOk)).index
        = { w.index.replaceSelected job.completed (Compaction.compacted job.deleted opened) with
            deleted := ∅ } := by
      simp only [step, installCompaction, hfind]
      unfold LsmIndex.installCompaction
      rw [if_neg (by simp [hroot]), if_neg (by simp [hfresh]), houtput]
      simp only
      rw [if_neg (by simp), if_pos ⟨hall, hgen⟩]
    rw [hstep]
    refine ⟨rfl, rfl, rfl, rfl, job.deleted, opened, hjobOk.knows hgen, ?_, fun s hs => ?_⟩
    · exact replaceSelected_all hfresh hjobOk.nodup h.files.sync hopened hall
    · -- an opened input is what a live handle opens to
      have hs' : some s ∈ job.selected.map (openHandle w.files) := hopened ▸ mem_map_of_mem hs
      obtain ⟨handle, hhandle, hopen⟩ := mem_map.mp hs'
      have hlive : some s ∈ w.index.segmentHandles.map (openHandle w.files) :=
        hopen ▸ mem_map_of_mem (mem_of_not_stale hfresh handle hhandle)
      rw [h.files.sync] at hlive
      obtain ⟨s', hs'', heq⟩ := mem_map.mp hlive
      exact Option.some_inj.mp heq ▸ hs''
  | _ => cases hc

theorem step_deleted (h : Inv w) (hd : ∀ d ok, a ≠ .deleteDocument d ok)
    (hc : ¬ Clears w a) : (w.step a).index.deleted = w.index.deleted := by
  cases a with
  | mergeIntoMemtable docs => rfl
  | deleteDocument docId appendOk => exact absurd rfl (hd docId appendOk)
  | completeFlush seq writeOk appendOk =>
    simp only [step]
    rcases completeFlush_cases h.queue seq writeOk appendOk with
      hw | ⟨_, -, -, _, -, ⟨_, hw⟩ | ⟨_, _, _, _, _, -, -, -, -, -, hw⟩⟩
    all_goals rw [hw]
  | runCompaction jobId ok =>
    simp only [step]
    rcases w.runCompaction_cases jobId ok with hw | hw | ⟨_, -, _, -, -, hw⟩
    all_goals rw [hw]
  | installCompaction jobId openOk manifestOk clearOk =>
    simp only [step]
    rcases w.installCompaction_cases jobId openOk manifestOk clearOk with
      hw | ⟨_, -, -, ⟨_, -, hw⟩ | ⟨_, _, _, -, -, -, hdel | ⟨-, hclears⟩, -, hw⟩⟩
    · rw [hw]
    · rw [hw]
    · rw [hw, hdel]
    · exact absurd hclears hc
  | _ => exact (w.step_buffered (by trivial)).deleted

end World

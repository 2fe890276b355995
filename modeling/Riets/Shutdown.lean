/-
The shutdown of the index worker.

`Shutdown` ends the loop with `LsmIndex::flush`, which writes the segments on the
calling thread and refuses to run while the writer has some.
-/
import Riets.FlushAck

namespace ManifestWorld

open World LsmIndex List

variable {m : ManifestWorld} {x : XPathId} {d : DocId}

theorem held_of_held_step (h : m.world.Inv) {a : IndexAction} (ha : IndexAction.added a = [])
    (hheld : (m.world.step a).Held x d) : m.world.Held x d := by
  obtain ⟨deleted, -, hregroup⟩ := step_regroup h a
  by_contra hnot
  have hnone := hregroup.none_of_none (P := fun r => r.Holds x d)
    (fun r group hgather hgroup hholds => ?_) fun r hr hholds => ?_
  · obtain ⟨r, hr, hholds⟩ := hheld
    exact hnone r hr hholds
  · obtain ⟨-, b, hb, hholds⟩ := (hgather.holds x d).mp hholds
    exact hgroup b hb hholds
  · rw [ha] at hr
    exact hnot ⟨r, hr, hholds⟩

theorem queueFlush_healthy (h : m.world.Inv) (hfailure : m.world.index.flushQueue.failure = none)
    (busy : ℕ → Bool) : (m.world.index.queueFlush busy true).1 = .ok () := by
  have htables := (tablesOk_sealMem busy h.tables).generations
  obtain ⟨j, hj⟩ : ∃ j, j = m.world.index.sealMem busy := ⟨_, rfl⟩
  rw [← hj] at htables
  unfold queueFlush
  simp only [FlushQueue.health, hfailure, ← hj]
  rw [if_neg (by simp)]
  by_cases hnil : j.generations = []
  · rw [if_pos hnil]
  · rw [if_neg hnil]
    cases hmax : maxDocIdOf j.generations with
    | none => exact absurd (maxDocIdOf_eq_none hmax htables) hnil
    | some n =>
      simp only
      split_ifs
      · rfl
      · rfl

theorem completeFlush_ok (h : DiskOk m) {job : FlushJob} {rest : List FlushJob}
    (hwriting : m.world.writing = job :: rest) :
    (m.world.index.completeFlush job.seq (.ok job.write) true).1 = .ok () := by
  obtain ⟨front, pending, -, -, -, -, hcomplete⟩ := h.head hwriting
  simp only [LsmIndex.completeFlush, hcomplete, installFlushed, h.flush.root]
  rfl

/-- `m'` is reached from `m` by steps that keep the stages of every id, also of a
deleted one. -/
structure Settles (m m' : ManifestWorld) : Prop where
  ok : DiskOk m'
  failure : m'.world.index.flushQueue.failure = m.world.index.flushQueue.failure
  nextSeq_le : m.world.index.flushQueue.nextSeq ≤ m'.world.index.flushQueue.nextSeq
  flushed : ∀ n x d, m.world.FlushedBelow n x d → m'.world.FlushedBelow n x d
  held : ∀ x d, m'.world.Held x d → m.world.Held x d

theorem writeAll_spec (jobs : List FlushJob) (h : DiskOk m) (hwriting : m.world.writing = jobs)
    (hmade : m.world.index.flushQueue.madeNotFlushed = []) :
    (writeAll true true jobs m).1 = .ok () ∧ Settles m (writeAll true true jobs m).2 ∧
      (writeAll true true jobs m).2.world.index.flushQueue.pending = [] := by
  induction jobs generalizing m with
  | nil =>
    have hpending := h.order
    rw [hwriting, hmade] at hpending
    exact ⟨rfl, ⟨h, rfl, le_rfl, fun _ _ _ => id, fun _ _ => id⟩, map_eq_nil_iff.mp hpending⟩
  | cons job jobs ih =>
    obtain ⟨front, pending, -, -, hrest, -, hmade', hfailure⟩ := h.completeFlush hwriting true true
    rw [if_pos ⟨rfl, rfl⟩] at hfailure
    have horderly : m.Orderly (.act (.completeFlush job.seq true true) m.manifest) :=
      ⟨⟨job, jobs, hwriting, rfl⟩, fun _ => id⟩
    have hstep := h.step horderly
    obtain ⟨hok, hsettles, hempty⟩ := ih hstep hrest (hmade'.trans hmade)
    have hwrite : writeAll true true (job :: jobs) m =
        writeAll true true jobs (m.step (.act (.completeFlush job.seq true true) m.manifest)) := by
      rw [writeAll]
      simp only [if_true, completeFlush_ok h hwriting]
    rw [hwrite]
    have hnext := (queue_step h.inv h.flush (.completeFlush job.seq true true)).1
    refine ⟨hok, ⟨hsettles.ok, hsettles.failure.trans hfailure.1, hnext.trans hsettles.nextSeq_le,
      fun n x d hx => ?_, fun x d hx => ?_⟩, hempty⟩
    · refine hsettles.flushed n x d (flushedBelow_step h.inv h.flush.root ?_ hx)
      exact fun _ _ hinstalls => hinstalls.elim
    · exact held_of_held_step h.inv rfl (hsettles.held x d hx)

theorem queueFlush_unsynced (h : DiskOk m) (busy : ℕ → Bool) :
    (m.world.index.queueFlush busy false).1 ≠ .ok () := by
  have hroot : (m.world.index.sealMem busy).hasRoot = true :=
    (sealMem_hasRoot _ busy).trans h.flush.root
  intro hok
  unfold queueFlush at hok
  cases hhealth : m.world.index.flushQueue.health with
  | error e =>
    rw [hhealth] at hok
    cases hok
  | ok u =>
    rw [hhealth] at hok
    simp only at hok
    rw [if_pos ⟨hroot, Bool.false_ne_true⟩] at hok
    cases hok

theorem flush_spec (h : DiskOk m) (hfailure : m.world.index.flushQueue.failure = none)
    (hmade : m.world.index.flushQueue.madeNotFlushed = []) (busy : ℕ → Bool) (syncOk : Bool) :
    ((m.flush busy syncOk true true).1 = .ok () ↔ m.writesInFlight = false ∧ syncOk = true) ∧
      ((m.flush busy syncOk true true).1 = .ok () → DiskOk (m.flush busy syncOk true true).2 ∧
        ∀ x d, (m.flush busy syncOk true true).2.world.OnDisk x d ↔ m.world.Held x d) := by
  rw [flush]
  cases hflight : m.writesInFlight with
  | true =>
    rw [if_pos rfl]
    refine ⟨⟨fun hok => ?_, fun hno => ?_⟩, fun hok => ?_⟩
    · cases hok
    · cases hno.1
    · cases hok
  | false =>
    rw [if_neg Bool.false_ne_true]
    cases syncOk with
    | false =>
      cases hq : (m.world.index.queueFlush busy false).1 with
      | ok u => exact absurd hq (queueFlush_unsynced h busy)
      | error e =>
        refine ⟨⟨fun hok => ?_, fun hno => ?_⟩, fun hok => ?_⟩
        · cases hok
        · cases hno.2
        · cases hok
    | true =>
      have hq := queueFlush_healthy h.inv hfailure busy
      rw [hq]
      simp only
      -- nothing is out, so the writer has nothing
      have hwriting : m.world.writing = [] := by
        have hshort : m.world.index.flushQueue.pending = [] := by
          rw [writesInFlight, hmade, length_nil, decide_eq_false_iff_not, Nat.not_lt,
            Nat.le_zero] at hflight
          exact eq_nil_of_length_eq_zero hflight
        have horder := h.order
        rw [hshort, hmade, append_nil] at horder
        exact map_eq_nil_iff.mp horder.symm
      have hqueued : DiskOk (m.act (.queueFlush busy true)) := h.step trivial
      have htaken : DiskOk ((m.act (.queueFlush busy true)).act .takeFlushJobs) := hqueued.step trivial
      have hjobs : ((m.act (.queueFlush busy true)).act .takeFlushJobs).world.writing =
          (m.act (.queueFlush busy true)).world.index.flushQueue.madeNotFlushed := by
        show m.world.writing ++ _ = _
        rw [hwriting]
        rfl
      obtain ⟨hok, hsettles, hempty⟩ := writeAll_spec _ htaken hjobs rfl
      have hhealthy : ((m.act (.queueFlush busy true)).act .takeFlushJobs).world.index.flushQueue.failure =
          none := by
        rw [← hfailure]
        have hsteady : Steady m (m.act (.queueFlush busy true)) :=
          steady_act (fun _ _ _ heq => by cases heq)
        exact hsteady.failure
      refine ⟨⟨fun _ => ⟨trivial, trivial⟩, fun _ => hok⟩, fun _ => ⟨hsettles.ok, fun x d => ⟨fun hdisk => ?_,
        fun hheld => ?_⟩⟩⟩
      · have hheld := hsettles.held x d (held_of_onDisk hsettles.ok.inv hdisk)
        exact held_of_held_step h.inv rfl (held_of_held_step hqueued.inv rfl hheld)
      · have hbelow := flushedBelow_queueFlush h.inv h.flush hq hheld
        have htook := flushedBelow_step (a := .takeFlushJobs) hqueued.inv hqueued.flush.root
          (fun _ _ hinstalls => hinstalls.elim) hbelow
        refine onDisk_of_flushedBelow hsettles.ok.flush (hsettles.flushed _ x d htook)
          (hsettles.failure.trans hhealthy) ?_
        rw [hempty, length_nil, Nat.sub_zero]
        exact hsettles.nextSeq_le

end ManifestWorld

namespace WorkerLoop

open List ManifestWorld

variable {k : WorkerLoop}

def NoWriteFails (cs : List (IndexCommand × Option (ℕ → Bool))) : Prop :=
  ∀ c ∈ cs, ∀ writeOk appendOk lineLeft, c.1 = .segmentWritten writeOk appendOk lineLeft →
    writeOk = true ∧ appendOk = true

theorem failure_step (h : LoopOk k) {c : IndexCommand × Option (ℕ → Bool)} (hc : NoWriteFails [c])
    (hfailure : k.index.flushQueue.failure = none) : (k.step c).index.flushQueue.failure = none := by
  have hhandled : (k.handle c.1).disk.world.index.flushQueue.failure = none := by
    by_cases hwritten : ∃ w p l, c.1 = .segmentWritten w p l
    · obtain ⟨writeOk, appendOk, lineLeft, heq⟩ := hwritten
      obtain ⟨rfl, rfl⟩ := hc c mem_cons_self writeOk appendOk lineLeft heq
      rw [heq]
      show (k.disk.complete true true lineLeft).world.index.flushQueue.failure = none
      rw [complete]
      cases hwriting : k.disk.world.writing with
      | nil => exact hfailure
      | cons job rest =>
        obtain ⟨front, pending, -, -, -, -, -, hsame⟩ := h.disk.completeFlush hwriting true true
        rw [if_pos ⟨rfl, rfl⟩] at hsame
        exact hsame.1.trans hfailure
    · exact (handle_spec h.disk fun w p l heq => hwritten ⟨w, p, l, heq⟩).2.failure.trans hfailure
  rw [step_eq]
  exact (settle_spec (handle_advances h.disk c.1).ok c.2).2.failure.trans hhandled

theorem healthy_run {cs : List (IndexCommand × Option (ℕ → Bool))} (h : LoopOk k) (hcs : NoWriteFails cs)
    (hfailure : k.index.flushQueue.failure = none)
    (hmade : k.index.flushQueue.madeNotFlushed = []) :
    (k.run cs).index.flushQueue.failure = none ∧ (k.run cs).index.flushQueue.madeNotFlushed = [] := by
  induction cs generalizing k with
  | nil => exact ⟨hfailure, hmade⟩
  | cons c cs ih =>
    have hc : NoWriteFails [c] := fun c' hc' => hcs c' (mem_singleton.mp hc' ▸ mem_cons_self)
    exact ih (h.step c) (fun c' hc' => hcs c' (mem_cons_of_mem c hc'))
      (failure_step h hc hfailure) rfl

/-- **When a shutdown flushes everything.**  After commands without a failed write,
`Shutdown` returns well and leaves every document that was added in a segment file
that the manifest lists, exactly when no segment write is in flight, the tombstones
can be synced and no compaction dropped one of the documents.  Only deleted
documents are dropped. -/
theorem shutdown_flushes (entries : List (ℕ × Segment)) (hnodup : (entries.map Prod.fst).Nodup)
    (tombstones : DeleteSet) (flushThreshold : ℕ) (cs : List (IndexCommand × Option (ℕ → Bool)))
    (hcs : NoWriteFails cs) (busy : ℕ → Bool) (syncOk : Bool) :
    ((((start entries tombstones flushThreshold).run cs).shutdown busy syncOk true true).1 = .ok () ∧
        (∀ x d, (start entries tombstones flushThreshold).AddedIn cs x d →
          (((start entries tombstones flushThreshold).run cs).shutdown busy syncOk true
            true).2.Listed x d) ↔
      ((start entries tombstones flushThreshold).run cs).disk.writesInFlight = false ∧
        syncOk = true ∧ ∀ x d, (start entries tombstones flushThreshold).AddedIn cs x d →
          ((start entries tombstones flushThreshold).run cs).disk.world.Held x d) ∧
    ∀ x d, (start entries tombstones flushThreshold).AddedIn cs x d → d ∉ tombstones →
      d ∉ deletedIn cs → ((start entries tombstones flushThreshold).run cs).disk.world.Held x d := by
  have hstart : LoopOk (start entries tombstones flushThreshold) := loopOk_start hnodup
  have hend := hstart.run cs
  obtain ⟨hfailure, hmade⟩ := healthy_run hstart hcs rfl rfl
  obtain ⟨hiff, hdone⟩ := flush_spec hend.disk hfailure hmade busy syncOk
  refine ⟨⟨fun ⟨hok, hlisted⟩ => ?_, fun ⟨hflight, hsync, hheld⟩ => ?_⟩, fun x d hadded hd hdel => ?_⟩
  · obtain ⟨hflight, hsync⟩ := hiff.mp hok
    refine ⟨hflight, hsync, fun x d hadded => ?_⟩
    obtain ⟨p, s, -, hp, hs, hholds⟩ := hlisted x d hadded
    exact ((hdone hok).2 x d).mp ⟨p, s, hp, hs, hholds⟩
  · have hok := hiff.mpr ⟨hflight, hsync⟩
    obtain ⟨hdisk, hon⟩ := hdone hok
    exact ⟨hok, fun x d hadded => hdisk.listed_of_onDisk ((hon x d).mpr (hheld x d hadded))⟩
  · exact held_run hstart.disk (kept_start hd) hdel hadded

def addOne : List (IndexCommand × Option (ℕ → Bool)) :=
  [(.addIndexedDocuments (some [FlushRun.word 1]) (fun _ => false) fun _ => true, none)]

theorem shutdown_flushes_addOne :
    (((start [] ∅ 1000).run addOne).shutdown (fun _ => false) true true true).1 = .ok () ∧
      (((start [] ∅ 1000).run addOne).shutdown (fun _ => false) true true true).2.Listed 0 1 := by
  have hcs : NoWriteFails addOne := by
    intro c hc writeOk appendOk lineLeft heq
    rw [mem_singleton.mp hc] at heq
    cases heq
  have hdel : ∀ d, d ∉ deletedIn addOne := by
    rintro d ⟨c, hc, hd⟩
    rw [mem_singleton.mp hc] at hd
    exact hd
  have hword : (MemIndex.ofDocuments [FlushRun.word 1]).Holds 0 1 := .inl ⟨"word", by decide +kernel⟩
  obtain ⟨hiff, hheld⟩ := shutdown_flushes [] nodup_nil ∅ 1000 addOne hcs (fun _ => false) true
  obtain ⟨hok, hlisted⟩ := hiff.mpr ⟨by decide +kernel, rfl, fun x d hadded =>
    hheld x d hadded (Finset.notMem_empty d) (hdel d)⟩
  exact ⟨hok, hlisted 0 1 (.inl ⟨FlushRun.word 1, by decide +kernel, hword⟩)⟩

/-- The document is added and flushed, and the worker is told to stop before the
writer has reported the segment. -/
def addAndFlush : List (IndexCommand × Option (ℕ → Bool)) :=
  addOne ++ [(.flush (fun _ => false) true, none)]

/-- The shutdown fails although nothing failed. -/
theorem shutdown_in_flight :
    ∃ cs, NoWriteFails cs ∧
      (((start [] ∅ 1000).run cs).shutdown (fun _ => false) true true true).1 ≠ .ok () := by
  refine ⟨addAndFlush, fun c hc writeOk appendOk lineLeft heq => ?_, ?_⟩
  · rcases mem_cons.mp hc with rfl | hc
    · cases heq
    · rw [mem_singleton.mp hc] at heq
      cases heq
  · have hflight : ((start [] ∅ 1000).run addAndFlush).disk.writesInFlight = true := by decide +kernel
    rw [shutdown, flush, if_pos hflight]
    exact fun hok => by cases hok

end WorkerLoop

/-
Acknowledgements of a flush.

A flush waits for the number of the next write: it is acknowledged when all writes
below that number were reported, with the health of the queue.
-/
import Riets.WorkerLoop

namespace WorkerLoop

open List ManifestWorld SortedMap Option Nat World LsmIndex

variable {k k' : WorkerLoop} {x : XPathId} {d : DocId} {n t : ℕ}

/-- The flushes that wait are in order and none of them could go, and everything
queued was handed to the writer. -/
structure LoopOk (k : WorkerLoop) : Prop where
  disk : k.disk.DiskOk
  waiters : ∀ waiter ∈ k.flushWaiters, waiter.2 < k.count
  answered : ∀ n, k.answers.get? n ≠ none → n < k.count
  sorted : k.flushWaiters.Pairwise fun a b => a.1 ≤ b.1
  waiting : ∀ waiter ∈ k.flushWaiters,
    k.flushedThrough < waiter.1 ∧ waiter.1 ≤ k.index.flushQueue.nextSeq

/-- What a command does to the flushes sent before it: it answers some of them. -/
structure Serves (k k' : WorkerLoop) : Prop where
  waiters : ∀ t n, n < k.count → (t, n) ∈ k'.flushWaiters → (t, n) ∈ k.flushWaiters
  answers : ∀ n < k.count, k'.answers.get? n = k.answers.get? n ∨
    ∃ t, (t, n) ∈ k.flushWaiters ∧ t ≤ k'.flushedThrough ∧
      k'.answers.get? n = some k'.index.flushQueue.health.isOk
  released : ∀ t n, n < k.count → (t, n) ∈ k.flushWaiters →
    (t, n) ∈ k'.flushWaiters ∨ k'.answers.get? n ≠ none

theorem get?_foldl_answers {waiters : List (ℕ × ℕ)} {answers : SortedMap ℕ Bool} {ok : Bool} (n : ℕ) :
    (waiters.foldl (fun answers waiter => answers.insert waiter.2 ok) answers).get? n =
      if ∃ waiter ∈ waiters, waiter.2 = n then some ok else answers.get? n := by
  induction waiters generalizing answers with
  | nil => simp
  | cons first waiters ih =>
    rw [foldl_cons, ih, get?_insert]
    by_cases hrest : ∃ waiter ∈ waiters, waiter.2 = n
    · obtain ⟨waiter, hw, hn⟩ := hrest
      rw [if_pos ⟨waiter, hw, hn⟩, if_pos ⟨waiter, mem_cons_of_mem _ hw, hn⟩]
    · rw [if_neg hrest]
      by_cases hfirst : n = first.2
      · rw [if_pos hfirst, if_pos ⟨first, mem_cons_self, hfirst.symm⟩]
      · rw [if_neg hfirst, if_neg]
        rintro ⟨waiter, hw, hn⟩
        rcases mem_cons.mp hw with rfl | hw
        · exact hfirst hn.symm
        · exact hrest ⟨waiter, hw, hn⟩

theorem release_spec (k : WorkerLoop) :
    (∀ waiter ∈ k.releaseFlushWaiters.flushWaiters, waiter ∈ k.flushWaiters) ∧
    (∀ n, k.releaseFlushWaiters.answers.get? n = k.answers.get? n ∨
      ∃ t, (t, n) ∈ k.flushWaiters ∧ t ≤ k.flushedThrough ∧
        k.releaseFlushWaiters.answers.get? n = some k.index.flushQueue.health.isOk) ∧
    (∀ t n, (t, n) ∈ k.flushWaiters → (t, n) ∈ k.releaseFlushWaiters.flushWaiters ∨
      k.releaseFlushWaiters.answers.get? n ≠ none) := by
  refine ⟨fun waiter hw => (dropWhile_sublist _).subset hw, fun n => ?_, fun t n hw => ?_⟩
  · simp only [releaseFlushWaiters, get?_foldl_answers]
    split_ifs with hreleased
    · right
      obtain ⟨waiter, hw, rfl⟩ := hreleased
      refine ⟨waiter.1, (takeWhile_sublist _).subset hw, ?_, rfl⟩
      simpa using mem_takeWhile_imp hw
    · exact .inl rfl
  · rw [← takeWhile_append_dropWhile (p := fun waiter => waiter.1 ≤ k.flushedThrough)
      (l := k.flushWaiters)] at hw
    rcases mem_append.mp hw with hw | hw
    · right
      simp only [releaseFlushWaiters, get?_foldl_answers]
      rw [if_pos ⟨(t, n), hw, rfl⟩]
      exact some_ne_none _
    · exact .inl hw

theorem lt_of_mem_dropWhile {waiters : List (ℕ × ℕ)} {b : ℕ}
    (hsorted : waiters.Pairwise fun a b => a.1 ≤ b.1) :
    ∀ waiter ∈ waiters.dropWhile fun waiter => waiter.1 ≤ b, b < waiter.1 := by
  induction waiters with
  | nil =>
    intro waiter hw
    cases hw
  | cons first rest ih =>
    obtain ⟨hfirst, hrest⟩ := pairwise_cons.mp hsorted
    rw [dropWhile_cons]
    split_ifs with hle
    · exact ih hrest
    · have hlt : b < first.1 := by simpa using hle
      intro waiter hw
      rcases mem_cons.mp hw with rfl | hw
      · exact hlt
      · exact hlt.trans_le (hfirst waiter hw)

/-! ### One command -/

theorem LoopOk.setDisk (h : LoopOk k) {m : ManifestWorld} {deletes : Set DocId}
    (hadv : Advances deletes k.disk m) (hsteady : Steady k.disk m) :
    LoopOk { k with disk := m } where
  disk := hadv.ok
  waiters := h.waiters
  answered := h.answered
  sorted := h.sorted
  waiting waiter hw := by
    obtain ⟨hlt, hle⟩ := h.waiting waiter hw
    exact ⟨hsteady.flushedThrough.trans_lt hlt, hle.trans hadv.nextSeq_le⟩

theorem LoopOk.settle (h : LoopOk { k with count := k.count + 1 }) (publish : Option (ℕ → Bool)) :
    LoopOk (k.settle publish) := by
  obtain ⟨hadv, hsteady⟩ := settle_spec h.disk publish
  have hset := h.setDisk hadv hsteady
  cases publish with
  | none => exact hset
  | some busy => exact hset

theorem LoopOk.answer (h : LoopOk k) (ok : Bool) :
    LoopOk { k.answer ok with count := k.count + 1 } where
  disk := h.disk
  waiters waiter hw := (h.waiters waiter hw).trans (lt_succ_self _)
  answered n hn := by
    have hn' : (k.answers.insert k.count ok).get? n ≠ none := hn
    rw [get?_insert] at hn'
    split_ifs at hn' with heq
    · exact heq ▸ lt_succ_self _
    · exact (h.answered n hn').trans (lt_succ_self _)
  sorted := h.sorted
  waiting := h.waiting

theorem serves_answer (k : WorkerLoop) (m : ManifestWorld) (ok : Bool) :
    Serves k ({ k with disk := m }.answer ok) where
  waiters _ _ _ hw := hw
  answers n hn := by
    left
    show (k.answers.insert k.count ok).get? n = _
    rw [get?_insert, if_neg hn.ne]
  released _ _ _ hw := .inl hw

theorem LoopOk.release (hdisk : k.disk.DiskOk) (hwaiters : ∀ waiter ∈ k.flushWaiters, waiter.2 ≤ k.count)
    (hanswered : ∀ n, k.answers.get? n ≠ none → n < k.count)
    (hsorted : k.flushWaiters.Pairwise fun a b => a.1 ≤ b.1)
    (hle : ∀ waiter ∈ k.flushWaiters, waiter.1 ≤ k.index.flushQueue.nextSeq) :
    LoopOk { k.releaseFlushWaiters with count := k.count + 1 } := by
  obtain ⟨hsub, hanswers, -⟩ := release_spec k
  refine ⟨hdisk, fun waiter hw => lt_succ_of_le (hwaiters waiter (hsub waiter hw)), fun n hn => ?_,
    hsorted.sublist (dropWhile_sublist _), fun waiter hw => ?_⟩
  · rcases hanswers n with heq | ⟨t, hw, -, -⟩
    · exact (hanswered n (heq ▸ hn)).trans (lt_succ_self _)
    · exact lt_succ_of_le (hwaiters (t, n) hw)
  · exact ⟨lt_of_mem_dropWhile hsorted waiter hw, hle waiter (hsub waiter hw)⟩

def queued (k : WorkerLoop) (busy : ℕ → Bool) (syncOk : Bool) : WorkerLoop :=
  let submitted : WorkerLoop :=
    { k with disk := (k.disk.act (.queueFlush busy syncOk)).act .takeFlushJobs }
  { submitted with
    flushWaiters := k.flushWaiters ++ [(submitted.index.flushQueue.nextSeq, k.count)] }

theorem handle_flush (k : WorkerLoop) (busy : ℕ → Bool) (syncOk : Bool) :
    k.handle (.flush busy syncOk) =
      if (k.index.queueFlush busy syncOk).1.isOk then (k.queued busy syncOk).releaseFlushWaiters
      else { k with disk := k.disk.act (.queueFlush busy syncOk) }.answer false := rfl

theorem queued_spec (h : k.disk.DiskOk) (busy : ℕ → Bool) (syncOk : Bool) :
    Advances ∅ k.disk (k.queued busy syncOk).disk ∧
      Steady k.disk (k.queued busy syncOk).disk := by
  obtain ⟨hadv, hsteady⟩ := act_spec ∅ (a := .queueFlush busy syncOk) h
    trivial (fun _ _ _ heq => by cases heq) fun d ok heq => by cases heq
  obtain ⟨hadv', hsteady'⟩ := act_spec ∅ (a := .takeFlushJobs) hadv.ok
    trivial (fun _ _ _ heq => by cases heq) fun d ok heq => by cases heq
  exact ⟨hadv.trans hadv', hsteady.trans hsteady'⟩

theorem mem_queued {busy : ℕ → Bool} {syncOk : Bool} {waiter : ℕ × ℕ} :
    waiter ∈ (k.queued busy syncOk).flushWaiters ↔ waiter ∈ k.flushWaiters ∨
      waiter = ((k.queued busy syncOk).index.flushQueue.nextSeq, k.count) :=
  mem_append.trans (or_congr_right mem_singleton)

theorem LoopOk.queued_release (h : LoopOk k) (busy : ℕ → Bool) (syncOk : Bool) :
    LoopOk { (k.queued busy syncOk).releaseFlushWaiters with count := k.count + 1 } := by
  obtain ⟨hadv, -⟩ := queued_spec h.disk busy syncOk
  have hle : ∀ waiter ∈ k.flushWaiters,
      waiter.1 ≤ (k.queued busy syncOk).index.flushQueue.nextSeq :=
    fun waiter hw => (h.waiting waiter hw).2.trans hadv.nextSeq_le
  refine LoopOk.release (k := k.queued busy syncOk) hadv.ok (fun waiter hw => ?_) h.answered ?_
    fun waiter hw => ?_
  · rcases mem_queued.mp hw with hw | rfl
    · exact (h.waiters waiter hw).le
    · exact le_rfl
  · refine pairwise_append.mpr ⟨h.sorted, pairwise_singleton _ _, fun a ha b hb => ?_⟩
    rw [mem_singleton.mp hb]
    exact hle a ha
  · rcases mem_queued.mp hw with hw | rfl
    · exact hle waiter hw
    · exact le_rfl

theorem handle_cases (k : WorkerLoop) {c : IndexCommand} (hflush : ∀ b s, c ≠ .flush b s)
    (hwritten : ∀ w p l, c ≠ .segmentWritten w p l) :
    (k.handle c = { k with disk := (k.handle c).disk }) ∨
      ∃ ok, k.handle c = { k with disk := (k.handle c).disk }.answer ok := by
  cases c with
  | addIndexedDocuments documents busy syncOk =>
    match documents with
    | none => exact .inr ⟨false, rfl⟩
    | some [] => exact .inr ⟨true, rfl⟩
    | some (doc :: docs) => exact .inr ⟨_, rfl⟩
  | deleteDocument docId appendOk => exact .inr ⟨appendOk, rfl⟩
  | addSegment segments => exact .inr ⟨_, rfl⟩
  | flush busy syncOk => exact absurd rfl (hflush busy syncOk)
  | segmentWritten writeOk appendOk lineLeft => exact absurd rfl (hwritten writeOk appendOk lineLeft)
  | planCompaction config quiet fileSize => exact .inl rfl
  | runCompaction jobId ok => exact .inl rfl
  | installCompaction jobId openOk clearOk => exact .inl rfl

theorem LoopOk.count_succ (h : LoopOk k) : LoopOk { k with count := k.count + 1 } :=
  ⟨h.disk, fun waiter hw => (h.waiters waiter hw).trans (lt_succ_self _),
    fun n hn => (h.answered n hn).trans (lt_succ_self _), h.sorted, h.waiting⟩

theorem LoopOk.handle (h : LoopOk k) (c : IndexCommand) :
    LoopOk { k.handle c with count := (k.handle c).count + 1 } := by
  by_cases hwritten : ∃ w p l, c = .segmentWritten w p l
  · obtain ⟨writeOk, appendOk, lineLeft, rfl⟩ := hwritten
    have hadv := complete_advances h.disk writeOk appendOk lineLeft
    refine LoopOk.release (k := { k with disk := k.disk.complete writeOk appendOk lineLeft }) hadv.ok
      (fun waiter hw => (h.waiters waiter hw).le) h.answered h.sorted fun waiter hw => ?_
    exact (h.waiting waiter hw).2.trans hadv.nextSeq_le
  have hwritten' : ∀ w p l, c ≠ .segmentWritten w p l := fun w p l heq => hwritten ⟨w, p, l, heq⟩
  obtain ⟨hadv, hsteady⟩ := handle_spec h.disk hwritten'
  by_cases hflush : ∃ b s, c = .flush b s
  · obtain ⟨busy, syncOk, rfl⟩ := hflush
    rw [handle_flush] at hadv hsteady ⊢
    split_ifs at hadv hsteady ⊢
    · exact h.queued_release busy syncOk
    · exact (h.setDisk hadv hsteady).answer false
  · rcases handle_cases k (fun b s heq => hflush ⟨b, s, heq⟩) hwritten' with heq | ⟨ok, heq⟩
    · rw [heq]
      exact (h.setDisk hadv hsteady).count_succ
    · rw [heq]
      exact (h.setDisk hadv hsteady).answer ok

theorem LoopOk.step (h : LoopOk k) (c : IndexCommand × Option (ℕ → Bool)) : LoopOk (k.step c) := by
  rw [step_eq]
  exact (h.handle c.1).settle c.2

theorem LoopOk.run (h : LoopOk k) (cs : List (IndexCommand × Option (ℕ → Bool))) :
    LoopOk (k.run cs) := by
  induction cs generalizing k with
  | nil => exact h
  | cons c cs ih => exact ih (h.step c)

theorem serves_release (hwaiters : ∀ t n, n < k.count → ((t, n) ∈ k'.flushWaiters ↔
    (t, n) ∈ k.flushWaiters)) (hanswers : k'.answers = k.answers) :
    Serves k k'.releaseFlushWaiters := by
  obtain ⟨hsub, hreleased, hall⟩ := release_spec k'
  refine ⟨fun t n hn hw => (hwaiters t n hn).mp (hsub _ hw), fun n hn => ?_, fun t n hn hw => ?_⟩
  · rcases hreleased n with heq | ⟨t, hw, hle, heq⟩
    · exact .inl (hanswers ▸ heq)
    · exact .inr ⟨t, (hwaiters t n hn).mp hw, hle, heq⟩
  · exact hall t n ((hwaiters t n hn).mpr hw)

theorem Serves.settle (h : Serves k k') (hdisk : k'.disk.DiskOk) (publish : Option (ℕ → Bool)) :
    Serves k (k'.settle publish) := by
  obtain ⟨-, hsteady⟩ := settle_spec hdisk publish
  have hwaiters : (k'.settle publish).flushWaiters = k'.flushWaiters := by cases publish <;> rfl
  have hanswers : (k'.settle publish).answers = k'.answers := by cases publish <;> rfl
  have hhealth : (k'.settle publish).index.flushQueue.health = k'.index.flushQueue.health := by
    rw [FlushQueue.health, FlushQueue.health, index, hsteady.failure]
    rfl
  refine ⟨fun t n hn hw => h.waiters t n hn (hwaiters ▸ hw), fun n hn => ?_, fun t n hn hw => ?_⟩
  · rw [hanswers, hhealth]
    refine (h.answers n hn).imp_right fun ⟨t, hw, hle, heq⟩ => ⟨t, hw, ?_, heq⟩
    exact hle.trans hsteady.flushedThrough.ge
  · rw [hanswers, hwaiters]
    exact h.released t n hn hw

theorem serves_handle (k : WorkerLoop) (c : IndexCommand) : Serves k (k.handle c) := by
  by_cases hwritten : ∃ w p l, c = .segmentWritten w p l
  · obtain ⟨writeOk, appendOk, lineLeft, rfl⟩ := hwritten
    exact serves_release (fun _ _ _ => Iff.rfl) rfl
  by_cases hflush : ∃ b s, c = .flush b s
  · obtain ⟨busy, syncOk, rfl⟩ := hflush
    rw [handle_flush]
    split_ifs
    · refine serves_release (fun t n hn => mem_queued.trans ⟨fun hw => ?_, .inl⟩) rfl
      refine hw.resolve_right fun heq => ?_
      obtain ⟨-, rfl⟩ := Prod.mk.inj heq
      exact lt_irrefl _ hn
    · exact serves_answer k _ false
  · rcases handle_cases k (fun b s heq => hflush ⟨b, s, heq⟩)
      (fun w p l heq => hwritten ⟨w, p, l, heq⟩) with heq | ⟨ok, heq⟩
    · rw [heq]
      exact ⟨fun _ _ _ hw => hw, fun _ _ => .inl rfl, fun _ _ _ hw => .inl hw⟩
    · rw [heq]
      exact serves_answer k _ ok

theorem serves_step (h : LoopOk k) (c : IndexCommand × Option (ℕ → Bool)) : Serves k (k.step c) := by
  rw [step_eq]
  exact (serves_handle k c.1).settle (handle_advances h.disk c.1).ok c.2

/-! ### One flush -/

/-- The flush with number `n` waits for the writes below `t` or was answered, and a
good answer came after all of them. -/
structure Awaited (k : WorkerLoop) (n t : ℕ) : Prop where
  lt : n < k.count
  le : t ≤ k.index.flushQueue.nextSeq
  waiter : ∀ t', (t', n) ∈ k.flushWaiters → t' = t
  present : (t, n) ∈ k.flushWaiters ∨ k.answers.get? n ≠ none
  good : k.answers.get? n = some true → t ≤ k.flushedThrough

/-- The flush takes id `d` on field `x` to disk. -/
structure Covered (k : WorkerLoop) (n t : ℕ) (x : XPathId) (d : DocId) : Prop where
  waiting : (t, n) ∈ k.flushWaiters → k.disk.world.FlushedBelow t x d
  done : k.answers.get? n = some true → k.disk.world.OnDisk x d

structure Refused (k : WorkerLoop) (n : ℕ) : Prop where
  lt : n < k.count
  failure : k.index.flushQueue.failure ≠ none
  answer : k.answers.get? n ≠ some true

theorem isOk_health {q : FlushQueue} : q.health.isOk = true ↔ q.failure = none := by
  rw [FlushQueue.health]
  cases q.failure with
  | none => exact iff_of_true rfl rfl
  | some e => exact iff_of_false (Bool.false_ne_true) (some_ne_none e)

theorem step_count (k : WorkerLoop) (c : IndexCommand × Option (ℕ → Bool)) :
    (k.step c).count = k.count + 1 := rfl

theorem Awaited.step (h : Awaited k n t) (hk : LoopOk k) (c : IndexCommand × Option (ℕ → Bool)) :
    Awaited (k.step c) n t := by
  have hadv := step_advances hk.disk c
  have hserves := serves_step hk c
  refine ⟨h.lt.trans (lt_succ_self _), h.le.trans hadv.nextSeq_le,
    fun t' hw => h.waiter t' (hserves.waiters t' n h.lt hw), ?_, fun hgood => ?_⟩
  · rcases h.present with hw | hanswered
    · exact hserves.released t n h.lt hw
    · right
      rcases hserves.answers n h.lt with heq | ⟨_, -, -, heq⟩
      · rwa [heq]
      · rw [heq]
        exact some_ne_none _
  · rcases hserves.answers n h.lt with heq | ⟨t', hw, hle, -⟩
    · exact (h.good (heq ▸ hgood)).trans hadv.flushedThrough_le
    · exact h.waiter t' hw ▸ hle

theorem Covered.step (h : Covered k n t x d) (hk : LoopOk k) (hawaited : Awaited k n t)
    {c : IndexCommand × Option (ℕ → Bool)} (hd : d ∉ c.1.deletes) (hkept : k.disk.world.Kept d) :
    Covered (k.step c) n t x d := by
  have hadv := step_advances hk.disk c
  have hserves := serves_step hk c
  refine ⟨fun hw => ?_, fun hgood => ?_⟩
  · exact hadv.flushed d hd hkept t x (h.waiting (hserves.waiters t n hawaited.lt hw))
  · rcases hserves.answers n hawaited.lt with heq | ⟨t', hw, hle, heq⟩
    · exact hadv.onDisk d hd hkept x (h.done (heq ▸ hgood))
    · -- it is answered now, with the health of the queue
      obtain rfl := hawaited.waiter t' hw
      have hhealth : (k.step c).index.flushQueue.failure = none :=
        isOk_health.mp (some_inj.mp (heq.symm.trans hgood))
      exact onDisk_of_flushedBelow hadv.ok.flush (hadv.flushed d hd hkept t' x (h.waiting hw))
        hhealth hle

theorem Refused.step (h : Refused k n) (hk : LoopOk k) (c : IndexCommand × Option (ℕ → Bool)) :
    Refused (k.step c) n := by
  have hfailure := (step_advances hk.disk c).failure h.failure
  refine ⟨h.lt.trans (lt_succ_self _), hfailure, fun hgood => ?_⟩
  rcases (serves_step hk c).answers n h.lt with heq | ⟨_, -, -, heq⟩
  · exact h.answer (heq ▸ hgood)
  · exact hfailure (isOk_health.mp (some_inj.mp (heq.symm.trans hgood)))

theorem Awaited.run (h : Awaited k n t) (hk : LoopOk k) (cs : List (IndexCommand × Option (ℕ → Bool))) :
    Awaited (k.run cs) n t := by
  induction cs generalizing k with
  | nil => exact h
  | cons c cs ih => exact ih (h.step hk c) (hk.step c)

variable {cs : List (IndexCommand × Option (ℕ → Bool))}

theorem Covered.run (h : Covered k n t x d) (hk : LoopOk k) (hawaited : Awaited k n t)
    (hd : d ∉ deletedIn cs)
    (hkept : k.disk.world.Kept d) : Covered (k.run cs) n t x d := by
  induction cs generalizing k with
  | nil => exact h
  | cons c cs ih =>
    have hc : d ∉ c.1.deletes := fun hin => hd ⟨c, mem_cons_self, hin⟩
    have hcs : d ∉ deletedIn cs := fun ⟨c', hc', hin⟩ => hd ⟨c', mem_cons_of_mem c hc', hin⟩
    exact ih (h.step hk hawaited hc hkept) (hk.step c) (hawaited.step hk c) hcs
      ((step_advances hk.disk c).kept d hc hkept)

theorem Refused.run (h : Refused k n) (hk : LoopOk k) (cs : List (IndexCommand × Option (ℕ → Bool))) :
    Refused (k.run cs) n := by
  induction cs generalizing k with
  | nil => exact h
  | cons c cs ih => exact ih (h.step hk c) (hk.step c)

/-! ### The flush command -/

theorem settle_nextSeq (k : WorkerLoop) (publish : Option (ℕ → Bool)) :
    (k.settle publish).index.flushQueue.nextSeq = k.index.flushQueue.nextSeq := by
  cases publish with
  | none => rfl
  | some busy =>
    obtain ⟨mem, generations, hseal⟩ := k.index.sealMem_frame busy
    show (k.index.sealMem busy).flushQueue.nextSeq = _
    rw [hseal]

theorem settle_waiters (k : WorkerLoop) (publish : Option (ℕ → Bool)) :
    (k.settle publish).flushWaiters = k.flushWaiters := by cases publish <;> rfl

theorem settle_answers (k : WorkerLoop) (publish : Option (ℕ → Bool)) :
    (k.settle publish).answers = k.answers := by cases publish <;> rfl

theorem released_flush (h : LoopOk k) (busy : ℕ → Bool) (syncOk : Bool)
    (hgood : (k.queued busy syncOk).releaseFlushWaiters.answers.get? k.count = some true) :
    (k.queued busy syncOk).index.flushQueue.nextSeq ≤ (k.queued busy syncOk).flushedThrough ∧
      (k.queued busy syncOk).index.flushQueue.failure = none := by
  have hunanswered : k.answers.get? k.count = none := by
    by_contra hne
    exact lt_irrefl _ (h.answered k.count hne)
  rcases (release_spec (k.queued busy syncOk)).2.1 k.count with heq | ⟨t, hw, hle, heq⟩
  · rw [heq] at hgood
    cases hunanswered.symm.trans hgood
  · refine ⟨?_, isOk_health.mp (some_inj.mp (heq.symm.trans hgood))⟩
    rcases mem_queued.mp hw with hw | hw
    · exact absurd (h.waiters _ hw) (lt_irrefl _)
    · exact (Prod.mk.inj hw).1 ▸ hle

theorem awaited_flush (h : LoopOk k) (busy : ℕ → Bool) (syncOk : Bool) (publish : Option (ℕ → Bool)) :
    Awaited (k.step (.flush busy syncOk, publish)) k.count
      (k.step (.flush busy syncOk, publish)).index.flushQueue.nextSeq := by
  have hdisk := (handle_advances h.disk (.flush busy syncOk)).ok
  obtain ⟨-, hsteady⟩ := settle_spec hdisk publish
  rw [step_eq]
  refine ⟨?_, le_rfl, ?_, ?_, ?_⟩
  · show k.count < (k.handle (.flush busy syncOk)).count + 1
    rw [handle_count]
    exact lt_succ_self _
  · intro t' hw
    rw [settle_waiters, handle_flush] at hw
    rw [settle_nextSeq, handle_flush]
    split_ifs at hw ⊢
    · rcases mem_queued.mp ((release_spec _).1 _ hw) with hw | hw
      · exact absurd (h.waiters _ hw) (lt_irrefl _)
      · exact (Prod.mk.inj hw).1
    · exact absurd (h.waiters _ hw) (lt_irrefl _)
  · rw [settle_waiters, settle_answers, settle_nextSeq, handle_flush]
    split_ifs
    · exact (release_spec (k.queued busy syncOk)).2.2 _ _ (mem_queued.mpr (.inr rfl))
    · right
      show (k.answers.insert k.count false).get? k.count ≠ none
      rw [get?_insert, if_pos rfl]
      exact some_ne_none _
  · intro hgood
    have hthrough : ((k.handle (.flush busy syncOk)).settle publish).flushedThrough =
      (k.handle (.flush busy syncOk)).flushedThrough := hsteady.flushedThrough
    rw [settle_answers] at hgood
    rw [settle_nextSeq, hthrough]
    rw [handle_flush] at hgood ⊢
    split_ifs at hgood ⊢
    · exact (released_flush h busy syncOk hgood).1
    · have hgood' : (k.answers.insert k.count false).get? k.count = some true := hgood
      rw [get?_insert, if_pos rfl] at hgood'
      cases hgood'

theorem covered_flush (h : LoopOk k) (busy : ℕ → Bool) (syncOk : Bool) (publish : Option (ℕ → Bool))
    (hkept : k.disk.world.Kept d) (hheld : k.disk.world.Held x d) :
    Covered (k.step (.flush busy syncOk, publish)) k.count
      (k.step (.flush busy syncOk, publish)).index.flushQueue.nextSeq x d := by
  have hadv := handle_advances h.disk (.flush busy syncOk)
  obtain ⟨hsettle, -⟩ := settle_spec hadv.ok publish
  have hkept' := hadv.kept d (Set.notMem_empty d) hkept
  rw [step_eq]
  -- it is enough to look at the state before the writes are handed over
  suffices hhandled : Covered (k.handle (.flush busy syncOk)) k.count
      (k.handle (.flush busy syncOk)).index.flushQueue.nextSeq x d by
    refine ⟨fun hw => ?_, fun hgood => ?_⟩
    · rw [settle_waiters, settle_nextSeq] at hw
      rw [settle_nextSeq]
      exact hsettle.flushed d (Set.notMem_empty d) hkept' _ x (hhandled.waiting hw)
    · rw [settle_answers] at hgood
      exact hsettle.onDisk d (Set.notMem_empty d) hkept' x (hhandled.done hgood)
  rw [handle_flush]
  split_ifs with hok
  · have hqueued : (k.index.queueFlush busy syncOk).1 = .ok () := by
      cases hq : (k.index.queueFlush busy syncOk).1 with
      | ok u => rfl
      | error e =>
        rw [hq] at hok
        cases hok
    have hflush : Advances ∅ k.disk (k.disk.act (.queueFlush busy syncOk)) :=
      (act_spec ∅ (a := .queueFlush busy syncOk) h.disk trivial
        (fun _ _ _ heq => by cases heq) fun d ok heq => by cases heq).1
    have htake : Advances ∅ _ (k.queued busy syncOk).disk :=
      (act_spec ∅ (a := .takeFlushJobs) hflush.ok trivial (fun _ _ _ heq => by cases heq)
        fun d ok heq => by cases heq).1
    have hbelow : (k.queued busy syncOk).disk.world.FlushedBelow
        (k.queued busy syncOk).index.flushQueue.nextSeq x d :=
      htake.flushed d (Set.notMem_empty d) (hflush.kept d (Set.notMem_empty d) hkept) _ x
        (flushedBelow_queueFlush h.disk.inv h.disk.flush hqueued hheld)
    refine ⟨fun _ => hbelow, fun hgood => ?_⟩
    obtain ⟨hle, hfailure⟩ := released_flush h busy syncOk hgood
    exact onDisk_of_flushedBelow htake.ok.flush hbelow hfailure hle
  · refine ⟨fun hw => absurd (h.waiters _ hw) (lt_irrefl _), fun hgood => ?_⟩
    have hgood' : (k.answers.insert k.count false).get? k.count = some true := hgood
    rw [get?_insert, if_pos rfl] at hgood'
    cases hgood'

theorem refused_flush (h : LoopOk k) (hfailure : k.index.flushQueue.failure ≠ none)
    (busy : ℕ → Bool) (syncOk : Bool) (publish : Option (ℕ → Bool)) :
    Refused (k.step (.flush busy syncOk, publish)) k.count := by
  refine ⟨lt_succ_self _, (step_advances h.disk _).failure hfailure, fun hgood => ?_⟩
  have hrefused : ¬ (k.index.queueFlush busy syncOk).1.isOk = true := by
    obtain ⟨e, he⟩ := ne_none_iff_exists'.mp hfailure
    simp only [queueFlush, FlushQueue.health, he]
    exact Bool.false_ne_true
  rw [step_eq, settle_answers, handle_flush, if_neg hrefused] at hgood
  have hgood' : (k.answers.insert k.count false).get? k.count = some true := hgood
  rw [get?_insert, if_pos rfl] at hgood'
  cases hgood'

theorem failure_written (h : LoopOk k) {job : FlushJob} {rest : List FlushJob}
    (hwriting : k.disk.world.writing = job :: rest) {writeOk appendOk : Bool}
    (hfail : ¬(writeOk ∧ appendOk)) (lineLeft : Bool) (publish : Option (ℕ → Bool)) :
    (k.step (.segmentWritten writeOk appendOk lineLeft, publish)).index.flushQueue.failure ≠ none := by
  obtain ⟨front, pending, -, -, -, -, -, hfailure⟩ := h.disk.completeFlush hwriting writeOk appendOk
  rw [if_neg hfail] at hfailure
  have hhandled : (k.handle (.segmentWritten writeOk appendOk lineLeft)).disk.world.index.flushQueue.failure
      ≠ none := by
    show (k.disk.complete writeOk appendOk lineLeft).world.index.flushQueue.failure ≠ none
    rw [complete, hwriting]
    exact hfailure.1
  rw [step_eq]
  exact (settle_spec (handle_advances h.disk _).ok publish).1.failure hhandled

theorem refused_written (h : LoopOk k) (hawaited : Awaited k n t) {job : FlushJob} {rest : List FlushJob}
    (hwriting : k.disk.world.writing = job :: rest) (hseq : job.seq < t) {writeOk appendOk : Bool}
    (hfail : ¬(writeOk ∧ appendOk)) (lineLeft : Bool) (publish : Option (ℕ → Bool)) :
    Refused (k.step (.segmentWritten writeOk appendOk lineLeft, publish)) n := by
  obtain ⟨front, pending, hpending, hfront, -⟩ := h.disk.completeFlush hwriting writeOk appendOk
  -- it is the oldest write that is out
  have hthrough : k.flushedThrough = job.seq := by
    have hseqs := h.disk.flush.seqs
    rw [hpending, map_cons, length_cons, range'_succ, cons.injEq] at hseqs
    show k.disk.world.index.flushQueue.nextSeq - k.disk.world.index.flushQueue.pending.length = _
    rw [hpending, length_cons, ← hseqs.1, hfront]
  have hbefore : k.answers.get? n ≠ some true := by
    intro hgood
    have hle := hawaited.good hgood
    omega
  have hafter := failure_written h hwriting hfail lineLeft publish
  refine ⟨hawaited.lt.trans (lt_succ_self _), hafter, fun hgood => ?_⟩
  rcases (serves_step h _).answers n hawaited.lt with heq | ⟨_, -, -, heq⟩
  · exact hbefore (heq ▸ hgood)
  · exact hafter (isOk_health.mp (some_inj.mp (heq.symm.trans hgood)))

theorem held_writing (h : k.disk.DiskOk) {job : FlushJob} (hjob : job ∈ k.disk.world.writing)
    (hx : job.write.Holds x d) : k.disk.world.Held x d := by
  obtain ⟨p, hp, -, -, hgenerations⟩ := h.inv.queue.flushes job (mem_append_right _ hjob)
  obtain ⟨g, hg, hholds⟩ := MemIndex.holds_freezeShared.mp (Segment.holds_openWritten.mp hx)
  refine ⟨.mem g, mem_cons_of_mem _ (mem_append_left _ (mem_append_right _ ?_)), hholds⟩
  exact mem_flatMap.mpr ⟨p, hp, mem_map_of_mem (hgenerations ▸ hg)⟩

theorem returns_publish (h : k.disk.DiskOk) (hkept : k.disk.world.Kept d)
    (hheld : k.disk.world.Held x d) (busy : ℕ → Bool) :
    (k.index.publishSnapshot busy).2.Returns x d := by
  have hspares : k.disk.world.Spares d (.publishSnapshot busy) := fun _ _ hinstalls => hinstalls.elim
  obtain ⟨r, hr, hholds⟩ := held_step h.inv hspares hheld
  refine IndexSnapshot.returns_iff.mpr ⟨?_, r, ?_, hholds⟩
  · show d ∉ (k.index.sealMem busy).deleted
    rw [sealMem_deleted]
    exact hkept.1
  · rcases mem_cons.mp hr with rfl | hr
    · -- the table that is left holds nothing
      have hempty : ∀ x d, ¬ (k.index.sealMem busy).mem.Holds x d := by
        rcases sealMem_cases (i := k.index) busy with ⟨-, hrange, hw⟩ | ⟨-, hw⟩
        · rw [hw]
          exact h.flush.mem fun htracked => htracked hrange
        · rw [hw]
          exact MemIndex.not_holds_new
      exact absurd hholds (hempty x d)
    · exact mem_cons_of_mem _ hr

/-! ### Whole runs -/

def AddedIn (k : WorkerLoop) : List (IndexCommand × Option (ℕ → Bool)) → XPathId → DocId → Prop
  | [], _, _ => False
  | c :: cs, x, d => k.Adds c.1 x d ∨ (k.step c).AddedIn cs x d

theorem held_run (h : k.disk.DiskOk)
    (hkept : k.disk.world.Kept d) (hd : d ∉ deletedIn cs) (hadded : k.AddedIn cs x d) :
    (k.run cs).disk.world.Held x d := by
  induction cs generalizing k with
  | nil => exact hadded.elim
  | cons c cs ih =>
    have hc : d ∉ c.1.deletes := fun hin => hd ⟨c, mem_cons_self, hin⟩
    have hcs : d ∉ deletedIn cs := fun ⟨c', hc', hin⟩ => hd ⟨c', mem_cons_of_mem c hc', hin⟩
    have hstep := step_advances h c
    have hkept' := hstep.kept d hc hkept
    rcases hadded with hadds | hlater
    · have hhandle := handle_advances h c.1
      have hheld : (k.step c).disk.world.Held x d := by
        rw [step_eq]
        exact (settle_spec hhandle.ok c.2).1.held d (Set.notMem_empty d)
          (hhandle.kept d hc hkept) x (held_handle h hkept hadds)
      exact (run_advances hstep.ok cs).held d hcs hkept' x hheld
    · exact ih hstep.ok hkept' hcs hlater

theorem run_count (k : WorkerLoop) (cs : List (IndexCommand × Option (ℕ → Bool))) :
    (k.run cs).count = k.count + cs.length := by
  induction cs generalizing k with
  | nil => rfl
  | cons c cs ih =>
    show ((k.step c).run cs).count = _
    rw [ih, step_count, length_cons]
    omega

theorem run_append (k : WorkerLoop) (cs cs' : List (IndexCommand × Option (ℕ → Bool))) :
    k.run (cs ++ cs') = (k.run cs).run cs' := foldl_append

variable {entries : List (ℕ × Segment)} {tombstones : DeleteSet} {flushThreshold : ℕ}

theorem loopOk_start (hnodup : (entries.map Prod.fst).Nodup) :
    LoopOk (start entries tombstones flushThreshold) where
  disk :=
    { inv := (Fresh.opened entries tombstones hnodup).inv
      flush := flushOk_start entries tombstones
      listed := fun p hp => by
        obtain ⟨handle, hh, hpath⟩ := mem_filterMap.mp hp
        obtain ⟨e, he, rfl⟩ := mem_map.mp hh
        cases hpath
        exact mem_map_of_mem he
      order := rfl }
  waiters _ hw := by cases hw
  answered _ hn := absurd rfl hn
  sorted := Pairwise.nil
  waiting _ hw := by cases hw

theorem kept_start (hd : d ∉ tombstones) :
    (start entries tombstones flushThreshold).disk.world.Kept d :=
  ⟨hd, fun job hjob => by cases hjob⟩

end WorkerLoop

def ManifestWorld.Listed (m : ManifestWorld) (x : XPathId) (d : DocId) : Prop :=
  ∃ p s, p ∈ m.manifest ∧ .disk p ∈ m.world.index.segmentHandles ∧ m.world.files.get? p = some s ∧
    s.Holds x d

theorem ManifestWorld.DiskOk.listed_of_onDisk {m : ManifestWorld} (h : m.DiskOk) {x : XPathId}
    {d : DocId} (hdisk : m.world.OnDisk x d) : m.Listed x d := by
  obtain ⟨p, s, hp, hs, hholds⟩ := hdisk
  exact ⟨p, s, h.listed (World.mem_live.mpr hp), hp, hs, hholds⟩

structure FlushRun where
  entries : List (ℕ × Segment)
  nodup : (entries.map Prod.fst).Nodup
  tombstones : DeleteSet
  flushThreshold : ℕ
  before : List (IndexCommand × Option (ℕ → Bool))
  busy : ℕ → Bool
  syncOk : Bool
  publish : Option (ℕ → Bool)
  after : List (IndexCommand × Option (ℕ → Bool))

namespace FlushRun

open WorkerLoop List MemIndex Compaction

def opened (r : FlushRun) : WorkerLoop := WorkerLoop.start r.entries r.tombstones r.flushThreshold

def commands (r : FlushRun) : List (IndexCommand × Option (ℕ → Bool)) :=
  r.before ++ (.flush r.busy r.syncOk, r.publish) :: r.after

def taken (r : FlushRun) : WorkerLoop :=
  (r.opened.run r.before).step (.flush r.busy r.syncOk, r.publish)

def loop (r : FlushRun) : WorkerLoop := r.taken.run r.after

def ack (r : FlushRun) : Option Bool := r.loop.answers.get? r.before.length

/-- The writes queued before the flush, its own included, have numbers below this. -/
def target (r : FlushRun) : ℕ := r.taken.index.flushQueue.nextSeq

/-- The id was not deleted when the run began and no command deletes it. -/
def NotDeleted (r : FlushRun) (d : DocId) : Prop :=
  d ∉ r.tombstones ∧ d ∉ deletedIn r.commands

/-- A write that was queued before the flush was reported as failed. -/
structure Failed (r : FlushRun) (job : FlushJob) : Prop where
  reported : ∃ (pre post : List (IndexCommand × Option (ℕ → Bool))) (writeOk appendOk lineLeft : Bool)
    (publish : Option (ℕ → Bool)) (rest : List FlushJob),
    r.commands = pre ++ (.segmentWritten writeOk appendOk lineLeft, publish) :: post ∧
      (r.opened.run pre).disk.world.writing = job :: rest ∧ ¬(writeOk ∧ appendOk)
  queued : job.seq < r.target

variable (r : FlushRun)

theorem loopOk_opened : r.opened.LoopOk := loopOk_start r.nodup

theorem loopOk_before : (r.opened.run r.before).LoopOk := r.loopOk_opened.run r.before

theorem count_before : (r.opened.run r.before).count = r.before.length := by
  rw [run_count]
  exact Nat.zero_add _

theorem loopOk_taken : r.taken.LoopOk := r.loopOk_before.step _

theorem awaited_taken : r.taken.Awaited r.before.length r.target := by
  have h := awaited_flush r.loopOk_before r.busy r.syncOk r.publish
  rwa [r.count_before] at h

theorem loop_eq : r.loop = r.opened.run r.commands := by
  rw [commands, run_append]
  rfl

variable {r} {x : XPathId} {d : DocId} {job : FlushJob}

theorem deletedIn_append {cs cs' : List (IndexCommand × Option (ℕ → Bool))} :
    d ∈ deletedIn (cs ++ cs') ↔
      d ∈ deletedIn cs ∨ d ∈ deletedIn cs' := by
  constructor
  · rintro ⟨c, hc, hd⟩
    exact (mem_append.mp hc).imp (fun hc => ⟨c, hc, hd⟩) fun hc => ⟨c, hc, hd⟩
  · rintro (⟨c, hc, hd⟩ | ⟨c, hc, hd⟩)
    · exact ⟨c, mem_append_left _ hc, hd⟩
    · exact ⟨c, mem_append_right _ hc, hd⟩

theorem NotDeleted.kept (h : r.NotDeleted d) {pre post : List (IndexCommand × Option (ℕ → Bool))}
    (hcommands : r.commands = pre ++ post) :
    (r.opened.run pre).disk.world.Kept d ∧ d ∉ deletedIn pre ∧
      d ∉ deletedIn post := by
  have hd := h.2
  rw [hcommands, deletedIn_append, not_or] at hd
  refine ⟨?_, hd⟩
  exact (run_advances r.loopOk_opened.disk pre).kept d hd.1
    (kept_start h.1)

theorem listed_of_ack (h : r.NotDeleted d) (hadded : r.opened.AddedIn r.before x d)
    (hack : r.ack = some true) : r.loop.disk.Listed x d := by
  have hcommands : r.commands = r.before ++ (.flush r.busy r.syncOk, r.publish) :: r.after := rfl
  obtain ⟨hkept, hbefore, hrest⟩ := h.kept hcommands
  have hflush : d ∉ deletedIn r.after :=
    fun ⟨c, hc, hd⟩ => hrest ⟨c, mem_cons_of_mem _ hc, hd⟩
  have hheld := held_run r.loopOk_opened.disk
    (kept_start h.1) hbefore hadded
  have hcovered := covered_flush r.loopOk_before r.busy r.syncOk r.publish hkept hheld
  rw [r.count_before] at hcovered
  have hkept' := (step_advances r.loopOk_before.disk
    (.flush r.busy r.syncOk, r.publish)).kept d (Set.notMem_empty d) hkept
  have hend := hcovered.run r.loopOk_taken r.awaited_taken hflush hkept'
  exact (r.loopOk_taken.run r.after).disk.listed_of_onDisk (hend.done hack)

theorem refused_of_failed (h : r.Failed job) : r.loop.Refused r.before.length := by
  obtain ⟨pre, post, writeOk, appendOk, lineLeft, publish, rest, hcommands, hwriting, hfail⟩ :=
    h.reported
  rcases append_eq_append_iff.mp hcommands with ⟨mid, hpre, hafter⟩ | ⟨mid, hbefore, hpost⟩
  · -- reported after the flush
    cases mid with
    | nil => cases hafter
    | cons c mid =>
      rw [cons_append] at hafter
      obtain ⟨rfl, hmid⟩ := cons.inj hafter
      have hrun : r.opened.run pre = r.taken.run mid := by
        rw [hpre, run_append]
        rfl
      rw [hrun] at hwriting
      have hrefused := refused_written (r.loopOk_taken.run mid)
        (r.awaited_taken.run r.loopOk_taken mid) hwriting h.queued hfail lineLeft publish
      have hloop : r.loop = ((r.taken.run mid).step
          (.segmentWritten writeOk appendOk lineLeft, publish)).run post := by
        rw [loop, hmid, run_append]
        rfl
      rw [hloop]
      exact hrefused.run ((r.loopOk_taken.run mid).step _) post
  · -- reported before it
    cases mid with
    | nil => cases hpost
    | cons c mid =>
      rw [cons_append] at hpost
      obtain ⟨rfl, -⟩ := cons.inj hpost
      have hpre := r.loopOk_opened.run pre
      have hfailure := failure_written hpre hwriting hfail lineLeft publish
      have hrun : r.opened.run r.before = ((r.opened.run pre).step
          (.segmentWritten writeOk appendOk lineLeft, publish)).run mid := by
        rw [hbefore, run_append]
        rfl
      have hfailed : (r.opened.run r.before).index.flushQueue.failure ≠ none := by
        rw [hrun]
        exact (run_advances (hpre.step _).disk mid).failure hfailure
      have hrefused := refused_flush r.loopOk_before hfailed r.busy r.syncOk r.publish
      rw [r.count_before] at hrefused
      exact hrefused.run r.loopOk_taken r.after

/-- **What the acknowledgement of a flush means.**  When it is good, every document
added before the flush and not deleted is in a segment file that the manifest lists.
When a write queued before it failed it is not good, and what was to be written is
in every later snapshot.  It is given as soon as all writes queued before were
reported. -/
theorem acknowledged (r : FlushRun) :
    (r.ack = some true → ∀ x d, r.NotDeleted d → r.opened.AddedIn r.before x d →
      r.loop.disk.Listed x d) ∧
    (∀ job, r.Failed job → r.ack ≠ some true ∧ ∀ x d, r.NotDeleted d → job.write.Holds x d → ∀ busy,
        (r.loop.index.publishSnapshot busy).2.Returns x d) ∧
    (r.ack ≠ none ∨ ∃ p ∈ r.loop.index.flushQueue.pending, p.seq < r.target) := by
  have hend : r.loop.LoopOk := r.loopOk_taken.run r.after
  refine ⟨fun hack x d hd hadded => listed_of_ack hd hadded hack, fun job hfailed => ?_, ?_⟩
  · refine ⟨(refused_of_failed hfailed).answer, fun x d hd hx busy => ?_⟩
    obtain ⟨pre, post, writeOk, appendOk, lineLeft, publish, rest, hcommands, hwriting, -⟩ :=
      hfailed.reported
    obtain ⟨hkept, -, hpost⟩ := hd.kept hcommands
    have hpre := r.loopOk_opened.run pre
    have hadv := run_advances hpre.disk
      ((.segmentWritten writeOk appendOk lineLeft, publish) :: post)
    have hloop : r.loop = (r.opened.run pre).run
        ((.segmentWritten writeOk appendOk lineLeft, publish) :: post) := by
      rw [loop_eq, hcommands, run_append]
    have hheld := held_writing hpre.disk (by rw [hwriting]; exact mem_cons_self) hx
    rw [hloop]
    exact returns_publish hadv.ok (hadv.kept d hpost hkept)
      (hadv.held d hpost hkept x hheld) busy
  · have hawaited := r.awaited_taken.run r.loopOk_taken r.after
    rcases hawaited.present with hw | hanswered
    · -- the oldest pending write is the one it waits for
      obtain ⟨hlt, hle⟩ := hend.waiting _ hw
      right
      have hseqs := hend.disk.flush.seqs
      cases hpending : r.loop.index.flushQueue.pending with
      | nil =>
        have hthrough : r.loop.flushedThrough = r.loop.index.flushQueue.nextSeq := by
          rw [flushedThrough, hpending]
          rfl
        omega
      | cons front rest =>
        refine ⟨front, mem_cons_self, ?_⟩
        have hfront : front.seq = r.loop.flushedThrough := by
          rw [show r.loop.disk.world.index.flushQueue.pending = front :: rest from hpending,
            map_cons, length_cons, range'_succ, cons.injEq] at hseqs
          rw [hseqs.1, flushedThrough, hpending]
          rfl
        omega
    · exact .inl hanswered

def word (docId : DocId) : AnalyzedDocument :=
  ⟨docId, ⟨[⟨0, 1, [⟨"word", [0], 1⟩]⟩], [], []⟩, []⟩

/-- One document is added and flushed, and the writer reports `writeOk`. -/
def oneFlush (writeOk : Bool) : FlushRun where
  entries := []
  nodup := nodup_nil
  tombstones := ∅
  flushThreshold := 1000
  before := [(.addIndexedDocuments (some [word 1]) (fun _ => false) fun _ => true, none)]
  busy := fun _ => false
  syncOk := true
  publish := none
  after := [(.segmentWritten writeOk true false, none)]

/-- It is on disk when the write worked; otherwise the flush fails and the document
is still found. -/
theorem acknowledged_oneFlush :
    ((oneFlush true).ack = some true ∧ (oneFlush true).loop.disk.Listed 0 1) ∧
      ((oneFlush false).ack = some false ∧
        ((oneFlush false).loop.index.publishSnapshot fun _ => false).2.Returns 0 1) := by
  have hword : (ofDocuments [word 1]).Holds 0 1 := .inl ⟨"word", by decide +kernel⟩
  have hadded : (oneFlush true).opened.AddedIn (oneFlush true).before 0 1 :=
    .inl ⟨word 1, by decide +kernel, hword⟩
  have hkept : ∀ ok, (oneFlush ok).NotDeleted 1 := by
    refine fun ok => ⟨Finset.notMem_empty 1, ?_⟩
    rintro ⟨c, hc, hd⟩
    rcases mem_cons.mp hc with rfl | hc
    · exact hd
    rcases mem_cons.mp hc with rfl | hc
    · exact hd
    · rw [mem_singleton.mp hc] at hd
      exact hd
  refine ⟨⟨by decide +kernel, (acknowledged (oneFlush true)).1 (by decide +kernel) 0 1 (hkept true) hadded⟩,
    by decide +kernel, ?_⟩
  -- the write that fails is the one of the flush
  have hwriting : ((oneFlush false).opened.run ((oneFlush false).commands.take 2)).disk.world.writing.map
      (fun job => (job.seq, job.generations)) = [(0, [ofDocuments [word 1]])] := by
    decide +kernel
  obtain ⟨job, hjob, heq⟩ := map_eq_singleton_iff.mp hwriting
  obtain ⟨hseq, hgenerations⟩ := Prod.mk.inj heq
  have hfailed : (oneFlush false).Failed job :=
    ⟨⟨(oneFlush false).commands.take 2, [], false, true, false, none, [], rfl, hjob, by decide⟩,
      hseq ▸ by decide +kernel⟩
  refine ((acknowledged (oneFlush false)).2.1 job hfailed).2 0 1 (hkept false) ?_ _
  rw [FlushJob.write, hgenerations]
  exact Segment.holds_openWritten.mpr (holds_freezeShared.mpr ⟨_, mem_cons_self, hword⟩)

def deletedAndMerged : FlushRun where
  entries := []
  nodup := nodup_nil
  tombstones := ∅
  flushThreshold := 1000
  before :=
    [(.addIndexedDocuments (some [word 1]) (fun _ => false) fun _ => true, none),
      (.flush (fun _ => false) true, none), (.segmentWritten true true false, none),
      (.addIndexedDocuments (some [word 2]) (fun _ => false) fun _ => true, none),
      (.flush (fun _ => false) true, none), (.segmentWritten true true false, none),
      (.deleteDocument 1 true, none), (.planCompaction CompactionConfig.default true fun _ => 1, none),
      (.runCompaction 0 true, none), (.installCompaction 0 true true, none)]
  busy := fun _ => false
  syncOk := true
  publish := none
  after := []

/-- The flush after it is acknowledged, and no segment has the first document. -/
theorem deletedAndMerged_not_listed :
    ∃ (r : FlushRun) (x : XPathId) (d : DocId), r.opened.AddedIn r.before x d ∧ r.ack = some true ∧
      ¬ r.loop.disk.Listed x d := by
  have hword : (ofDocuments [word 1]).Holds 0 1 := .inl ⟨"word", by decide +kernel⟩
  have hhandles : deletedAndMerged.loop.disk.world.index.segmentHandles = [.disk 2] := by
    decide +kernel
  have hfile : deletedAndMerged.loop.disk.world.files.get? 2 = some (compacted {1}
      [(freezeShared [ofDocuments [word 1]]).openWritten,
        (freezeShared [ofDocuments [word 2]]).openWritten]) := by decide +kernel
  refine ⟨deletedAndMerged, 0, 1, .inl ⟨word 1, by decide +kernel, hword⟩, by decide +kernel, ?_⟩
  rintro ⟨p, s, -, hp, hs, hholds⟩
  rw [hhandles] at hp
  cases mem_singleton.mp hp
  obtain rfl := Option.some_inj.mp (hfile.symm.trans hs)
  exact ((holds_compacted _ _).mp hholds).1 (Finset.mem_singleton_self 1)

end FlushRun

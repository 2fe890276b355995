/-
When a checkpoint may remove the log.

Every document that was stored carries the answer its batch gets.  A checkpoint
collects answers in its ticket, and its flush comes after all of them, so when
all are good what the closed segments logged is on disk.  This holds as long as a
document that has no good answer is in some ticket: an answer that was collected
by a later insert, or a batch that was never sent, is in none.
-/
import Riets.Checkpoint
import Riets.Issued

namespace ShardDb

open List Option SortedMap Nat

/-! ### What is known of the stored documents -/

/-- The ticket of `c` ends with a flush, and every document up to its segment has
a good answer or one in a ticket of this or an earlier checkpoint. -/
def Waits (worker : IndexWorker) (written : SortedMap String WrittenDocument)
    (earlier : List PendingCheckpoint) (c : PendingCheckpoint) : Prop :=
  ∃ acks f, c.acks = acks ++ [f] ∧ ∀ x e, written.get? x = some e → e.segment ≤ c.throughSegment →
    ∃ a, e.ack = some a ∧
      (worker.answers.get? a = some true ∨ ∃ c' ∈ earlier ++ [c], a ∈ c'.acks) ∧
      worker.Covers e.analyzed a f

structure Tracked (worker : IndexWorker) (written : SortedMap String WrittenDocument)
    (pending : List PendingCheckpoint) : Prop where
  ok : worker.Ok
  knows : ∀ x e a, written.get? x = some e → e.ack = some a → worker.Knows e.analyzed a
  waits : ∀ earlier c later, pending = earlier ++ c :: later → Waits worker written earlier c

/-- `initial` is what the store held at the start. -/
structure Ok (initial : DocumentMap) (s : ShardDb) : Prop where
  tracked : Tracked s.worker s.written s.pendingCheckpoints
  live : ∀ x e, s.written.get? x = some e → s.db.store.get? x = some e.stored
  origin : ∀ x doc, s.db.store.get? x = some doc →
    (∃ e, s.written.get? x = some e ∧ e.stored = doc) ∨ initial.get? x = some doc
  segments : ∀ x e, s.written.get? x = some e → e.segment ≤ s.walSegment
  through : ∀ c ∈ s.pendingCheckpoints, c.throughSegment < s.walSegment

structure Writing (initial : DocumentMap) (s : ShardDb) : Prop extends Ok initial s where
  segment_le : s.callSegment ≤ s.walSegment
  after : ∀ c ∈ s.pendingCheckpoints, c.throughSegment < s.callSegment

def InStep (p : IndexPipeline) (s : ShardDb) : Prop :=
  p.db.store = s.db.store ∧ p.currentStoreBatch.length = p.currentBatch.length

variable {worker worker' : IndexWorker} {written written' : SortedMap String WrittenDocument}
  {pending : List PendingCheckpoint} {initial : DocumentMap} {s : ShardDb}

namespace Tracked

theorem setWorker (h : Tracked worker written pending) (hok : worker'.Ok)
    (hmoves : ∀ x e, written.get? x = some e → worker.Moves worker' e.analyzed) :
    Tracked worker' written pending where
  ok := hok
  knows x e a he ha := (hmoves x e he).knows a (h.knows x e a he ha)
  waits earlier c later hc := by
    obtain ⟨acks, f, hacks, hdocs⟩ := h.waits earlier c later hc
    refine ⟨acks, f, hacks, fun x e he hseg => ?_⟩
    obtain ⟨a, ha, hgood, hcovers⟩ := hdocs x e he hseg
    have hk := h.knows x e a he ha
    exact ⟨a, ha, hgood.imp_left ((hmoves x e he).good a hk), (hmoves x e he).covers a f hk hcovers⟩

theorem setWritten (h : Tracked worker written pending)
    (hold : ∀ x e, written'.get? x = some e → written.get? x = some e ∨
      ((∀ a, e.ack = some a → worker.Knows e.analyzed a) ∧
        ∀ c ∈ pending, c.throughSegment < e.segment)) :
    Tracked worker written' pending where
  ok := h.ok
  knows x e a he ha := (hold x e he).elim (fun he => h.knows x e a he ha) fun hnew => hnew.1 a ha
  waits earlier c later hc := by
    obtain ⟨acks, f, hacks, hdocs⟩ := h.waits earlier c later hc
    refine ⟨acks, f, hacks, fun x e he hseg => ?_⟩
    rcases hold x e he with he | ⟨-, hafter⟩
    · exact hdocs x e he hseg
    · have hmem : c ∈ pending := hc ▸ mem_append_right _ mem_cons_self
      exact absurd (hafter c hmem) (not_lt.mpr hseg)

theorem clear (h : Tracked worker written pending) : Tracked worker written [] :=
  ⟨h.ok, h.knows, fun _ _ _ hc => absurd hc (by simp)⟩

end Tracked

theorem good_of_tryComplete {answers : SortedMap ℕ Bool} {acks : List ℕ}
    (h : tryComplete answers acks = some true) : ∀ a ∈ acks, answers.get? a = some true := by
  induction acks with
  | nil => exact fun a ha => absurd ha not_mem_nil
  | cons ack rest ih =>
    intro a ha
    unfold tryComplete at h
    rcases hget : answers.get? ack with _ | _ | _
    · simp [hget] at h
    · simp [hget] at h
    · rw [hget] at h
      rcases mem_cons.mp ha with rfl | ha
      · exact hget
      · exact ih h a ha

theorem Tracked.finish {c : PendingCheckpoint} {rest : List PendingCheckpoint}
    (h : Tracked worker written (c :: rest)) (hdone : tryComplete worker.answers c.acks = some true) :
    Tracked worker written rest ∧ ∀ x e, written.get? x = some e → e.segment ≤ c.throughSegment →
      e.analyzed.At worker.world.OnDisk := by
  have hgood := good_of_tryComplete hdone
  refine ⟨⟨h.ok, h.knows, fun earlier c' later hc' => ?_⟩, fun x e he hseg => ?_⟩
  · obtain ⟨acks, f, hacks, hdocs⟩ := h.waits (c :: earlier) c' later (by rw [hc']; rfl)
    refine ⟨acks, f, hacks, fun x e he hseg => ?_⟩
    obtain ⟨a, ha, hticket, hcovers⟩ := hdocs x e he hseg
    refine ⟨a, ha, ?_, hcovers⟩
    rcases hticket with htrue | ⟨c'', hc'', hmem⟩
    · exact .inl htrue
    · rcases mem_cons.mp hc'' with rfl | hc''
      · exact .inl (hgood a hmem)
      · exact .inr ⟨c'', hc'', hmem⟩
  · obtain ⟨acks, f, hacks, hdocs⟩ := h.waits [] c rest rfl
    obtain ⟨a, ha, hticket, hcovers⟩ := hdocs x e he hseg
    have htrue : worker.answers.get? a = some true := by
      rcases hticket with htrue | ⟨c', hc', hmem⟩
      · exact htrue
      · exact hgood a (mem_singleton.mp hc' ▸ hmem)
    have hf : f ∈ c.acks := hacks ▸ mem_append_right _ (mem_singleton.mpr rfl)
    exact hcovers.done (hgood f hf) htrue

theorem reapFrom_spec (removeOk : ℕ → Bool) (hs : s.pendingCheckpoints = pending)
    (h : Tracked s.worker s.written pending) :
    ∃ wal failed left, (reapFrom removeOk pending s).2.2
        = { s with wal := wal, failed := failed, pendingCheckpoints := left } ∧
      Tracked s.worker s.written left ∧ (∀ c ∈ left, c ∈ pending) ∧
      ((reapFrom removeOk pending s).2.1 = true → ∀ c ∈ pending, ∀ a ∈ c.acks,
        s.worker.answers.get? a = some true ∨ ∃ c' ∈ left, a ∈ c'.acks) ∧
      ∀ n ∈ (reapFrom removeOk pending s).1, ∀ x e, s.written.get? x = some e → e.segment ≤ n →
        e.analyzed.At s.worker.world.OnDisk := by
  induction pending generalizing s with
  | nil =>
    refine ⟨s.wal, s.failed, [], ?_, h, by simp, by simp, by simp [reapFrom]⟩
    show s = { s with pendingCheckpoints := [] }
    rw [← hs]
  | cons c rest ih =>
    unfold reapFrom
    rcases hdone : tryComplete s.worker.answers c.acks with _ | ok
    · refine ⟨s.wal, s.failed, c :: rest, by rw [← hs], h, fun _ hc => hc, fun _ c' hc' a ha => ?_,
        by simp⟩
      exact .inr ⟨c', hc', ha⟩
    · cases ok with
      | false =>
        refine ⟨s.wal, true, [], by simp [finishCheckpoint], h.clear, by simp, ?_, ?_⟩
        · simp [finishCheckpoint]
        · simp [finishCheckpoint]
      | true =>
        obtain ⟨hrest, hdisk⟩ := h.finish hdone
        cases hremove : removeOk c.throughSegment with
        | false =>
          refine ⟨s.wal, true, [], by simp [finishCheckpoint], h.clear, by simp, ?_, ?_⟩
          · simp [finishCheckpoint]
          · intro n hn
            obtain rfl : n = c.throughSegment := by simpa [finishCheckpoint] using hn
            exact hdisk
        | true =>
          obtain ⟨wal, failed, left, heq, htracked, hsub, hticket, hclosed⟩ :=
            ih (s := { s with
              pendingCheckpoints := rest
              wal := s.wal.filter fun entry => c.throughSegment < entry.1 }) rfl hrest
          simp only [finishCheckpoint, and_self, if_true]
          refine ⟨wal, failed, left, heq, htracked, fun c' hc' => mem_cons_of_mem _ (hsub c' hc'),
            fun hall c' hc' a ha => ?_, fun n hn => ?_⟩
          · rcases mem_cons.mp hc' with rfl | hc'
            · exact .inl (good_of_tryComplete hdone a ha)
            · exact hticket hall c' hc' a ha
          · rcases mem_append.mp hn with hn | hn
            · exact mem_singleton.mp hn ▸ hdisk
            · exact hclosed n hn

/-- Every document has a good answer, or one that is still to be collected. -/
def Answered (s : ShardDb) : Prop :=
  ∀ x e, s.written.get? x = some e → ∃ a, e.ack = some a ∧
    (s.worker.answers.get? a = some true ∨ a ∈ s.indexInFlight ∨ ∃ c ∈ s.pendingCheckpoints, a ∈ c.acks)

theorem Tracked.push (h : Tracked worker written pending) {inFlight : List ℕ} {n : ℕ}
    (hanswered : ∀ x e, written.get? x = some e → ∃ a, e.ack = some a ∧
      (worker.answers.get? a = some true ∨ a ∈ inFlight ∨ ∃ c ∈ pending, a ∈ c.acks)) :
    Tracked (worker.send .flush) written (pending ++ [⟨n, inFlight ++ [worker.nextAck]⟩]) := by
  have hack : ∀ n, (Command.flush n).ack = n := fun _ => rfl
  obtain ⟨hok, hmoves⟩ := h.ok.send hack
  have hsent := h.setWorker hok fun _ e _ => hmoves e.analyzed
  refine ⟨hok, hsent.knows, fun earlier c later hc => ?_⟩
  rcases eq_nil_or_concat later with rfl | ⟨before, last, rfl⟩
  · obtain ⟨rfl, hlast⟩ := append_inj' hc rfl
    obtain rfl := (cons.inj hlast).1
    refine ⟨inFlight, worker.nextAck, rfl, fun x e he _ => ?_⟩
    obtain ⟨a, ha, hticket⟩ := hanswered x e he
    refine ⟨a, ha, ?_, h.ok.covers_send (h.knows x e a he ha)⟩
    rcases hticket with htrue | hmem | ⟨c, hc', hmem⟩
    · exact .inl htrue
    · exact .inr ⟨_, mem_append_right _ (mem_singleton.mpr rfl), mem_append_left _ hmem⟩
    · exact .inr ⟨c, mem_append_left _ hc', hmem⟩
  · refine hsent.waits earlier c before ?_
    rw [concat_eq_append, ← cons_append, ← append_assoc] at hc
    exact (append_inj' hc rfl).1

theorem Ok.reapCheckpoints (h : Ok initial s) (removeOk : ℕ → Bool) :
    Ok initial (s.reapCheckpoints removeOk).2.2 ∧ ∀ n ∈ (s.reapCheckpoints removeOk).1,
      ∀ x e, s.written.get? x = some e → e.segment ≤ n → e.analyzed.At s.worker.world.OnDisk := by
  obtain ⟨wal, failed, left, heq, htracked, hsub, -, hclosed⟩ := reapFrom_spec removeOk rfl h.tracked
  refine ⟨?_, hclosed⟩
  unfold ShardDb.reapCheckpoints
  rw [heq]
  exact ⟨htracked, h.live, h.origin, h.segments, fun c hc => h.through c (hsub c hc)⟩

theorem Ok.startCheckpoint (h : Ok initial s) (removeOk : ℕ → Bool) {rotateOk syncOk : Bool}
    (hanswered : rotateOk = true → syncOk = true → s.Answered) :
    Ok initial (s.startCheckpoint removeOk rotateOk syncOk).2 ∧
      ∀ n ∈ (s.startCheckpoint removeOk rotateOk syncOk).1,
        ∀ x e, s.written.get? x = some e → e.segment ≤ n → e.analyzed.At s.worker.world.OnDisk := by
  obtain ⟨hok, hclosed⟩ := h.reapCheckpoints removeOk
  obtain ⟨wal, failed, left, heq, htracked, hsub, hticket, -⟩ := reapFrom_spec removeOk rfl h.tracked
  change (s.reapCheckpoints removeOk).2.2 = _ at heq
  change (s.reapCheckpoints removeOk).2.1 = true → _ at hticket
  unfold ShardDb.startCheckpoint
  rcases hreap : s.reapCheckpoints removeOk with ⟨removed, all, s₁⟩
  rw [hreap] at hok hclosed heq hticket
  simp only at hok hclosed heq hticket
  cases all with
  | false => exact ⟨hok, hclosed⟩
  | true =>
    simp only
    split_ifs with hwait hrotate hsync
    · exact ⟨hok, hclosed⟩
    · refine ⟨⟨hok.tracked.push fun x e he => ?_, hok.live, hok.origin, fun x e he => ?_, fun c hc => ?_⟩,
        hclosed⟩
      · rw [heq] at he ⊢
        obtain ⟨a, ha, hgood⟩ := hanswered hrotate hsync x e he
        refine ⟨a, ha, ?_⟩
        rcases hgood with htrue | hmem | ⟨c, hc, hmem⟩
        · exact .inl htrue
        · exact .inr (.inl hmem)
        · exact (hticket rfl c hc a hmem).imp_right .inr
      · exact le_succ_of_le (hok.segments x e he)
      · rcases mem_append.mp hc with hc | hc
        · exact lt_succ_of_lt (hok.through c hc)
        · rw [mem_singleton.mp hc]
          exact lt_succ_self _
    · refine ⟨⟨hok.tracked, hok.live, hok.origin, fun x e he => ?_, fun c hc => ?_⟩, hclosed⟩
      · exact le_succ_of_le (hok.segments x e he)
      · exact lt_succ_of_lt (hok.through c hc)
    · exact ⟨⟨hok.tracked, hok.live, hok.origin, hok.segments, hok.through⟩, hclosed⟩

/-! ### Writes -/

theorem Writing.congr {s' : ShardDb} (h : Writing initial s) (hstore : s'.db.store = s.db.store)
    (hworker : s'.worker = s.worker) (hwritten : s'.written = s.written)
    (hpending : s'.pendingCheckpoints = s.pendingCheckpoints) (hwal : s'.walSegment = s.walSegment)
    (hcall : s'.callSegment = s.callSegment) : Writing initial s' where
  tracked := by rw [hworker, hwritten, hpending]; exact h.tracked
  live := by rw [hstore, hwritten]; exact h.live
  origin := by rw [hstore, hwritten]; exact h.origin
  segments := by rw [hwritten, hwal]; exact h.segments
  through := by rw [hpending, hwal]; exact h.through
  segment_le := by rw [hcall, hwal]; exact h.segment_le
  after := by rw [hcall, hpending]; exact h.after

theorem Writing.setWorker (h : Writing initial s) (hok : worker'.Ok)
    (hmoves : ∀ doc, s.worker.Moves worker' doc) : Writing initial { s with worker := worker' } :=
  ⟨⟨h.tracked.setWorker hok fun _ e _ => hmoves e.analyzed, h.live, h.origin, h.segments, h.through⟩,
    h.segment_le, h.after⟩

theorem get?_record (added : List WrittenDocument) (written : SortedMap String WrittenDocument)
    (m : DocumentMap) (x : String) :
    (∃ e ∈ added, (record written added).get? x = some e ∧
      ((added.map WrittenDocument.stored).foldl DocumentMap.put m).get? x = some e.stored) ∨
    ((record written added).get? x = written.get? x ∧
      ((added.map WrittenDocument.stored).foldl DocumentMap.put m).get? x = m.get? x) := by
  induction added generalizing written m with
  | nil => exact .inr ⟨rfl, rfl⟩
  | cons e rest ih =>
    rcases ih (written.insert e.stored.externalId e) (m.put e.stored) with
      ⟨e', he', hget⟩ | ⟨hwritten, hstore⟩
    · exact .inl ⟨e', mem_cons_of_mem _ he', hget⟩
    · rw [get?_insert] at hwritten
      rw [DocumentMap.put, get?_insert] at hstore
      by_cases hx : x = e.stored.externalId
      · rw [if_pos hx] at hwritten hstore
        exact .inl ⟨e, mem_cons_self, hwritten, hstore⟩
      · rw [if_neg hx] at hwritten hstore
        exact .inr ⟨hwritten, hstore⟩

section

variable (h : Writing initial s)
include h

theorem Writing.put {docs : List StoredDocument}
    {batch : List AnalyzedDocument} {ack : Option ℕ} {db : Database}
    (hlen : docs.length ≤ batch.length) (hstore : db.store = docs.foldl DocumentMap.put s.db.store)
    (hknows : ∀ doc ∈ batch, ∀ a, ack = some a → s.worker.Knows doc a) :
    Writing initial { s with
      db := db
      written := record s.written (entries s.callSegment docs batch ack) } := by
  have hdocs : (entries s.callSegment docs batch ack).map WrittenDocument.stored = docs := by
    rw [entries, List.map_map]
    exact map_fst_zip hlen
  have hentry : ∀ e ∈ entries s.callSegment docs batch ack,
      e.segment = s.callSegment ∧ e.analyzed ∈ batch ∧ e.ack = ack := by
    intro e he
    obtain ⟨⟨doc, analyzed⟩, hmem, rfl⟩ := mem_map.mp he
    exact ⟨rfl, (of_mem_zip hmem).2, rfl⟩
  have hget : ∀ x, (∃ e ∈ entries s.callSegment docs batch ack,
        (record s.written (entries s.callSegment docs batch ack)).get? x = some e ∧
          db.store.get? x = some e.stored) ∨
      ((record s.written (entries s.callSegment docs batch ack)).get? x = s.written.get? x ∧
        db.store.get? x = s.db.store.get? x) := by
    intro x
    have hboth := get?_record (entries s.callSegment docs batch ack) s.written s.db.store x
    rwa [hdocs, ← hstore] at hboth
  have hcases : ∀ x e, (record s.written (entries s.callSegment docs batch ack)).get? x = some e →
      s.written.get? x = some e ∨ e ∈ entries s.callSegment docs batch ack := by
    intro x e he
    rcases hget x with ⟨e', he', hrec, -⟩ | ⟨hrec, -⟩
    · exact .inr (some_inj.mp (hrec.symm.trans he) ▸ he')
    · exact .inl (hrec ▸ he)
  refine ⟨⟨h.tracked.setWritten fun x e he => ?_, fun x e he => ?_, fun x doc hdoc => ?_,
    fun x e he => ?_, h.through⟩, h.segment_le, h.after⟩
  · refine (hcases x e he).imp_right fun hnew => ?_
    obtain ⟨hseg, hbatch, hack⟩ := hentry e hnew
    exact ⟨fun a ha => hknows _ hbatch a (hack ▸ ha), fun c hc => hseg ▸ h.after c hc⟩
  · rcases hget x with ⟨e', -, hrec, hput⟩ | ⟨hrec, hput⟩
    · rw [← some_inj.mp (hrec.symm.trans he)]
      exact hput
    · exact hput.trans (h.live x e (hrec ▸ he))
  · rcases hget x with ⟨e', -, hrec, hput⟩ | ⟨hrec, hput⟩
    · exact .inl ⟨e', hrec, some_inj.mp (hput.symm.trans hdoc)⟩
    · rcases h.origin x doc (hput ▸ hdoc) with ⟨e, he, heq⟩ | hinitial
      · exact .inl ⟨e, hrec.trans he, heq⟩
      · exact .inr hinitial
  · rcases hcases x e he with hold | hnew
    · exact h.segments x e hold
    · exact (hentry e hnew).1.le.trans h.segment_le

theorem Writing.putBatch {p : IndexPipeline} (hp : InStep p s)
    {docs : List StoredDocument} (hlen : docs.length ≤ p.currentBatch.length) {ack : Option ℕ}
    (hknows : ∀ doc ∈ p.currentBatch, ∀ a, ack = some a → s.worker.Knows doc a) :
    Writing initial (s.putBatch p docs ack) :=
  h.put hlen (congrArg (docs.foldl DocumentMap.put) hp.1) hknows

theorem Writing.flushBatch {p : IndexPipeline} (hp : InStep p s)
    (env : CallEnv) :
    Writing initial (s.flushBatch env p).2 ∧
      ∀ p', (s.flushBatch env p).1 = some p' → InStep p' (s.flushBatch env p).2 := by
  have hnever : ∀ {s' : ShardDb}, ∀ doc ∈ p.currentBatch, ∀ a, none = some a →
      s'.worker.Knows doc a := fun _ _ _ ha => absurd ha (by simp)
  have hpolled : Writing initial s.errorReturn.2 := h.congr rfl rfl rfl rfl rfl rfl
  unfold ShardDb.flushBatch
  split_ifs with hempty
  · exact ⟨h, fun p' hp' => some_inj.mp hp' ▸ hp⟩
  cases env.storedBeforeFailure with
  | some count =>
    refine ⟨h.putBatch hp ?_ hnever, fun p' hp' => absurd hp' (by simp)⟩
    exact (length_take_le' _ _).trans hp.2.le
  | none =>
    rcases hreturn : s.errorReturn with ⟨ok, polled⟩
    rw [hreturn] at hpolled
    have hp' : InStep p polled := by
      have hdb : polled.db = s.db := congrArg (fun r => r.2.db) hreturn.symm
      exact ⟨hp.1.trans (by rw [hdb]), hp.2⟩
    cases ok with
    | false => exact ⟨hpolled.putBatch hp' hp.2.le hnever, fun p' hp' => absurd hp' (by simp)⟩
    | true =>
      have hack : ∀ n, (Command.addDocuments p.currentBatch n).ack = n := fun _ => rfl
      obtain ⟨hok, hmoves⟩ := hpolled.tracked.ok.send hack
      have hknows : ∀ doc ∈ p.currentBatch, ∀ a, some polled.worker.nextAck = some a →
          (polled.worker.send (.addDocuments p.currentBatch)).Knows doc a :=
        fun doc hdoc a ha => some_inj.mp ha ▸ hpolled.tracked.ok.knows_send hdoc
      have hsent := (hpolled.setWorker hok hmoves).putBatch hp' hp.2.le hknows
      refine ⟨hsent.congr rfl rfl rfl rfl rfl rfl, fun p' hp' => ?_⟩
      rw [← some_inj.mp hp']
      exact ⟨rfl, rfl⟩

theorem Writing.pushed {p : IndexPipeline} (hp : InStep p s) (env : CallEnv) :
    Writing initial (s.pushed env p).2 ∧
      ∀ p', (s.pushed env p).1 = some p' → InStep p' (s.pushed env p).2 := by
  have hpolled : Writing initial s.errorReturn.2 := h.congr rfl rfl rfl rfl rfl rfl
  have hp' : InStep p s.errorReturn.2 := hp
  unfold ShardDb.pushed
  split_ifs with hfull hlarge
  · exact h.flushBatch hp env
  · rcases hreturn : s.errorReturn with ⟨ok, polled⟩
    rw [hreturn] at hpolled hp'
    cases ok with
    | false => exact ⟨hpolled, fun p' hp' => absurd hp' (by simp)⟩
    | true =>
      simp only
      split_ifs with hidle
      · exact hpolled.flushBatch hp' env
      · exact ⟨hpolled, fun p' heq => some_inj.mp heq ▸ hp'⟩
  · exact ⟨h, fun p' heq => some_inj.mp heq ▸ hp⟩

theorem Writing.deleteOld (externalId : String) (outcome : ℕ → Outcome) :
    Writing initial (s.deleteOld externalId outcome).2 := by
  unfold ShardDb.deleteOld
  cases s.db.store.get? externalId with
  | none => exact h
  | some old =>
    have hack : ∀ n, (Command.deleteDocument old.internalId n).ack = n := fun _ => rfl
    obtain ⟨hok, hmoves⟩ := h.tracked.ok.sendWait hack outcome
    have hsent := h.setWorker hok fun doc => ((h.tracked.ok.send hack).2 doc).trans (hmoves doc)
    exact hsent.congr rfl rfl rfl rfl rfl rfl

theorem Writing.addAndPut (stored : StoredDocument) (content : DocumentContent)
    (env : CallEnv) : Writing initial (s.addAndPut stored content env) := by
  unfold ShardDb.addAndPut
  simp only
  have hack : ∀ docs n, (Command.addDocuments docs n).ack = n := fun _ _ => rfl
  obtain ⟨indexed, allocator⟩ := indexDocument stored.internalId content s.db.arrayRowAllocator
  obtain ⟨hok, hmoves⟩ := h.tracked.ok.sendWait (hack [indexed]) env.outcome
  have hsent := h.setWorker hok fun doc => ((h.tracked.ok.send (hack _)).2 doc).trans (hmoves doc)
  split_ifs with hgood
  · have hknows : ∀ doc ∈ [indexed], ∀ a, some s.worker.nextAck = some a →
        (s.worker.sendWait (.addDocuments [indexed]) env.outcome).2.Knows doc a := by
      intro doc hdoc a ha
      rw [← some_inj.mp ha]
      exact (hmoves doc).knows _ (h.tracked.ok.knows_send hdoc)
    have hlen : [stored].length ≤ [indexed].length := le_rfl
    exact (hsent.put hlen rfl hknows).congr rfl rfl rfl rfl rfl rfl
  · exact hsent.congr rfl rfl rfl rfl rfl rfl

theorem Writing.upsertDocument (input : DocumentInput) (env : CallEnv) :
    Writing initial (s.upsertDocument input env) := by
  unfold ShardDb.upsertDocument
  cases halloc : s.db.allocateInternalId with
  | error e => exact h
  | ok r =>
    obtain ⟨internalId, db⟩ := r
    have hstore : db.store = s.db.store := (Database.allocateInternalId_eq_ok halloc).2 ▸ rfl
    have hdb : Writing initial { s with db := db } := h.congr hstore rfl rfl rfl rfl rfl
    simp only
    obtain ⟨externalId, hext⟩ : ∃ externalId, externalId =
      if input.externalId = "" then toString internalId else input.externalId := ⟨_, rfl⟩
    rw [← hext]
    have hold := hdb.deleteOld externalId env.outcome
    rcases hdelete : { s with db := db }.deleteOld externalId env.outcome with ⟨ok, s'⟩
    rw [hdelete] at hold ⊢
    cases ok with
    | false => exact hold
    | true => exact hold.addAndPut _ _ env

theorem Writing.deleteDocument (externalId : String) (env : CallEnv) :
    Writing initial (s.deleteDocument externalId env) := by
  unfold ShardDb.deleteDocument
  have hold := h.deleteOld externalId env.outcome
  rcases hdelete : s.deleteOld externalId env.outcome with ⟨ok, s'⟩
  rw [hdelete] at hold
  cases ok with
  | false => exact hold
  | true =>
    simp only
    split_ifs
    · have hget : ∀ x e, (s'.written.erase externalId).get? x = some e →
          x ≠ externalId ∧ s'.written.get? x = some e := by
        intro x e he
        rw [get?_erase] at he
        split_ifs at he with hx
        exact ⟨hx, he⟩
      refine ⟨⟨hold.tracked.setWritten fun x e he => .inl (hget x e he).2, fun x e he => ?_,
        fun x doc hdoc => ?_, fun x e he => hold.segments x e (hget x e he).2, hold.through⟩,
        hold.segment_le, hold.after⟩
      · show (s'.db.store.erase externalId).get? x = some e.stored
        rw [get?_erase, if_neg (hget x e he).1]
        exact hold.live x e (hget x e he).2
      · have hdoc' : (s'.db.store.erase externalId).get? x = some doc := hdoc
        rw [get?_erase] at hdoc'
        split_ifs at hdoc' with hx
        rcases hold.origin x doc hdoc' with ⟨e, he, heq⟩ | hinitial
        · refine .inl ⟨e, ?_, heq⟩
          rw [get?_erase, if_neg hx]
          exact he
        · exact .inr hinitial
    · exact hold

end

/-! ### Runs -/

structure Sound (initial : DocumentMap) (s : ShardDb) : Prop extends Ok initial s where
  writing : s.call.isSome → Writing initial s
  pipeline : ∀ inputs n p, s.call = some (.insert inputs n p) → InStep p s

theorem Writing.sound (h : Writing initial s) {call : Option Call}
    (hp : ∀ inputs n p, call = some (.insert inputs n p) → InStep p s) :
    Sound initial { s with call := call } :=
  ⟨⟨h.tracked, h.live, h.origin, h.segments, h.through⟩, fun _ => h.congr rfl rfl rfl rfl rfl rfl, hp⟩

theorem Writing.resume {r : Option IndexPipeline × ShardDb} (h : Writing initial r.2)
    (hp : ∀ p', r.1 = some p' → InStep p' r.2) (inputs : List DocumentInput) (n : ℕ) :
    Sound initial (resume inputs n r) := by
  obtain ⟨p | p, s⟩ := r
  · exact h.sound fun _ _ _ hcall => absurd hcall (by simp)
  · refine h.sound fun inputs' n' p' hcall => ?_
    cases hcall
    exact hp p rfl

theorem Writing.beginImport (h : Writing initial s) (inputs : List DocumentInput) (batchSize : ℕ) :
    Sound initial (s.beginImport inputs batchSize) := by
  unfold ShardDb.beginImport Database.beginImport
  split_ifs
  · exact h.sound fun _ _ _ hcall => absurd hcall (by simp)
  · refine h.sound fun inputs' n' p' hcall => ?_
    cases hcall
    exact ⟨rfl, rfl⟩

theorem InStep.accept {p p' : IndexPipeline} (hp : InStep p s) {input : DocumentInput} {n : ℕ}
    {accepted : Bool} (h : p.accept input n = .ok (accepted, p')) :
    InStep p' { s with db := p'.db } ∧ p'.db.store = s.db.store := by
  unfold IndexPipeline.accept at h
  split_ifs at h with hexists
  · obtain ⟨-, rfl⟩ := Prod.mk.inj (Except.ok.inj h)
    exact ⟨⟨rfl, hp.2⟩, hp.1⟩
  · cases halloc : p.db.allocateInternalId with
    | error e =>
      rw [halloc] at h
      cases h
    | ok r =>
      obtain ⟨internalId, db⟩ := r
      rw [halloc] at h
      obtain ⟨-, rfl⟩ := Prod.mk.inj (Except.ok.inj h)
      have hstore : db.store = p.db.store := (Database.allocateInternalId_eq_ok halloc).2 ▸ rfl
      refine ⟨⟨rfl, ?_⟩, hstore.trans hp.1⟩
      simp only [length_append, length_cons, length_nil, hp.2]

theorem Sound.next (h : Sound initial s) (env : CallEnv) : Sound initial (s.next env) := by
  have hnone : ∀ {s' : ShardDb} (inputs n p), (none : Option Call) = some (.insert inputs n p) →
      InStep p s' := fun _ _ _ hcall => absurd hcall (by simp)
  unfold ShardDb.next
  cases hcall : s.call with
  | none => exact h
  | some call =>
    have hw : Writing initial s := h.writing (by rw [hcall]; rfl)
    cases call with
    | insert inputs n p =>
      have hp : InStep p s := h.pipeline inputs n p hcall
      cases inputs with
      | nil => exact (hw.flushBatch hp env).1.sound hnone
      | cons input rest =>
        simp only
        rcases haccept : p.accept input n with e | ⟨accepted, p'⟩
        · exact hw.sound hnone
        · obtain ⟨hp', hstore⟩ := hp.accept haccept
          have hw' : Writing initial { s with db := p'.db } := hw.congr hstore rfl rfl rfl rfl rfl
          cases accepted with
          | false =>
            refine hw'.sound fun inputs' n' p'' hcall' => ?_
            cases hcall'
            exact hp'
          | true =>
            obtain ⟨hpushed, hin⟩ := hw'.pushed hp' env
            rw [← hcall]
            exact hpushed.resume hin rest (n + 1)
    | upsert inputs =>
      cases inputs with
      | nil => exact hw.sound hnone
      | cons input rest =>
        exact (hw.upsertDocument input env).sound fun _ _ _ hcall => absurd hcall (by simp)
    | delete ids =>
      cases ids with
      | nil => exact hw.sound hnone
      | cons id rest =>
        exact (hw.deleteDocument id env).sound fun _ _ _ hcall => absurd hcall (by simp)
    | recreate inputs fresh batchSize =>
      cases inputs with
      | nil => exact hw.beginImport fresh batchSize
      | cons input rest =>
        simp only
        cases s.db.getDocument input.externalId with
        | none => exact hw.sound fun _ _ _ hcall => absurd hcall (by simp)
        | some doc =>
          simp only
          split_ifs
          · exact (hw.upsertDocument input env).sound fun _ _ _ hcall => absurd hcall (by simp)
          · exact hw.sound fun _ _ _ hcall => absurd hcall (by simp)

theorem Sound.logRecord (h : Sound initial s) (record : WalRecord) :
    Writing initial (s.logRecord record) :=
  ⟨⟨h.tracked, h.live, h.origin, h.segments, h.through⟩, le_rfl, h.through⟩

/-- A step takes no checkpoint while a document is without an answer, and installs
no compaction that drops a document the store has. -/
def StepOk (s : ShardDb) : CheckpointStep → Prop
  | .startCheckpoint _ rotateOk syncOk =>
    s.call = none → rotateOk = true → syncOk = true → s.Answered
  | .work w => ∀ x e, s.written.get? x = some e → s.worker.Spares e.analyzed w
  | _ => True

theorem Sound.setWorker (h : Sound initial s) (hok : worker'.Ok)
    (hmoves : ∀ x e, s.written.get? x = some e → s.worker.Moves worker' e.analyzed) :
    Sound initial { s with worker := worker' } := by
  have htracked := h.tracked.setWorker hok hmoves
  refine ⟨⟨htracked, h.live, h.origin, h.segments, h.through⟩, fun hcall => ?_, h.pipeline⟩
  have hw := h.writing hcall
  exact ⟨⟨htracked, h.live, h.origin, h.segments, h.through⟩, hw.segment_le, hw.after⟩

theorem Sound.replay (h : Sound initial s) (segment batchSize : ℕ) (record : WalRecord) :
    Sound initial (s.replay segment batchSize record) := by
  unfold ShardDb.replay
  split_ifs with hskip
  · exact h
  simp only [not_or, not_not, not_lt] at hskip
  obtain ⟨hcall, hpending, hsegment⟩ := hskip
  have hw : Writing initial { s with callSegment := segment } :=
    ⟨⟨h.tracked, h.live, h.origin, h.segments, h.through⟩, hsegment, fun c hc => by
      rw [hpending] at hc
      cases hc⟩
  cases record with
  | clear =>
    exact ⟨⟨h.tracked, h.live, h.origin, h.segments, h.through⟩, fun _ => hw, h.pipeline⟩
  | create inputs => exact hw.sound fun _ _ _ hcall => absurd hcall (by simp)
  | upsert inputs => exact hw.sound fun _ _ _ hcall => absurd hcall (by simp)
  | replace inputs => exact hw.sound fun _ _ _ hcall => absurd hcall (by simp)
  | delete ids => exact hw.sound fun _ _ _ hcall => absurd hcall (by simp)

theorem Ok.sound (h : Ok initial s) (hcall : s.call = none) : Sound initial s := by
  refine ⟨h, fun hsome => ?_, fun _ _ _ hsome => ?_⟩
  · rw [hcall] at hsome
    cases hsome
  · rw [hcall] at hsome
    cases hsome

theorem Ok.call_reapCheckpoints (h : Ok initial s) (removeOk : ℕ → Bool) :
    (s.reapCheckpoints removeOk).2.2.call = s.call := by
  obtain ⟨wal, failed, left, heq, -⟩ := reapFrom_spec removeOk rfl h.tracked
  show (reapFrom removeOk s.pendingCheckpoints s).2.2.call = s.call
  rw [heq]

theorem Ok.call_startCheckpoint (h : Ok initial s) (removeOk : ℕ → Bool) (rotateOk syncOk : Bool) :
    (s.startCheckpoint removeOk rotateOk syncOk).2.call = s.call := by
  have hreaped := h.call_reapCheckpoints removeOk
  unfold ShardDb.startCheckpoint
  rcases hreap : s.reapCheckpoints removeOk with ⟨removed, all, s₁⟩
  rw [hreap] at hreaped
  cases all with
  | false => exact hreaped
  | true =>
    simp only
    split_ifs <;> exact hreaped

theorem Sound.step (h : Sound initial s) {st : CheckpointStep} (hst : s.StepOk st) :
    Sound initial (s.step st).2 ∧ ∀ n ∈ (s.step st).1, ∀ x e, s.written.get? x = some e →
      e.segment ≤ n → e.analyzed.At s.worker.world.OnDisk := by
  have hkept : ∀ n ∈ ([] : List ℕ), ∀ x e, s.written.get? x = some e → e.segment ≤ n →
      e.analyzed.At s.worker.world.OnDisk := fun _ hn => absurd hn not_mem_nil
  cases st with
  | insert inputs batchSize walOk =>
    refine ⟨?_, hkept⟩
    show Sound initial (s.insert inputs batchSize walOk)
    unfold insert
    split_ifs
    · exact h
    · exact (h.logRecord _).beginImport inputs batchSize
  | upsert inputs walOk =>
    refine ⟨?_, hkept⟩
    show Sound initial (s.upsert inputs walOk)
    unfold upsert
    split_ifs
    · exact h
    · exact (h.logRecord _).sound fun _ _ _ hcall => absurd hcall (by simp)
  | replace inputs walOk =>
    refine ⟨?_, hkept⟩
    show Sound initial (s.replace inputs walOk)
    unfold replace
    simp only
    split_ifs
    · exact h
    · exact (h.logRecord _).sound fun _ _ _ hcall => absurd hcall (by simp)
  | delete ids walOk =>
    refine ⟨?_, hkept⟩
    show Sound initial (s.delete ids walOk)
    unfold delete
    split_ifs
    · exact h
    · exact (h.logRecord _).sound fun _ _ _ hcall => absurd hcall (by simp)
  | replay segment batchSize record => exact ⟨h.replay segment batchSize record, hkept⟩
  | sweep docId outcome =>
    have hack : ∀ n, (Command.deleteDocument docId n).ack = n := fun _ => rfl
    obtain ⟨hok, hmoves⟩ := h.tracked.ok.sendWait hack outcome
    exact ⟨h.setWorker hok fun _ e _ =>
      ((h.tracked.ok.send hack).2 e.analyzed).trans (hmoves e.analyzed), hkept⟩
  | next env => exact ⟨h.next env, hkept⟩
  | startCheckpoint removeOk rotateOk syncOk =>
    simp only [ShardDb.step]
    split_ifs with hcall
    · exact ⟨h, hkept⟩
    · have hnone : s.call = none := by simpa using hcall
      obtain ⟨hok, hclosed⟩ := h.startCheckpoint removeOk (hst hnone)
      exact ⟨hok.sound ((h.call_startCheckpoint removeOk rotateOk syncOk).trans hnone), hclosed⟩
  | reapCheckpoints removeOk =>
    simp only [ShardDb.step]
    split_ifs with hcall
    · exact ⟨h, hkept⟩
    · have hnone : s.call = none := by simpa using hcall
      obtain ⟨hok, hclosed⟩ := h.reapCheckpoints removeOk
      exact ⟨hok.sound ((h.call_reapCheckpoints removeOk).trans hnone), hclosed⟩
  | work w =>
    obtain ⟨hok, hmoves⟩ := h.tracked.ok.work w
    exact ⟨h.setWorker hok fun x e he => hmoves e.analyzed (hst x e he), hkept⟩

def RunOk (s : ShardDb) : List CheckpointStep → Prop
  | [] => True
  | st :: rest => s.StepOk st ∧ RunOk (s.step st).2 rest

theorem sound_start (db : Database) {manifest : List (ℕ × Segment)}
    (hnodup : (manifest.map Prod.fst).Nodup) (tombstones : DeleteSet) (flushThreshold : ℕ)
    (wal : List (ℕ × WalRecord)) (walSegment : ℕ) :
    Sound db.store (start db (.start manifest tombstones flushThreshold) wal walSegment) := by
  refine Ok.sound ⟨⟨IndexWorker.ok_start hnodup tombstones flushThreshold, ?_, ?_⟩, ?_, ?_, ?_, ?_⟩ rfl
  · exact fun _ _ _ he => absurd he (by simp [start])
  · exact fun _ _ _ hc => absurd hc (by simp [start])
  · exact fun _ _ he => absurd he (by simp [start])
  · exact fun _ _ hdoc => .inr hdoc
  · exact fun _ _ he => absurd he (by simp [start])
  · exact fun _ hc => absurd hc (by simp [start])

theorem Sound.run (h : Sound initial s) {steps : List CheckpointStep} {st : CheckpointStep}
    (hok : s.RunOk (steps ++ [st])) : Sound initial (s.run steps) ∧ (s.run steps).StepOk st := by
  induction steps generalizing s with
  | nil => exact ⟨h, hok.1⟩
  | cons first rest ih => exact ih (h.step hok.1).1 hok.2

/-- Whenever a step removes the log up to segment `n`, every document the store has
was there at the start or was logged since, and is on disk if its segment is
removed. -/
theorem removed_onDisk (db : Database) (manifest : List (ℕ × Segment)) (tombstones : DeleteSet)
    (flushThreshold : ℕ) (wal : List (ℕ × WalRecord)) (walSegment : ℕ)
    (steps : List CheckpointStep) (st : CheckpointStep)
    (hnodup : (manifest.map Prod.fst).Nodup)
    (hok : (start db (.start manifest tombstones flushThreshold) wal walSegment).RunOk (steps ++ [st])) :
    let s := (start db (.start manifest tombstones flushThreshold) wal walSegment).run steps
    ∀ n ∈ (s.step st).1, ∀ x doc, s.db.store.get? x = some doc →
      (∃ e, s.written.get? x = some e ∧ e.stored = doc ∧
        (e.segment ≤ n → e.analyzed.At s.worker.world.OnDisk)) ∨ db.store.get? x = some doc := by
  intro s n hn x doc hdoc
  obtain ⟨hsound, hst⟩ :=
    (sound_start db hnodup tombstones flushThreshold wal walSegment).run hok
  obtain ⟨-, hclosed⟩ := hsound.step hst
  refine (hsound.origin x doc hdoc).imp_left ?_
  rintro ⟨e, he, heq⟩
  exact ⟨e, he, heq, hclosed n hn x e he⟩

/-- A document with the text `red`. -/
def redInput (externalId : String) : DocumentInput :=
  ⟨externalId, ⟨⟨[⟨0, 1, [⟨"red", [0], 1⟩]⟩], [], []⟩, []⟩, [1], .json⟩

def emptyShard : ShardDb :=
  start ⟨.empty, 0, 1, ⟨1⟩, []⟩ (.start [] ∅ 1000000) [] 1

def goodEnv : CallEnv := ⟨fun _ => ⟨false, fun _ => false, fun _ => true, true⟩, none⟩

def flushedRun : List CheckpointStep :=
  [.insert [redInput "a"] 10 true, .next goodEnv, .next goodEnv, .work (.handle (goodEnv.outcome 0)),
    .startCheckpoint (fun _ => true) true true, .work (.handle (goodEnv.outcome 1)),
    .work (.segmentWritten 0 true true)]

theorem flushedRun_onDisk :
    1 ∈ ((emptyShard.run flushedRun).step (.reapCheckpoints fun _ => true)).1 ∧
      ∃ e, (emptyShard.run flushedRun).written.get? "a" = some e ∧ e.segment ≤ 1 ∧
        e.analyzed.At (emptyShard.run flushedRun).worker.world.OnDisk := by
  have hanswered : (emptyShard.run (flushedRun.take 4)).Answered := by
    have hack : ∀ p ∈ (emptyShard.run (flushedRun.take 4)).written.entries, p.2.ack = some 0 := by decide
    intro x e he
    exact ⟨0, hack (x, e) (mem_entries.mpr he), .inl (by decide)⟩
  have hok : emptyShard.RunOk (flushedRun ++ [.reapCheckpoints fun _ => true]) :=
    ⟨trivial, trivial, trivial, fun _ _ _ => trivial, fun _ _ _ => hanswered, fun _ _ _ => trivial,
      fun _ _ _ => trivial, trivial, trivial⟩
  have hremoved : 1 ∈ ((emptyShard.run flushedRun).step (.reapCheckpoints fun _ => true)).1 := by decide
  have hsegments : ∀ p ∈ (emptyShard.run flushedRun).written.entries, p.2.segment = 1 := by decide
  have hstored : ((emptyShard.run flushedRun).db.store.get? "a").isSome = true := by decide
  obtain ⟨doc, hdoc⟩ := isSome_iff_exists.mp hstored
  obtain ⟨e, he, -, hdisk⟩ | hinitial := removed_onDisk ⟨.empty, 0, 1, ⟨1⟩, []⟩ [] ∅ 1000000 [] 1 flushedRun
    (.reapCheckpoints fun _ => true) nodup_nil hok 1 hremoved "a" doc hdoc
  · have hsegment := (hsegments ("a", e) (mem_entries.mpr he)).le
    exact ⟨hremoved, e, he, hsegment, hdisk hsegment⟩
  · cases hinitial

def collectedRun : List CheckpointStep :=
  [.insert [redInput "a"] 10 true, .next goodEnv, .next goodEnv,
    .work (.handle ⟨true, fun _ => false, fun _ => true, true⟩),
    .insert [redInput "b"] 10 true, .next goodEnv, .next goodEnv,
    .startCheckpoint (fun _ => true) true true, .work (.handle (goodEnv.outcome 1))]

/-- The checkpoint removes segment 1, which has the records of both documents,
while the store has them and no segment of the index does. -/
theorem collectedRun_lost :
    1 ∈ ((emptyShard.run collectedRun).step (.reapCheckpoints fun _ => true)).1 ∧
      ∀ x ∈ ["a", "b"], ∃ e, (emptyShard.run collectedRun).written.get? x = some e ∧
        (emptyShard.run collectedRun).db.store.get? x = some e.stored ∧ e.segment ≤ 1 ∧
        ¬ e.analyzed.At (emptyShard.run collectedRun).worker.world.OnDisk := by
  refine ⟨by decide, fun x hx => ?_⟩
  have hempty : (emptyShard.run collectedRun).worker.world.index.segmentHandles = [] := by decide
  have hlost : ∀ p ∈ (emptyShard.run collectedRun).written.entries,
      (emptyShard.run collectedRun).db.store.get? p.1 = some p.2.stored ∧ p.2.segment ≤ 1 ∧
        (MemIndex.ofDocuments [p.2.analyzed]).posting ⟨0, "red"⟩ p.2.analyzed.docId ≠ none := by
    decide
  have hwritten : ∀ x ∈ ["a", "b"],
      ((emptyShard.run collectedRun).written.get? x).isSome = true := by decide
  obtain ⟨e, he⟩ := isSome_iff_exists.mp (hwritten x hx)
  obtain ⟨hstored, hsegment, hheld⟩ := hlost (x, e) (mem_entries.mpr he)
  refine ⟨e, he, hstored, hsegment, fun hdisk => ?_⟩
  obtain ⟨p, -, hp, -⟩ := hdisk 0 e.analyzed.docId (.inl ⟨"red", hheld⟩)
  rw [hempty] at hp
  cases hp

end ShardDb

/-
The index worker and the answers it gives.

The shard sends commands, each with the number of its answer; the worker handles
them in order.  A batch of documents is answered when it was merged, a flush when
the segments it asked for have been written.  What can fail is decided from
outside: the analysis of a batch, every write to a file, every sync.
-/
import Riets.FlushProgress

inductive Command where
  | addDocuments (docs : List AnalyzedDocument) (ack : ℕ)
  | deleteDocument (docId : DocId) (ack : ℕ)
  | flush (ack : ℕ)

def Command.ack : Command → ℕ
  | addDocuments _ ack | deleteDocument _ ack | flush ack => ack

structure IndexWorker where
  world : World
  flushThreshold : ℕ
  queue : List Command
  /-- Flushes that wait for segments, with the number that has to be reached. -/
  flushWaiters : List (ℕ × ℕ)
  answers : SortedMap ℕ Bool
  nextAck : ℕ

structure Outcome where
  lost : Bool
  busy : ℕ → Bool
  syncOk : ℕ → Bool
  appendOk : Bool

inductive WorkerStep where
  | handle (outcome : Outcome)
  | segmentWritten (seq : ℕ) (writeOk appendOk : Bool)
  | publishSnapshot (busy : ℕ → Bool)
  | takeFlushJobs
  | planCompaction (config : CompactionConfig) (quiet : Bool) (fileSize : ℕ → ℕ)
  | runCompaction (jobId : ℕ) (ok : Bool)
  | installCompaction (jobId : ℕ) (openOk manifestOk clearOk : Bool)

namespace World

/-- Merges staged documents and flushes at the threshold; says whether that
worked. -/
def mergeStaged (w : World) (threshold : ℕ) (busy : ℕ → Bool) (syncOk : Bool)
    (staged : List AnalyzedDocument) : Bool × World :=
  let w := w.step (.mergeIntoMemtable staged)
  if w.index.memtableSize ≥ threshold then
    ((w.index.queueFlush busy syncOk).1.isOk, w.step (.queueFlush busy syncOk))
  else (true, w)

/-- Stages the documents of a batch; what is staged is merged when it is large
enough and at the end. -/
def stageAndMerge (threshold : ℕ) (busy : ℕ → Bool) (syncOk : ℕ → Bool) :
    World → ℕ → List AnalyzedDocument → List AnalyzedDocument → Bool × World
  | w, n, staged, [] => w.mergeStaged threshold busy (syncOk n) staged
  | w, n, staged, doc :: rest =>
    if (MemIndex.ofDocuments (staged ++ [doc])).estimatedBytes ≥ threshold then
      match w.mergeStaged threshold busy (syncOk n) (staged ++ [doc]) with
      | (true, w) => stageAndMerge threshold busy syncOk w (n + 1) [] rest
      | (false, w) => (false, w)
    else stageAndMerge threshold busy syncOk w n (staged ++ [doc]) rest

end World

namespace IndexWorker

def start (manifest : List (ℕ × Segment)) (tombstones : DeleteSet) (flushThreshold : ℕ) :
    IndexWorker where
  world := World.start manifest tombstones
  flushThreshold := flushThreshold
  queue := []
  flushWaiters := []
  answers := .empty
  nextAck := 0

def answer (k : IndexWorker) (ack : ℕ) (ok : Bool) : IndexWorker :=
  { k with answers := k.answers.insert ack ok }

def act (k : IndexWorker) (a : IndexAction) : IndexWorker := { k with world := k.world.step a }

def flushedThrough (k : IndexWorker) : ℕ :=
  k.world.index.flushQueue.nextSeq - k.world.index.flushQueue.pending.length

/-- Answers the waiting flushes whose segments have all been written. -/
def releaseFlushWaiters (k : IndexWorker) : IndexWorker :=
  let released := k.flushWaiters.takeWhile fun waiter => waiter.1 ≤ k.flushedThrough
  { k with
    flushWaiters := k.flushWaiters.dropWhile fun waiter => waiter.1 ≤ k.flushedThrough
    answers := released.foldl
      (fun answers waiter => answers.insert waiter.2 k.world.index.flushQueue.health.isOk) k.answers }

def handle (k : IndexWorker) (outcome : Outcome) : IndexWorker :=
  match k.queue with
  | [] => k
  | .addDocuments docs ack :: rest =>
    if outcome.lost then { k with queue := rest }.answer ack false
    else
      let merged := World.stageAndMerge k.flushThreshold outcome.busy outcome.syncOk k.world 0 [] docs
      { k with queue := rest, world := merged.2 }.answer ack merged.1
  | .deleteDocument docId ack :: rest =>
    ({ k with queue := rest }.act (.deleteDocument docId outcome.appendOk)).answer ack outcome.appendOk
  | .flush ack :: rest =>
    let queued := { k with queue := rest }.act (.queueFlush outcome.busy (outcome.syncOk 0))
    if (k.world.index.queueFlush outcome.busy (outcome.syncOk 0)).1.isOk then
      let submitted := queued.act .takeFlushJobs
      { submitted with
        flushWaiters := submitted.flushWaiters ++
          [(submitted.world.index.flushQueue.nextSeq, ack)] }.releaseFlushWaiters
    else queued.answer ack false

def work (k : IndexWorker) : WorkerStep → IndexWorker
  | .handle outcome => k.handle outcome
  | .segmentWritten seq writeOk appendOk =>
    (k.act (.completeFlush seq writeOk appendOk)).releaseFlushWaiters
  | .publishSnapshot busy => k.act (.publishSnapshot busy)
  | .takeFlushJobs => k.act .takeFlushJobs
  | .planCompaction config quiet fileSize => k.act (.planCompaction config quiet fileSize)
  | .runCompaction jobId ok => k.act (.runCompaction jobId ok)
  | .installCompaction jobId openOk manifestOk clearOk =>
    k.act (.installCompaction jobId openOk manifestOk clearOk)

def drain (k : IndexWorker) (outcome : ℕ → Outcome) : IndexWorker :=
  k.queue.foldl (fun k command => k.handle (outcome command.ack)) k

def send (k : IndexWorker) (command : ℕ → Command) : IndexWorker :=
  { k with queue := k.queue ++ [command k.nextAck], nextAck := k.nextAck + 1 }

def sendWait (k : IndexWorker) (command : ℕ → Command) (outcome : ℕ → Outcome) :
    Bool × IndexWorker :=
  let answered := (k.send command).drain outcome
  ((answered.answers.get? k.nextAck).getD false, answered)

end IndexWorker

/-! ### The stages of a whole document -/

def AnalyzedDocument.At (doc : AnalyzedDocument) (stage : XPathId → DocId → Prop) : Prop :=
  ∀ x d, (MemIndex.ofDocuments [doc]).Holds x d → stage x d

namespace World

open List

variable {w w' w'' : World} {doc : AnalyzedDocument}

structure Keeps (w w' : World) (doc : AnalyzedDocument) : Prop where
  held : doc.At w.Held → doc.At w'.Held
  flushed : ∀ n, doc.At (w.FlushedBelow n) → doc.At (w'.FlushedBelow n)
  onDisk : doc.At w.OnDisk → doc.At w'.OnDisk

namespace Keeps

theorem refl (w : World) (doc : AnalyzedDocument) : Keeps w w doc := ⟨id, fun _ => id, id⟩

theorem trans (h : Keeps w w' doc) (h' : Keeps w' w'' doc) : Keeps w w'' doc :=
  ⟨h'.held ∘ h.held, fun n => h'.flushed n ∘ h.flushed n, h'.onDisk ∘ h.onDisk⟩

end Keeps

theorem keeps_step (h : Inv w) (hok : FlushOk w) {a : IndexAction} (hd : doc.At fun _ d => w.Spares d a) :
    Keeps w (w.step a) doc where
  held hheld x d hx := held_step h (hd x d hx) (hheld x d hx)
  flushed _ hflushed x d hx := flushedBelow_step h hok.root (hd x d hx) (hflushed x d hx)
  onDisk hdisk x d hx := onDisk_step h hok.root (hd x d hx) (hdisk x d hx)

structure Moved (w w' : World) : Prop where
  inv : Inv w'
  flush : FlushOk w'
  keeps : ∀ doc, Keeps w w' doc

theorem Moved.refl (h : Inv w) (hok : FlushOk w) : Moved w w := ⟨h, hok, Keeps.refl w⟩

theorem Moved.trans (h : Moved w w') (h' : Moved w' w'') : Moved w w'' :=
  ⟨h'.inv, h'.flush, fun doc => (h.keeps doc).trans (h'.keeps doc)⟩

theorem moved_step (h : Inv w) (hok : FlushOk w) {a : IndexAction} (ha : ∀ job, ¬ IndexAction.Installs job a) :
    Moved w (w.step a) :=
  ⟨inv_step h a, flushOk_step h hok a,
    fun _ => keeps_step h hok fun _ _ _ job _ hinstalls => absurd hinstalls (ha job)⟩

theorem mergeStaged_spec (h : Inv w) (hok : FlushOk w) (threshold : ℕ) (busy : ℕ → Bool)
    (syncOk : Bool) (staged : List AnalyzedDocument) :
    Moved w (w.mergeStaged threshold busy syncOk staged).2 ∧
      ∀ doc ∈ staged, doc.At (w.mergeStaged threshold busy syncOk staged).2.Held := by
  have hmerge : Moved w (w.step (.mergeIntoMemtable staged)) := moved_step h hok fun _ => id
  have hheld : ∀ doc ∈ staged, doc.At (w.step (.mergeIntoMemtable staged)).Held :=
    fun doc hdoc x d hx => held_merge (MemIndex.holds_ofDocuments hdoc hx)
  unfold mergeStaged
  simp only
  split_ifs
  · have hflush := moved_step (a := .queueFlush busy syncOk) hmerge.inv hmerge.flush fun _ => id
    exact ⟨hmerge.trans hflush, fun doc hdoc => (hflush.keeps doc).held (hheld doc hdoc)⟩
  · exact ⟨hmerge, hheld⟩

theorem stageAndMerge_spec (threshold : ℕ) (busy : ℕ → Bool) (syncOk : ℕ → Bool)
    (docs : List AnalyzedDocument) (h : Inv w) (hok : FlushOk w) (n : ℕ) (staged : List AnalyzedDocument) :
    Moved w (stageAndMerge threshold busy syncOk w n staged docs).2 ∧
      ((stageAndMerge threshold busy syncOk w n staged docs).1 = true →
        ∀ doc ∈ staged ++ docs, doc.At (stageAndMerge threshold busy syncOk w n staged docs).2.Held) := by
  induction docs generalizing w n staged with
  | nil =>
    obtain ⟨hmoved, hheld⟩ := mergeStaged_spec h hok threshold busy (syncOk n) staged
    rw [stageAndMerge, append_nil]
    exact ⟨hmoved, fun _ => hheld⟩
  | cons first rest ih =>
    unfold stageAndMerge
    split_ifs with hfull
    · obtain ⟨hmoved, hheld⟩ := mergeStaged_spec h hok threshold busy (syncOk n) (staged ++ [first])
      rcases hmerge : w.mergeStaged threshold busy (syncOk n) (staged ++ [first]) with ⟨ok, w₁⟩
      rw [hmerge] at hmoved hheld
      cases ok with
      | false => exact ⟨hmoved, fun hfalse => absurd hfalse Bool.false_ne_true⟩
      | true =>
        obtain ⟨hrest, hdone⟩ := ih hmoved.inv hmoved.flush (n + 1) []
        refine ⟨hmoved.trans hrest, fun htrue doc hdoc => ?_⟩
        rw [← singleton_append, ← append_assoc] at hdoc
        rcases mem_append.mp hdoc with hdoc | hdoc
        · exact (hrest.keeps doc).held (hheld doc hdoc)
        · exact hdone htrue doc hdoc
    · obtain ⟨hrest, hdone⟩ := ih h hok n (staged ++ [first])
      refine ⟨hrest, fun htrue doc hdoc => hdone htrue doc ?_⟩
      rwa [append_assoc, singleton_append]

end World

namespace IndexWorker

open List World Nat Option SortedMap

variable {k k' k'' : IndexWorker} {doc : AnalyzedDocument} {a f : ℕ}

/-! ### Numbers of answers -/

def handled (k : IndexWorker) : ℕ := k.nextAck - k.queue.length

/-- Commands have consecutive numbers, and only handled ones are answered or
wait. -/
structure Ok (k : IndexWorker) : Prop where
  inv : k.world.Inv
  flush : k.world.FlushOk
  length_le : k.queue.length ≤ k.nextAck
  queue : k.queue.map Command.ack = range' k.handled k.queue.length
  answered : ∀ a, k.answers.get? a ≠ none → a < k.handled
  waiters : ∀ waiter ∈ k.flushWaiters, waiter.2 < k.handled

/-- The document was sent with answer `a`, and a good answer means that it is in
the index. -/
structure Knows (k : IndexWorker) (doc : AnalyzedDocument) (a : ℕ) : Prop where
  lt : a < k.nextAck
  queued : k.handled ≤ a → ∃ docs, .addDocuments docs a ∈ k.queue ∧ doc ∈ docs
  held : k.answers.get? a = some true → doc.At k.world.Held
  not_waiter : ∀ waiter ∈ k.flushWaiters, waiter.2 ≠ a

/-- A flush was sent later with answer `f`, and good answers of both mean that the
document is on disk. -/
structure Covers (k : IndexWorker) (doc : AnalyzedDocument) (a f : ℕ) : Prop where
  lt : a < f
  lt_next : f < k.nextAck
  queued : k.handled ≤ f → .flush f ∈ k.queue
  waiting : ∀ n, (n, f) ∈ k.flushWaiters → k.answers.get? a = some true →
    doc.At (k.world.FlushedBelow n)
  done : k.answers.get? f = some true → k.answers.get? a = some true → doc.At k.world.OnDisk

structure Moves (k k' : IndexWorker) (doc : AnalyzedDocument) : Prop where
  knows : ∀ a, Knows k doc a → Knows k' doc a
  good : ∀ a, Knows k doc a → k.answers.get? a = some true → k'.answers.get? a = some true
  covers : ∀ a f, Knows k doc a → Covers k doc a f → Covers k' doc a f

namespace Moves

theorem refl (k : IndexWorker) (doc : AnalyzedDocument) : Moves k k doc :=
  ⟨fun _ => id, fun _ _ => id, fun _ _ _ => id⟩

theorem trans (h : Moves k k' doc) (h' : Moves k' k'' doc) : Moves k k'' doc where
  knows a hk := h'.knows a (h.knows a hk)
  good a hk hgood := h'.good a (h.knows a hk) (h.good a hk hgood)
  covers a f hk hc := h'.covers a f (h.knows a hk) (h.covers a f hk hc)

end Moves

variable {command : Command} {rest : List Command}

theorem Ok.head (h : k.Ok)
    (hqueue : k.queue = command :: rest) :
    command.ack = k.handled ∧ rest.map Command.ack = range' (k.handled + 1) rest.length ∧
      k.nextAck - rest.length = k.handled + 1 ∧ k.handled < k.nextAck := by
  have hacks := h.queue
  have hle := h.length_le
  rw [hqueue] at hacks
  rw [map_cons, length_cons, range'_succ, cons.injEq] at hacks
  rw [hqueue, length_cons] at hle
  have hhandled : k.handled = k.nextAck - (rest.length + 1) := by rw [handled, hqueue]; rfl
  exact ⟨hacks.1, hacks.2, by omega, by omega⟩

variable {head : Command}

theorem Ok.eq_head (h : k.Ok)
    (hqueue : k.queue = head :: rest) (hmem : command ∈ k.queue) (hack : command.ack = k.handled) :
    command = head := by
  rw [hqueue] at hmem
  rcases mem_cons.mp hmem with heq | hrest
  · exact heq
  · have hmap : command.ack ∈ rest.map Command.ack := mem_map_of_mem hrest
    rw [(h.head hqueue).2.1, mem_range'] at hmap
    obtain ⟨i, -, hi⟩ := hmap
    omega

theorem Ok.mem_rest (h : k.Ok)
    (hqueue : k.queue = head :: rest) (hmem : command ∈ k.queue) (hack : k.handled + 1 ≤ command.ack) :
    command ∈ rest := by
  rw [hqueue] at hmem
  rcases mem_cons.mp hmem with rfl | hrest
  · have hhead := (h.head hqueue).1
    omega
  · exact hrest

/-! ### The steps of the worker -/

theorem Ok.setWorld (h : k.Ok) {w : World} (hinv : w.Inv) (hflush : w.FlushOk) :
    { k with world := w }.Ok :=
  ⟨hinv, hflush, h.length_le, h.queue, h.answered, h.waiters⟩

theorem moves_setWorld {w : World} (hkeeps : Keeps k.world w doc) :
    Moves k { k with world := w } doc where
  knows _ hk := ⟨hk.lt, hk.queued, fun ha => hkeeps.held (hk.held ha), hk.not_waiter⟩
  good _ _ hgood := hgood
  covers _ _ _ hc := ⟨hc.lt, hc.lt_next, hc.queued, fun n hn ha => hkeeps.flushed n (hc.waiting n hn ha),
    fun hf ha => hkeeps.onDisk (hc.done hf ha)⟩

theorem Ok.act (h : k.Ok) (a : IndexAction) : (k.act a).Ok :=
  h.setWorld (inv_step h.inv a) (flushOk_step h.inv h.flush a)

theorem Ok.moves_act (h : k.Ok) {a : IndexAction} (hd : doc.At fun _ d => k.world.Spares d a) :
    Moves k (k.act a) doc :=
  moves_setWorld (keeps_step h.inv h.flush hd)

theorem Ok.answerHead (h : k.Ok)
    (hqueue : k.queue = command :: rest) {w : World} {ok : Bool} (hmoved : Moved k.world w)
    (hflush : ∀ f, command = .flush f → ok = false)
    (hadd : ∀ docs a, command = .addDocuments docs a → ok = true → ∀ doc ∈ docs, doc.At w.Held) :
    ({ k with queue := rest, world := w }.answer command.ack ok).Ok ∧
      ∀ doc, Moves k ({ k with queue := rest, world := w }.answer command.ack ok) doc := by
  obtain ⟨hack, hrest, hhandled, hlt⟩ := h.head hqueue
  have hget : ∀ a, (k.answers.insert command.ack ok).get? a
      = if a = k.handled then some ok else k.answers.get? a := by
    intro a
    rw [get?_insert, hack]
  refine ⟨⟨hmoved.inv, hmoved.flush, ?_, ?_, fun a ha => ?_, fun waiter hw => ?_⟩, fun doc => ?_⟩
  · show rest.length ≤ k.nextAck
    omega
  · show rest.map Command.ack = range' (k.nextAck - rest.length) rest.length
    rw [hhandled, hrest]
  · show a < k.nextAck - rest.length
    rw [hhandled]
    have ha' : (k.answers.insert command.ack ok).get? a ≠ none := ha
    rw [hget] at ha'
    split_ifs at ha' with heq
    · omega
    · exact lt_succ_of_lt (h.answered a ha')
  · show waiter.2 < k.nextAck - rest.length
    rw [hhandled]
    exact lt_succ_of_lt (h.waiters waiter hw)
  -- the answer of a document that is known is not that of a flush
  have hsame : ∀ a f, a < f → (k.handled ≤ f → .flush f ∈ k.queue) →
      (k.answers.insert command.ack ok).get? f = some true →
      k.answers.get? f = some true ∧ (k.answers.insert command.ack ok).get? a = k.answers.get? a := by
    intro a f haf hqueued hf
    rw [hget] at hf
    split_ifs at hf with heq
    · have hhead := h.eq_head hqueue (hqueued heq.ge) heq
      rw [hflush f hhead.symm] at hf
      cases hf
    · have hanswered := h.answered f (hf ▸ some_ne_none _)
      rw [hget, if_neg (by omega)]
      exact ⟨hf, rfl⟩
  refine ⟨fun a hk => ⟨hk.lt, fun ha => ?_, fun ha => ?_, hk.not_waiter⟩, fun a hk ha => ?_,
    fun a f hk hc => ⟨hc.lt, hc.lt_next, fun hf => ?_, fun n hn ha => ?_, fun hf ha => ?_⟩⟩
  · have ha' : k.handled + 1 ≤ a := hhandled ▸ ha
    obtain ⟨docs, hmem, hdoc⟩ := hk.queued (by omega)
    exact ⟨docs, h.mem_rest hqueue hmem ha', hdoc⟩
  · have ha' : (k.answers.insert command.ack ok).get? a = some true := ha
    rw [hget] at ha'
    split_ifs at ha' with heq
    · obtain ⟨docs, hmem, hdoc⟩ := hk.queued heq.ge
      exact hadd docs a (h.eq_head hqueue hmem heq).symm (some_inj.mp ha') doc hdoc
    · exact (hmoved.keeps doc).held (hk.held ha')
  · show (k.answers.insert command.ack ok).get? a = some true
    have hanswered := h.answered a (ha ▸ some_ne_none _)
    rw [hget, if_neg (by omega)]
    exact ha
  · have hf' : k.handled + 1 ≤ f := hhandled ▸ hf
    exact h.mem_rest hqueue (hc.queued (le_of_succ_le hf')) hf'
  · have ha' : (k.answers.insert command.ack ok).get? a = some true := ha
    have hwaits := h.waiters (n, f) hn
    have hlt' := hc.lt
    rw [hget, if_neg (by simp only at hwaits; omega)] at ha'
    exact (hmoved.keeps doc).flushed n (hc.waiting n hn ha')
  · obtain ⟨hf', hsame⟩ := hsame a f hc.lt hc.queued hf
    exact (hmoved.keeps doc).onDisk (hc.done hf' (hsame ▸ ha))

theorem get?_foldl_insert (answers : SortedMap ℕ Bool) (released : List (ℕ × ℕ)) (ok : Bool) (a : ℕ) :
    (released.foldl (fun answers waiter => answers.insert waiter.2 ok) answers).get? a
      = if ∃ waiter ∈ released, waiter.2 = a then some ok else answers.get? a := by
  induction released generalizing answers with
  | nil => simp
  | cons first rest ih =>
    rw [foldl_cons, ih, get?_insert]
    by_cases hrest : ∃ waiter ∈ rest, waiter.2 = a
    · rw [if_pos hrest, if_pos]
      obtain ⟨waiter, hw, heq⟩ := hrest
      exact ⟨waiter, mem_cons_of_mem _ hw, heq⟩
    · rw [if_neg hrest]
      by_cases hfirst : a = first.2
      · rw [if_pos hfirst, if_pos ⟨first, mem_cons_self, hfirst.symm⟩]
      · rw [if_neg hfirst, if_neg]
        rintro ⟨waiter, hw, heq⟩
        rcases mem_cons.mp hw with rfl | hw
        · exact hfirst heq.symm
        · exact hrest ⟨waiter, hw, heq⟩

theorem Ok.release (h : k.Ok) :
    k.releaseFlushWaiters.Ok ∧ ∀ doc, Moves k k.releaseFlushWaiters doc := by
  obtain ⟨released, hrel⟩ : ∃ released, released = k.flushWaiters.takeWhile
    (fun waiter : ℕ × ℕ => decide (waiter.1 ≤ k.flushedThrough)) := ⟨_, rfl⟩
  have hget : ∀ a, k.releaseFlushWaiters.answers.get? a
      = if ∃ waiter ∈ released, waiter.2 = a then some k.world.index.flushQueue.health.isOk
        else k.answers.get? a :=
    fun a => hrel ▸ get?_foldl_insert _ _ _ a
  have hsub : ∀ waiter ∈ k.releaseFlushWaiters.flushWaiters, waiter ∈ k.flushWaiters :=
    fun waiter hw => (dropWhile_sublist _).subset hw
  have hreleased : ∀ waiter ∈ released, waiter ∈ k.flushWaiters ∧ waiter.1 ≤ k.flushedThrough := by
    intro waiter hw
    rw [hrel] at hw
    exact ⟨(takeWhile_sublist _).subset hw, by simpa using mem_takeWhile_imp hw⟩
  have hknown : ∀ {doc a}, Knows k doc a →
      k.releaseFlushWaiters.answers.get? a = k.answers.get? a := by
    intro doc a hk
    rw [hget, if_neg]
    rintro ⟨waiter, hw, heq⟩
    exact hk.not_waiter waiter (hreleased waiter hw).1 heq
  refine ⟨⟨h.inv, h.flush, h.length_le, h.queue, fun a ha => ?_, fun waiter hw => ?_⟩, fun doc => ?_⟩
  · rw [hget] at ha
    split_ifs at ha with hone
    · obtain ⟨waiter, hw, rfl⟩ := hone
      exact h.waiters waiter (hreleased waiter hw).1
    · exact h.answered a ha
  · exact h.waiters waiter (hsub waiter hw)
  refine ⟨fun a hk => ⟨hk.lt, hk.queued, fun ha => hk.held (hknown hk ▸ ha),
      fun waiter hw => hk.not_waiter waiter (hsub waiter hw)⟩, fun a hk ha => (hknown hk).trans ha,
    fun a f hk hc => ⟨hc.lt, hc.lt_next, hc.queued,
      fun n hn ha => hc.waiting n (hsub _ hn) (hknown hk ▸ ha), fun hf ha => ?_⟩⟩
  rw [hknown hk] at ha
  rw [hget] at hf
  split_ifs at hf with hone
  · obtain ⟨⟨n, f⟩, hw, rfl⟩ := hone
    obtain ⟨hwaits, hn⟩ := hreleased _ hw
    have hhealthy : k.world.index.flushQueue.failure = none := by
      have hok : k.world.index.flushQueue.health.isOk = true := some_inj.mp hf
      unfold FlushQueue.health at hok
      cases hfail : k.world.index.flushQueue.failure with
      | none => rfl
      | some e => rw [hfail] at hok; cases hok
    exact fun x d hx => onDisk_of_flushedBelow h.flush (hc.waiting n hwaits ha x d hx) hhealthy hn
  · exact hc.done hf ha

theorem Ok.park (h : k.Ok) {ack : ℕ} (hqueue : k.queue = .flush ack :: rest)
    {busy : ℕ → Bool} {syncOk : Bool} (hflush : (k.world.index.queueFlush busy syncOk).1 = .ok ()) :
    let submitted := ({ k with queue := rest }.act (.queueFlush busy syncOk)).act .takeFlushJobs
    let parked := { submitted with flushWaiters := submitted.flushWaiters ++
      [(submitted.world.index.flushQueue.nextSeq, ack)] }
    parked.Ok ∧ ∀ doc, Moves k parked doc := by
  intro submitted parked
  obtain ⟨hack, hrest, hhandled, hlt⟩ := h.head hqueue
  have hqueued : Moved k.world (k.world.step (.queueFlush busy syncOk)) :=
    moved_step h.inv h.flush fun _ => id
  have htaken : Moved (k.world.step (.queueFlush busy syncOk)) parked.world :=
    moved_step (a := .takeFlushJobs) hqueued.inv hqueued.flush fun _ => id
  have hmoved := hqueued.trans htaken
  have hwaiters : ∀ waiter ∈ parked.flushWaiters, waiter ∈ k.flushWaiters ∨
      waiter = (parked.world.index.flushQueue.nextSeq, ack) := by
    intro waiter hw
    exact (mem_append.mp hw).imp id mem_singleton.mp
  have hack : ack = k.handled := hack
  refine ⟨⟨hmoved.inv, hmoved.flush, ?_, ?_, fun a ha => ?_, fun waiter hw => ?_⟩, fun doc => ?_⟩
  · show rest.length ≤ k.nextAck
    omega
  · show rest.map Command.ack = range' (k.nextAck - rest.length) rest.length
    rw [hhandled, hrest]
  · show a < k.nextAck - rest.length
    rw [hhandled]
    exact lt_succ_of_lt (h.answered a ha)
  · show waiter.2 < k.nextAck - rest.length
    rw [hhandled]
    rcases hwaiters waiter hw with hold | rfl
    · exact lt_succ_of_lt (h.waiters waiter hold)
    · exact hack ▸ lt_succ_self _
  refine ⟨fun a hk => ⟨hk.lt, fun ha => ?_, fun ha => (hmoved.keeps doc).held (hk.held ha),
      fun waiter hw => ?_⟩, fun a hk ha => ha,
    fun a f hk hc => ⟨hc.lt, hc.lt_next, fun hf => ?_, fun n hn ha => ?_, fun hf ha =>
      (hmoved.keeps doc).onDisk (hc.done hf ha)⟩⟩
  · have ha' : k.handled + 1 ≤ a := hhandled ▸ ha
    obtain ⟨docs, hmem, hdoc⟩ := hk.queued (by omega)
    exact ⟨docs, h.mem_rest hqueue hmem ha', hdoc⟩
  · rcases hwaiters waiter hw with hold | rfl
    · exact hk.not_waiter waiter hold
    · -- the head is a flush, the command of the document an addition
      rintro rfl
      obtain ⟨docs, hmem, -⟩ := hk.queued hack.ge
      cases h.eq_head hqueue hmem hack
  · have hf' : k.handled + 1 ≤ f := hhandled ▸ hf
    exact h.mem_rest hqueue (hc.queued (le_of_succ_le hf')) hf'
  · rcases hwaiters (n, f) hn with hold | heq
    · exact (hmoved.keeps doc).flushed n (hc.waiting n hold ha)
    · obtain ⟨rfl, rfl⟩ := Prod.mk.inj heq
      refine (htaken.keeps doc).flushed _ fun x d hx => ?_
      exact flushedBelow_queueFlush h.inv h.flush hflush (hk.held ha x d hx)

theorem Ok.handle (h : k.Ok) (outcome : Outcome) :
    (k.handle outcome).Ok ∧ ∀ doc, Moves k (k.handle outcome) doc := by
  unfold IndexWorker.handle
  cases hqueue : k.queue with
  | nil => exact ⟨h, Moves.refl k⟩
  | cons command rest =>
    cases command with
    | addDocuments docs ack =>
      simp only
      split_ifs with hlost
      · refine h.answerHead hqueue (Moved.refl h.inv h.flush) (fun f hf => ?_)
          fun _ _ _ hfalse => absurd hfalse Bool.false_ne_true
        cases hf
      · obtain ⟨hmoved, hheld⟩ := stageAndMerge_spec k.flushThreshold outcome.busy
          outcome.syncOk docs h.inv h.flush 0 []
        refine h.answerHead hqueue hmoved (fun f hf => ?_) fun docs' a heq htrue => ?_
        · cases hf
        · cases heq
          exact hheld htrue
    | deleteDocument docId ack =>
      refine h.answerHead hqueue (moved_step h.inv h.flush fun _ => id) (fun f hf => ?_)
        fun _ _ heq => ?_
      · cases hf
      · cases heq
    | flush ack =>
      simp only
      split_ifs with hflush
      · have hok : (k.world.index.queueFlush outcome.busy (outcome.syncOk 0)).1 = .ok () := by
          cases hq : (k.world.index.queueFlush outcome.busy (outcome.syncOk 0)).1 with
          | error e => rw [hq] at hflush; cases hflush
          | ok u => rfl
        obtain ⟨hparked, hmoves⟩ := h.park hqueue hok
        obtain ⟨hreleased, hmoves'⟩ := hparked.release
        exact ⟨hreleased, fun doc => (hmoves doc).trans (hmoves' doc)⟩
      · exact h.answerHead hqueue (moved_step h.inv h.flush fun _ => id) (fun _ _ => rfl)
          fun _ _ heq => by cases heq

def Spares (k : IndexWorker) (doc : AnalyzedDocument) : WorkerStep → Prop
  | .installCompaction jobId openOk manifestOk clearOk =>
    doc.At fun _ d => k.world.Spares d (.installCompaction jobId openOk manifestOk clearOk)
  | _ => True

theorem Ok.work (h : k.Ok) (step : WorkerStep) :
    (k.work step).Ok ∧ ∀ doc, k.Spares doc step → Moves k (k.work step) doc := by
  have hact : ∀ {a : IndexAction}, (∀ job, ¬ IndexAction.Installs job a) → ∀ doc, Moves k (k.act a) doc :=
    fun ha doc => h.moves_act fun _ _ _ job _ hinstalls => absurd hinstalls (ha job)
  cases step with
  | handle outcome => exact ⟨(h.handle outcome).1, fun doc _ => (h.handle outcome).2 doc⟩
  | segmentWritten seq writeOk appendOk =>
    obtain ⟨hreleased, hmoves⟩ := (h.act (.completeFlush seq writeOk appendOk)).release
    exact ⟨hreleased, fun doc _ => (hact (fun _ => id) doc).trans (hmoves doc)⟩
  | publishSnapshot busy => exact ⟨h.act _, fun doc _ => hact (fun _ => id) doc⟩
  | takeFlushJobs => exact ⟨h.act _, fun doc _ => hact (fun _ => id) doc⟩
  | planCompaction config quiet fileSize => exact ⟨h.act _, fun doc _ => hact (fun _ => id) doc⟩
  | runCompaction jobId ok => exact ⟨h.act _, fun doc _ => hact (fun _ => id) doc⟩
  | installCompaction jobId openOk manifestOk clearOk =>
    exact ⟨h.act _, fun doc hd => h.moves_act hd⟩

theorem Ok.foldl_handle (h : k.Ok) (outcome : ℕ → Outcome) (commands : List Command) :
    (commands.foldl (fun k command => k.handle (outcome command.ack)) k).Ok ∧
      ∀ doc, Moves k (commands.foldl (fun k command => k.handle (outcome command.ack)) k) doc := by
  induction commands generalizing k with
  | nil => exact ⟨h, Moves.refl k⟩
  | cons command rest ih =>
    obtain ⟨hok, hmoves⟩ := h.handle (outcome command.ack)
    obtain ⟨hok', hmoves'⟩ := ih hok
    exact ⟨hok', fun doc => (hmoves doc).trans (hmoves' doc)⟩

theorem Ok.drain (h : k.Ok) (outcome : ℕ → Outcome) :
    (k.drain outcome).Ok ∧ ∀ doc, Moves k (k.drain outcome) doc :=
  h.foldl_handle outcome k.queue

theorem handled_le (k : IndexWorker) : k.handled ≤ k.nextAck := sub_le _ _

theorem Ok.send (h : k.Ok) {command : ℕ → Command} (hack : ∀ n, (command n).ack = n) :
    (k.send command).Ok ∧ ∀ doc, Moves k (k.send command) doc := by
  have hle := h.length_le
  have hhandled : (k.send command).handled = k.handled := by
    simp only [handled, IndexWorker.send, length_append, length_cons, length_nil]
    omega
  refine ⟨⟨h.inv, h.flush, ?_, ?_, fun a ha => ?_, fun waiter hw => ?_⟩, fun doc => ?_⟩
  · simpa [IndexWorker.send] using hle
  · rw [hhandled]
    simp only [IndexWorker.send, map_append, h.queue, map_cons, map_nil, hack,
      length_append, length_cons, length_nil, Nat.zero_add]
    rw [range'_concat, Nat.one_mul, handled, Nat.sub_add_cancel hle]
  · rw [hhandled]
    exact h.answered a ha
  · rw [hhandled]
    exact h.waiters waiter hw
  · refine ⟨fun a hk => ⟨lt_succ_of_lt hk.lt, fun ha => ?_, hk.held, hk.not_waiter⟩,
      fun a _ ha => ha, fun a f _ hc =>
        ⟨hc.lt, lt_succ_of_lt hc.lt_next, fun hf => ?_, hc.waiting, hc.done⟩⟩
    · obtain ⟨docs, hmem, hdoc⟩ := hk.queued (hhandled ▸ ha)
      exact ⟨docs, mem_append_left _ hmem, hdoc⟩
    · exact mem_append_left _ (hc.queued (hhandled ▸ hf))

theorem Ok.unanswered (h : k.Ok) : k.answers.get? k.nextAck = none := by
  by_contra ha
  exact absurd (h.answered _ ha) (not_lt.mpr k.handled_le)

theorem Ok.knows_send (h : k.Ok) {docs : List AnalyzedDocument} (hdoc : doc ∈ docs) :
    Knows (k.send (.addDocuments docs)) doc k.nextAck where
  lt := lt_succ_self _
  queued _ := ⟨docs, mem_append_right _ (mem_singleton.mpr rfl), hdoc⟩
  held ha := by
    have ha' : k.answers.get? k.nextAck = some true := ha
    rw [h.unanswered] at ha'
    cases ha'
  not_waiter waiter hw := Nat.ne_of_lt (lt_of_lt_of_le (h.waiters waiter hw) k.handled_le)

theorem Ok.covers_send (h : k.Ok) (hk : Knows k doc a) :
    Covers (k.send .flush) doc a k.nextAck where
  lt := hk.lt
  lt_next := lt_succ_self _
  queued _ := mem_append_right _ (mem_singleton.mpr rfl)
  waiting n hn _ := absurd (h.waiters _ hn) (Nat.not_lt.mpr k.handled_le)
  done hf _ := by
    have hf' : k.answers.get? k.nextAck = some true := hf
    rw [h.unanswered] at hf'
    cases hf'

theorem Ok.sendWait (h : k.Ok) {command : ℕ → Command} (hack : ∀ n, (command n).ack = n)
    (outcome : ℕ → Outcome) : (k.sendWait command outcome).2.Ok ∧
      ∀ doc, Moves (k.send command) (k.sendWait command outcome).2 doc :=
  (h.send hack).1.drain outcome

theorem ok_start {manifest : List (ℕ × Segment)} (hnodup : (manifest.map Prod.fst).Nodup)
    (tombstones : DeleteSet) (flushThreshold : ℕ) : (start manifest tombstones flushThreshold).Ok where
  inv := (Fresh.opened manifest tombstones hnodup).inv
  flush := flushOk_start manifest tombstones
  length_le := le_rfl
  queue := rfl
  answered _ ha := absurd rfl ha
  waiters _ hw := absurd hw not_mem_nil

end IndexWorker

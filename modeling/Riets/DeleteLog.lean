/-
The delete log over any number of crashes.

`append_delete` adds a line to `deletes.txt`, `read_deletes` reads the lines that are whole
and cuts the file back to them.  A process that stops in the middle of an append leaves a
part of a line, which may itself spell a smaller number; the next process reads the log
before it appends to it.
-/
import Riets.IndexCrash

open Text

/-- `deletes.txt`, and whether the process that wrote to it has stopped. -/
structure DeleteLog where
  bytes : ByteSeq
  stopped : Bool
  deriving DecidableEq

namespace DeleteLog

open List DirWorld

inductive Step where
  | append (docId : DocId)
  | crash (docId : DocId) (written : ℕ)
  /-- `read_deletes`, by the next process too -/
  | read
  deriving DecidableEq, Repr

def empty : DeleteLog := ⟨[], false⟩

def appendDelete (log : DeleteLog) (docId : DocId) : DeleteLog :=
  { log with bytes := log.bytes ++ line (decimal docId) }

/-- `read_deletes`: the file is cut back to its whole lines before they are parsed. -/
def read (log : DeleteLog) : Option DeleteSet × DeleteLog :=
  (readDeletes log.bytes, ⟨completeLines log.bytes, false⟩)

def step (log : DeleteLog) : Step → Option DeleteLog
  | .append docId => if log.stopped then none else some (log.appendDelete docId)
  | .crash docId written =>
    if log.stopped then none
    else some ⟨log.bytes ++ (line (decimal docId)).take written, true⟩
  | .read => some log.read.2

def run (log : DeleteLog) (steps : List Step) : Option DeleteLog := steps.foldlM step log

def Step.whole : Step → List DocId
  | append docId => [docId]
  | crash docId written => if (line (decimal docId)).length ≤ written then [docId] else []
  | read => []

def Step.InRange : Step → Prop
  | append docId | crash docId _ => docId < 2 ^ 64
  | read => True

instance (st : Step) : Decidable st.InRange := by
  cases st <;> unfold Step.InRange <;> infer_instance

/-- The whole lines of the log are those of `ids`; a part of a line is behind them only when a
process has stopped. -/
structure Holds (log : DeleteLog) (ids : List DocId) (tail : ByteSeq) : Prop where
  text : log.bytes = deletesText ids ++ tail
  torn : newline ∉ tail
  running : log.stopped = false → tail = []
  ids_lt : ∀ d ∈ ids, d < 2 ^ 64

variable {log log' : DeleteLog} {ids : List DocId} {tail : ByteSeq}

theorem deletesText_append (ids ids' : List DocId) :
    deletesText (ids ++ ids') = deletesText ids ++ deletesText ids' :=
  flatMap_append

theorem Holds.whole_eq (h : log.Holds ids tail) :
    completeLines log.bytes = deletesText ids := by
  have htext : deletesText ids = (ids.map decimal).flatMap line := by
    rw [deletesText, flatMap_map]
  rw [h.text, htext, completeLines_append h.torn]

theorem Holds.read_eq (h : log.Holds ids tail) : readDeletes log.bytes = some ids.toFinset := by
  rw [h.text]
  exact readDeletes_append h.ids_lt h.torn

theorem holds_step (h : log.Holds ids tail) {st : Step} (hst : st.InRange)
    (hstep : log.step st = some log') : ∃ tail', log'.Holds (ids ++ st.whole) tail' := by
  have hids : ∀ d, d < 2 ^ 64 → ∀ e ∈ ids ++ [d], e < 2 ^ 64 := by
    intro d hd e he
    rcases mem_append.mp he with he | he
    · exact h.ids_lt e he
    · exact mem_singleton.mp he ▸ hd
  have hline : ∀ d, deletesText [d] = line (decimal d) := fun d => flatMap_singleton _ _
  cases st with
  | append docId =>
    rw [step] at hstep
    split_ifs at hstep with hstopped
    cases hstep
    have htail : tail = [] := h.running (by simpa using hstopped)
    refine ⟨[], ?_, not_mem_nil, fun _ => rfl, hids docId hst⟩
    rw [appendDelete, h.text, htail, append_nil, append_nil, Step.whole, deletesText_append, hline]
  | crash docId written =>
    rw [step] at hstep
    split_ifs at hstep with hstopped
    cases hstep
    have htail : tail = [] := h.running (by simpa using hstopped)
    rcases Nat.lt_or_ge written (line (decimal docId)).length with hcut | hcut
    · -- the newline is not there: digits that are cut off by the next read
      have htake : (line (decimal docId)).take written = (decimal docId).take written := by
        rw [line, length_append, length_singleton] at hcut
        rw [line, take_append_of_le_length (by omega)]
      rw [Step.whole, if_neg (by omega), append_nil]
      refine ⟨(decimal docId).take written, ?_, fun hin => ?_, fun hrun => (by cases hrun), h.ids_lt⟩
      · show log.bytes ++ _ = _
        rw [h.text, htail, append_nil, htake]
      · exact (isLine_decimal docId).newline (mem_of_mem_take hin)
    · rw [Step.whole, if_pos hcut]
      refine ⟨[], ?_, not_mem_nil, fun _ => rfl, hids docId hst⟩
      show log.bytes ++ _ = _
      rw [h.text, htail, append_nil, append_nil, take_of_length_le hcut, deletesText_append, hline]
  | read =>
    cases hstep
    rw [Step.whole, append_nil]
    refine ⟨[], ?_, not_mem_nil, fun _ => rfl, h.ids_lt⟩
    rw [append_nil]
    exact h.whole_eq

theorem holds_run (h : log.Holds ids tail) {steps : List Step} (hsteps : ∀ st ∈ steps, st.InRange)
    (hrun : log.run steps = some log') : ∃ tail', log'.Holds (ids ++ steps.flatMap Step.whole) tail' := by
  induction steps generalizing log ids tail with
  | nil =>
    cases hrun
    exact ⟨tail, by rwa [flatMap_nil, append_nil]⟩
  | cons st steps ih =>
    rw [run, foldlM_cons] at hrun
    obtain ⟨mid, hmid, hrest⟩ := Option.bind_eq_some_iff.mp hrun
    obtain ⟨tail', hholds⟩ := holds_step h (hsteps st mem_cons_self) hmid
    obtain ⟨tail'', hlast⟩ := ih hholds (fun s hs => hsteps s (mem_cons_of_mem st hs)) hrest
    exact ⟨tail'', by rwa [flatMap_cons, ← append_assoc]⟩

/-- After any run of appends, crashes and reads, a read returns the ids whose lines were written
to the end and cuts the file back to those lines. -/
theorem read_run {steps : List Step} (hsteps : ∀ st ∈ steps, st.InRange)
    (hrun : empty.run steps = some log) :
    log.read = (some (steps.flatMap Step.whole).toFinset,
      ⟨(steps.flatMap Step.whole).flatMap fun d => line (decimal d), false⟩) := by
  have hempty : empty.Holds [] [] := ⟨rfl, not_mem_nil, fun _ => rfl, fun _ hd => by cases hd⟩
  obtain ⟨tail, h⟩ := holds_run hempty hsteps hrun
  rw [nil_append] at h
  rw [read, h.read_eq, h.whole_eq]
  rfl

/-- The process stops within the line of `12`, which leaves a line that spells `1`. -/
theorem read_torn : ∃ log, empty.run [.append 7, .crash 12 1, .read, .append 30] = some log ∧
    log.read.1 = some {7, 30} := by
  obtain ⟨log, hrun⟩ : ∃ log, empty.run [.append 7, .crash 12 1, .read, .append 30] = some log :=
    ⟨_, rfl⟩
  refine ⟨log, hrun, ?_⟩
  rw [read_run (by decide) hrun]
  decide

end DeleteLog

/-
A full scan after appends that failed.

An append that fails can leave a piece of its record at the end of the segment.  A scan cuts off
a piece at the end, but the next append writes behind it, and then the scan takes the piece and
what follows for one record.
-/
import Riets.FailedWriteRun

open StoreDir BinaryDocumentStore List

/-! ### Calls -/

inductive StoreCall where
  | put (doc : FittingDocument)
  | putBatch (docs : List FittingDocument)
  | delete (externalId : String)
  | failed (c : FailedCall)

namespace BinaryDocumentStore

def call (s : BinaryDocumentStore) : StoreCall → IoResult BinaryDocumentStore
  | .put doc => s.put doc.1
  | .putBatch docs => s.putBatch (docs.map Subtype.val)
  | .delete x => s.delete x
  | .failed c => .ok ((c.after s).getD s)

def calls (s : BinaryDocumentStore) (cs : List StoreCall) : IoResult BinaryDocumentStore :=
  cs.foldlM call s

end BinaryDocumentStore

/-- The documents by external id that the calls which succeeded have left. -/
abbrev Contents := SortedMap String StoredDocument

namespace Contents

def call (m : Contents) : StoreCall → Contents
  | .put doc => m.insert doc.1.externalId doc.1
  | .putBatch docs => docs.foldl (fun m doc => m.insert doc.1.externalId doc.1) m
  | .delete x => m.erase x
  | .failed _ => m

end Contents

namespace FailedCall

def failure : FailedCall → WriteFailure
  | put _ f => f
  | putBatch _ f => f
  | delete _ f => f

def firstLength : FailedCall → ℕ
  | put doc _ => (StoreRecord.put doc.1).encode.length
  | putBatch docs _ => (docs.head?.map fun doc => (StoreRecord.put doc.1).encode.length).getD 0
  | delete x _ => (StoreRecord.delete x 0).encode.length

def Traceless (c : FailedCall) : Prop :=
  c.recorded = [] ∧ (c.failure = .opening ∨ ∃ k, c.failure = .writing k 0)

/-- The call has written a part of its first record and recorded nothing. -/
def Torn (c : FailedCall) : Prop :=
  c.recorded = [] ∧ ∃ k written, c.failure = .writing k written ∧ written < c.firstLength

end FailedCall

def StoreCall.Silent (m : Contents) : StoreCall → Prop
  | .delete x => m.get? x = none
  | .failed c => c.Traceless
  | _ => False

/-- A failing call leaves nothing behind, or a piece of its first record and no later call writes. -/
def Recoverable (m : Contents) : List StoreCall → Prop
  | [] => True
  | .failed c :: cs => c.Traceless ∧ Recoverable m cs ∨ c.Torn ∧ ∀ call ∈ cs, call.Silent m
  | call :: cs => Recoverable (m.call call) cs

/-- The maps of a load hold these documents, and each is read at its place. -/
def StoreDir.Loading.Holds (l : Loading) (m : Contents) : Prop :=
  ∀ x, match m.get? x with
    | none => l.locations.get? x = none
    | some doc => ∃ loc, l.locations.get? x = some loc ∧ loc.internalId = doc.internalId ∧
        (⟨l.segments, none⟩ : StoreDir).readDocumentAtPath loc.segment loc.offset = .ok doc

section Traceless

variable {s : BinaryDocumentStore} {bytes : ByteSeq}

section

variable (hget : s.dir.segments.get? s.currentSegment = some bytes)
include hget

theorem appendBytes_nil :
    s.appendBytes [] = s := by
  have hsame : s.dir.segments.upsert s.currentSegment (fun old => old.getD [] ++ []) = s.dir.segments := by
    refine SortedMap.ext_get? fun id => ?_
    rw [SortedMap.get?_upsert]
    split_ifs with heq
    · rw [heq, hget, Option.getD_some, append_nil]
    · rfl
  rw [appendBytes, hsame]
  rfl

theorem failedAppend_traceless
    {f : WriteFailure} (hf : f = .opening ∨ ∃ k, f = .writing k 0) (record : ByteSeq) :
    s.failedAppend record f = some s := by
  rcases hf with rfl | ⟨k, rfl⟩
  · rfl
  · rw [failedAppend, take_zero, appendBytes_nil hget]

theorem after_traceless {c : FailedCall}
    (hc : c.Traceless) : (c.after s).getD s = s := by
  obtain ⟨hrec, hf⟩ := hc
  cases c with
  | put doc f =>
    show (s.failedAppend _ f).getD s = s
    rw [failedAppend_traceless (f := f) hget hf]
    rfl
  | putBatch docs f =>
    rw [FailedCall.after_putBatch hrec, failedAppend_traceless (f := f) hget hf]
    rfl
  | delete x f =>
    rw [FailedCall.after, failedDelete]
    cases s.locations.get? x with
    | none => rfl
    | some loc =>
      rw [Option.bind_some, failedAppend_traceless (f := f) hget hf]
      rfl

theorem call_silent {m : Contents}
    (habsent : ∀ x, m.get? x = none → s.locations.get? x = none) {call : StoreCall}
    (hcall : call.Silent m) : s.call call = .ok s ∧ m.call call = m := by
  cases call with
  | put doc => exact absurd hcall not_false
  | putBatch docs => exact absurd hcall not_false
  | delete x =>
    have hx : m.get? x = none := hcall
    refine ⟨?_, ?_⟩
    · rw [call, delete, habsent x hx]
    · refine SortedMap.ext_get? fun y => ?_
      rw [Contents.call, SortedMap.get?_erase]
      split_ifs with heq
      · rw [heq, hx]
      · rfl
  | failed c => exact ⟨congrArg Except.ok (after_traceless hget hcall), rfl⟩

theorem calls_silent {m : Contents}
    (habsent : ∀ x, m.get? x = none → s.locations.get? x = none) {cs : List StoreCall}
    (hcs : ∀ call ∈ cs, call.Silent m) : s.calls cs = .ok s ∧ cs.foldl Contents.call m = m := by
  induction cs with
  | nil => exact ⟨rfl, rfl⟩
  | cons call cs ih =>
    obtain ⟨hfirst, hrest⟩ := forall_mem_cons.mp hcs
    obtain ⟨hcall, hsame⟩ := call_silent hget habsent hfirst
    obtain ⟨hcalls, hsame'⟩ := ih hrest
    rw [calls, foldlM_cons, hcall, foldl_cons, hsame]
    exact ⟨hcalls, hsame'⟩

end

end Traceless

/-! ### The invariant of the calls -/

/-- The files hold the records of the calls that succeeded, and the maps are what a scan gives. -/
structure StoreWritten (s : BinaryDocumentStore) (logs : Logs) (m : Contents) : Prop where
  ok : s.Ok logs
  scanned : MapsOk ⟨[], [], 0⟩ s logs .empty .empty
  absent : ∀ x, m.get? x = none → s.locations.get? x = none
  present : ∀ x doc, m.get? x = some doc →
    doc.externalId = x ∧ ∃ loc, s.locations.get? x = some loc ∧ At logs loc doc

namespace StoreWritten

open SortedMap Logs

variable {s : BinaryDocumentStore} {logs : Logs} {m : Contents} {l : SegmentLog}

section

variable (h : StoreWritten s logs m)
include h

theorem putOne (hl : logs.get? s.currentSegment = some l) {doc : StoredDocument}
    (hdoc : doc.Fits) :
    StoreWritten (s.putOne doc) (logs.push s.currentSegment l (.put doc)) (m.insert doc.externalId doc) where
  ok := h.ok.putOne hl hdoc
  scanned := h.scanned.putOne h.ok hl doc
  absent x hx := by
    rw [get?_insert] at hx
    split_ifs at hx with heq
    refine (get?_insert _ _ _ _).trans ?_
    rw [if_neg heq]
    exact h.absent x hx
  present x doc' hx := by
    rw [get?_insert] at hx
    split_ifs at hx with heq
    · cases hx
      refine ⟨heq.symm, _, (get?_insert _ _ _ _).trans (if_pos heq), ?_⟩
      rw [h.ok.get?_segments, hl]
      exact at_push doc
    · obtain ⟨hext, loc, hloc, hat⟩ := h.present x doc' hx
      exact ⟨hext, loc, (get?_insert _ _ _ _).trans ((if_neg heq).trans hloc),
        hat.grows (push_grows hl _)⟩

theorem removeOne (hl : logs.get? s.currentSegment = some l) {x : String}
    {loc : DocLocation} (hx : s.locations.get? x = some loc) :
    StoreWritten (s.removeOne x loc.internalId)
      (logs.push s.currentSegment l (.delete x loc.internalId)) (m.erase x) where
  ok := h.ok.removeOne hl hx
  scanned := h.scanned.removeOne hl hx
  absent y hy := by
    rw [get?_erase] at hy
    refine (get?_erase _ _ _).trans ?_
    split_ifs at hy ⊢ with heq
    · rfl
    · exact h.absent y hy
  present y doc hy := by
    rw [get?_erase] at hy
    split_ifs at hy with heq
    obtain ⟨hext, loc', hloc, hat⟩ := h.present y doc hy
    exact ⟨hext, loc', (get?_erase _ _ _).trans ((if_neg heq).trans hloc),
      hat.grows (push_grows hl _)⟩

theorem raise (id : DocId) : StoreWritten (s.raise id) logs m :=
  ⟨h.ok.raise id, h.scanned.congr rfl rfl, h.absent, h.present⟩

theorem rotated :
    StoreWritten s.rotated (logs.insert s.nextSegmentId ⟨false, []⟩) m where
  ok := h.ok.rotated
  scanned := h.scanned.rotated h.ok
  absent := h.absent
  present x doc hx := by
    obtain ⟨hext, loc, hloc, hat⟩ := h.present x doc hx
    exact ⟨hext, loc, hloc, hat.grows (insert_grows h.ok.next_free _)⟩

theorem get?_current : ∃ l, logs.get? s.currentSegment = some l ∧
    l.compacted = false ∧ s.dir.segments.get? s.currentSegment = some l.bytes := by
  obtain ⟨l, hl, hcomp⟩ := h.ok.current
  exact ⟨l, hl, hcomp, by rw [h.ok.get?_segments, hl]; rfl⟩

theorem foldl_putOne (docs : List FittingDocument) :
    ∃ logs', StoreWritten ((docs.map Subtype.val).foldl BinaryDocumentStore.putOne s) logs'
      (docs.foldl (fun m doc => m.insert doc.1.externalId doc.1) m) := by
  induction docs generalizing s logs m with
  | nil => exact ⟨logs, h⟩
  | cons doc docs ih =>
    obtain ⟨l, hl, -⟩ := h.get?_current
    exact ih (h.putOne hl doc.2)

theorem maybeRotateSegment :
    ∃ s' logs', s.maybeRotateSegment = .ok s' ∧ StoreWritten s' logs' m := by
  obtain ⟨l, hl, -, hget⟩ := h.get?_current
  rw [maybeRotateSegment_ok hget]
  split_ifs
  · exact ⟨_, _, rfl, h⟩
  · exact ⟨_, _, rfl, h.rotated⟩

end

end StoreWritten

theorem pending_empty (logs : Logs) : pending .empty logs = allPlaced logs := by
  have hkeys : (SortedMap.empty : Logs).keys = [] := rfl
  rw [pending, allPlaced, hkeys, flatMap_nil, nil_append]
  congr 1
  exact filter_eq_self.mpr fun id _ => decide_eq_true not_mem_nil

namespace StoreWritten

open List SortedMap StoreRecord SegmentLog FailedCall

variable {s : BinaryDocumentStore} {logs : Logs} {m : Contents}

theorem replay_locations (h : StoreWritten s logs m) (segments : SortedMap ℕ ByteSeq) :
    (Loading.replay ⟨segments, .empty, 0⟩ (allPlaced logs)).locations = s.locations := by
  rw [← pending_empty]
  exact h.scanned.replays segments 0

theorem holds (h : StoreWritten s logs m) {l : Loading} (hloc : l.locations = s.locations)
    (hseg : l.segments = s.dir.segments) : l.Holds m := by
  intro x
  cases hx : m.get? x with
  | none =>
    show l.locations.get? x = none
    rw [hloc]
    exact h.absent x hx
  | some doc =>
    obtain ⟨-, loc, hl, hat⟩ := h.present x doc hx
    exact ⟨loc, hloc ▸ hl, hat.internalId, hat.read h.ok.fit (hseg.trans h.ok.segments)⟩

theorem load_whole (h : StoreWritten s logs m) : ∃ l, load s.dir = .ok l ∧ l.Holds m :=
  ⟨_, load_ok h.ok.segments h.ok.fit, h.holds (h.replay_locations _) (Loading.replay_segments _ _)⟩

theorem keys_eq (h : StoreWritten s logs m) : ∃ init, logs.keys = init ++ [s.currentSegment] := by
  obtain ⟨l, hl, -⟩ := h.ok.current
  obtain ⟨init, above, hsplit⟩ := append_of_mem (mem_keys.mpr ⟨l, hl⟩)
  have hasc := logs.keys_ascending
  rw [hsplit] at hasc
  cases above with
  | nil => exact ⟨init, hsplit⟩
  | cons id above =>
    have hlt := (pairwise_cons.mp (pairwise_append.mp hasc).2.1).1 id mem_cons_self
    obtain ⟨l', hl'⟩ := mem_keys.mp (hsplit ▸ (by simp : id ∈ init ++ s.currentSegment :: id :: above))
    have hle := (h.scanned.newer id l' hl' not_mem_nil).2.1
    omega

theorem scanSegment_piece {l : Loading} {id : ℕ} {lg : SegmentLog} (hcomp : lg.compacted = false)
    (hfit : ∀ r ∈ lg.records, r.Fits) {r : StoreRecord} (hr : r.Fits) {piece : ByteSeq}
    (hpre : piece <+: r.encode) (hne : piece ≠ r.encode) (hnil : piece ≠ [])
    (hget : l.segments.get? id = some (lg.bytes ++ piece)) :
    ∃ l', scanSegment l id none = .ok l' ∧
      l'.locations = (l.replay (placedIn id 8 lg.records)).locations ∧
      l'.segments = l.segments.insert id lg.bytes := by
  have hlen : lg.bytes.length = 8 + (encodeAll lg.records).length := lg.length_bytes
  have htake : (lg.bytes ++ piece).take 8 = magic := by
    rw [take_append_of_le_length (by omega), lg.take_bytes]
    exact header_eq_magic.mpr hcomp
  have hdrop : (lg.bytes ++ piece).drop 8 = encodeAll lg.records ++ piece := by
    rw [drop_append_of_le_length (by omega)]
    exact congrArg (· ++ piece) (@drop_bytes lg [] _ rfl)
  have hscan := scan_torn hfit hr hpre hne hnil 8
  have hshort : ¬(lg.bytes ++ piece).length < 8 := by
    rw [length_append]
    omega
  have hstart : scanStart (lg.bytes ++ piece) none = .ok 8 := by
    rw [scanStart, if_pos (.inl htake)]
  have heq : scanSegment l id none = .ok { l.replay (placedIn id 8 lg.records) with
      segments := (l.replay (placedIn id 8 lg.records)).segments.insert id lg.bytes } := by
    rw [scanSegment, hget]
    simp only
    rw [if_neg hshort, hstart]
    simp only [bind, Except.bind, hdrop, hscan]
    rw [if_pos htake, Loading.foldl_apply, ← hlen, take_left' rfl]
  exact ⟨_, heq, rfl, by rw [Loading.replay_segments]⟩

theorem load_piece (h : StoreWritten s logs m) {r : StoreRecord} (hr : r.Fits) {piece : ByteSeq}
    (hpre : piece <+: r.encode) (hne : piece ≠ r.encode) :
    ∃ l, load (s.appendBytes piece).dir = .ok l ∧ l.Holds m := by
  obtain ⟨lg, hl, hcomp, hget⟩ := h.get?_current
  by_cases hnil : piece = []
  · rw [hnil, appendBytes_nil hget]
    exact h.load_whole
  · obtain ⟨init, hinit⟩ := h.keys_eq
    have hget' := StoreRun.Steady.get?_append hget piece
    have hinsert : (s.appendBytes piece).dir.segments =
        s.dir.segments.insert s.currentSegment (lg.bytes ++ piece) := by
      refine ext_get? fun id => ?_
      rw [hget', get?_insert]
    have hids : (s.appendBytes piece).dir.listSegmentIds = init ++ [s.currentSegment] := by
      rw [← hinit, ← listSegmentIds_eq h.ok.segments]
      show (s.appendBytes piece).dir.segments.keys = s.dir.segments.keys
      rw [hinsert]
      exact keys_insert_of_mem _ (mem_keys.mpr ⟨_, hget⟩) _
    -- the segments before the current one are whole
    have hbefore := Loading.reads.foldlM (f := fun l id => scanSegment l id none)
      (g := fun id => placedIn id 8 (recordsOf logs id)) init
      ⟨(s.appendBytes piece).dir.segments, .empty, 0⟩ (by
        intro id hid l' hsame
        have hne : id ≠ s.currentSegment := by
          intro heq
          have hasc := logs.keys_ascending
          rw [hinit] at hasc
          exact lt_irrefl _ ((pairwise_append.mp hasc).2.2 id hid _ (heq ▸ mem_singleton_self _))
        obtain ⟨lg', hl'⟩ := mem_keys.mp (hinit ▸ mem_append_left _ hid : id ∈ logs.keys)
        rw [recordsOf_eq hl']
        refine scanSegment_whole ?_ (h.ok.fit id lg' hl')
        rw [hsame, hget', if_neg hne, h.ok.get?_segments, hl']
        rfl)
    obtain ⟨l, hscan, hloc, hseg⟩ := scanSegment_piece (l := Loading.replay
        ⟨(s.appendBytes piece).dir.segments, .empty, 0⟩
        (init.flatMap fun id => placedIn id 8 (recordsOf logs id))) hcomp (h.ok.fit _ lg hl) hr hpre hne hnil (by
        rw [Loading.replay_segments, hget', if_pos rfl])
    have hload : load (s.appendBytes piece).dir = .ok l := by
      rw [load, hids, foldlM_append, hbefore]
      show (scanSegment _ s.currentSegment none >>= pure) = _
      rw [hscan]
      rfl
    refine ⟨l, hload, h.holds ?_ ?_⟩
    · rw [hloc, ← Loading.replay_append, ← h.replay_locations (s.appendBytes piece).dir.segments,
        allPlaced, hinit, flatMap_append, flatMap_singleton, recordsOf_eq hl]
    · refine ext_get? fun id => ?_
      rw [hseg, Loading.replay_segments, get?_insert, hget']
      split_ifs with heq
      · rw [heq, hget]
      · rfl

/-! ### Runs of calls -/

theorem put (h : StoreWritten s logs m) (doc : FittingDocument) :
    ∃ s' logs', s.put doc.1 = .ok s' ∧ StoreWritten s' logs' (m.insert doc.1.externalId doc.1) := by
  obtain ⟨lg, hl, -, hget⟩ := h.get?_current
  have hput := (h.putOne hl doc.2).raise doc.1.internalId
  rw [put_eq hget]
  split_ifs
  · exact ⟨_, _, rfl, hput⟩
  · exact ⟨_, _, rfl, hput.rotated⟩

theorem delete (h : StoreWritten s logs m) (x : String) :
    ∃ s' logs', s.delete x = .ok s' ∧ StoreWritten s' logs' (m.erase x) := by
  obtain ⟨lg, hl, -, hget⟩ := h.get?_current
  cases hx : s.locations.get? x with
  | none =>
    have hm : m.get? x = none := by
      by_contra hne
      obtain ⟨doc, hdoc⟩ := Option.ne_none_iff_exists'.mp hne
      obtain ⟨-, loc, hloc, -⟩ := h.present x doc hdoc
      rw [hx] at hloc
      cases hloc
    obtain ⟨hcall, hsame⟩ := @call_silent _ _ hget _ h.absent (.delete x) hm
    have hsame : m.erase x = m := hsame
    exact ⟨s, logs, hcall, hsame.symm ▸ h⟩
  | some loc =>
    have hdelete := h.removeOne hl hx
    rw [delete_eq hget hx]
    split_ifs
    · exact ⟨_, _, rfl, hdelete⟩
    · exact ⟨_, _, rfl, hdelete.rotated⟩

theorem after_torn (h : StoreWritten s logs m) {c : FailedCall} (hc : c.Torn) :
    ∃ (r : StoreRecord) (piece : ByteSeq), r.Fits ∧ piece <+: r.encode ∧ piece ≠ r.encode ∧
      (c.after s).getD s = s.appendBytes piece := by
  obtain ⟨hrec, k, written, hf, hlt⟩ := hc
  obtain ⟨lg, -, -, hget⟩ := h.get?_current
  have hpiece : ∀ r : StoreRecord, r.Fits → written < r.encode.length →
      (c.after s).getD s = s.appendBytes (r.encode.take written) →
      ∃ (r : StoreRecord) (piece : ByteSeq), r.Fits ∧ piece <+: r.encode ∧ piece ≠ r.encode ∧
        (c.after s).getD s = s.appendBytes piece := by
    intro r hr hlt' heq
    refine ⟨r, _, hr, take_prefix _ _, ?_, heq⟩
    intro hsame
    have := congrArg length hsame
    rw [length_take] at this
    omega
  cases c with
  | put doc f =>
    obtain rfl : f = .writing k written := hf
    exact hpiece (.put doc.1) doc.2 hlt rfl
  | putBatch docs f =>
    obtain rfl : f = .writing k written := hf
    cases docs with
    | nil => exact absurd hlt (Nat.not_lt_zero _)
    | cons doc docs =>
      refine hpiece (.put doc.1) doc.2 hlt ?_
      rw [after_putBatch hrec]
      show s.appendBytes ((encodeAll [StoreRecord.put doc.1]).take written) = _
      rw [encodeAll_cons, encodeAll_nil, append_nil]
  | delete x f =>
    obtain rfl : f = .writing k written := hf
    cases hx : s.locations.get? x with
    | none =>
      -- a delete of an absent document does not write
      refine ⟨.delete "" 0, [], ⟨by decide, by decide⟩, nil_prefix, by simp [encode], ?_⟩
      rw [appendBytes_nil hget, FailedCall.after, failedDelete, hx]
      rfl
    | some loc =>
      have hfits : (StoreRecord.delete x loc.internalId).Fits := by
        obtain ⟨doc, rfl, hat⟩ := h.ok.located x loc hx
        have hdoc := hat.fits h.ok.fit
        have hlen := hdoc.length
        rw [length_writeDocument] at hlen
        exact ⟨by omega, hat.internalId ▸ hdoc.internalId⟩
      refine hpiece _ hfits ?_ ?_
      · simpa [firstLength, encode] using hlt
      · rw [FailedCall.after, failedDelete, hx]
        rfl

theorem scan_calls (h : StoreWritten s logs m) {cs : List StoreCall} (hcs : Recoverable m cs) :
    ∃ s' l, s.calls cs = .ok s' ∧ load s'.dir = .ok l ∧ l.Holds (cs.foldl Contents.call m) := by
  induction cs generalizing s logs m with
  | nil =>
    obtain ⟨l, hl, hholds⟩ := h.load_whole
    exact ⟨s, l, rfl, hl, hholds⟩
  | cons call cs ih =>
    have hnext : ∀ s' logs', s.call call = .ok s' → StoreWritten s' logs' (m.call call) →
        Recoverable (m.call call) cs →
        ∃ s'' l, s.calls (call :: cs) = .ok s'' ∧ load s''.dir = .ok l ∧
          l.Holds ((call :: cs).foldl Contents.call m) := by
      intro s' logs' hcall h' hcs'
      obtain ⟨s'', l, hcalls, hload, hholds⟩ := ih h' hcs'
      refine ⟨s'', l, ?_, hload, hholds⟩
      rw [calls, foldlM_cons, hcall]
      exact hcalls
    cases call with
    | put doc =>
      obtain ⟨s', logs', hput, h'⟩ := h.put doc
      exact hnext s' logs' hput h' hcs
    | putBatch docs =>
      obtain ⟨logs', hdocs⟩ := h.foldl_putOne docs
      obtain ⟨s', logs'', hrotate, h'⟩ := hdocs.maybeRotateSegment
      exact hnext s' logs'' hrotate h' hcs
    | delete x =>
      obtain ⟨s', logs', hdelete, h'⟩ := h.delete x
      exact hnext s' logs' hdelete h' hcs
    | failed c =>
      rcases hcs with ⟨hc, hcs⟩ | ⟨hc, hsilent⟩
      · obtain ⟨lg, -, -, hget⟩ := h.get?_current
        exact hnext s logs (congrArg Except.ok (after_traceless hget hc)) h hcs
      · -- the piece is the last that is written
        obtain ⟨r, piece, hr, hpre, hne, hafter⟩ := h.after_torn hc
        obtain ⟨lg, -, -, hget⟩ := h.get?_current
        obtain ⟨hrun, hsame⟩ := calls_silent (s := s.appendBytes piece) (get?_appendBytes hget piece)
          h.absent hsilent
        obtain ⟨l, hload, hholds⟩ := h.load_piece hr hpre hne
        refine ⟨_, l, ?_, hload, ?_⟩
        · rw [calls, foldlM_cons]
          show (s.call (.failed c) >>= _) = _
          rw [call, hafter]
          exact hrun
        · rw [foldl_cons]
          show l.Holds (cs.foldl Contents.call m)
          rw [hsame]
          exact hholds

end StoreWritten

theorem written_new : StoreWritten StoreRun.new.store newLogs .empty := by
  refine ⟨valid_new.store, ⟨rfl, rfl, ?_, ?_, ?_, ?_⟩, ?_, ?_⟩
  · intro id l hl
    cases hl
  · intro id l hl _
    obtain ⟨rfl, rfl⟩ := newLogs_get? hl
    exact ⟨rfl, le_refl 0, fun id' hid' => absurd hid' not_mem_nil, not_mem_nil⟩
  · intro id hid
    exact absurd hid not_mem_nil
  · intro segments highest
    rfl
  · intro x _
    rfl
  · intro x doc hx
    cases hx

/-- After calls on a new store of which every failing one left nothing, or the last one that wrote left
a piece of its first record, a full scan succeeds and finds the documents of the others. -/
theorem scan_after_failures (cs : List StoreCall) (hcs : Recoverable .empty cs) :
    ∃ s l, StoreRun.new.store.calls cs = .ok s ∧ load s.dir = .ok l ∧
      l.Holds (cs.foldl Contents.call .empty) :=
  written_new.scan_calls hcs

def otherDocument : FittingDocument := ⟨⟨"b", 2, .json, []⟩, ⟨by decide, by decide⟩⟩

/-- A put that leaves a piece behind a document, and a delete of what is not there. -/
theorem scan_behind_piece :
    ∃ s l, StoreRun.new.store.calls [.put otherDocument,
        .failed (.put MappedRun.someDocument (.writing 0 3)), .delete "a"] = .ok s ∧
      load s.dir = .ok l ∧ l.Holds ([.put otherDocument,
        .failed (.put MappedRun.someDocument (.writing 0 3)), .delete "a"].foldl Contents.call .empty) := by
  refine scan_after_failures _ (.inr ⟨⟨rfl, 0, 3, rfl, by decide⟩, ?_⟩)
  intro call hcall
  obtain rfl := mem_singleton.mp hcall
  exact (rfl : (Contents.call .empty (.put otherDocument)).get? "a" = none)

/-- A put fails after three bytes, the next one succeeds, and a full scan does not find its document. -/
theorem put_behind_piece :
    ∃ s l, StoreRun.new.store.calls [.failed (.put MappedRun.someDocument (.writing 0 3)),
        .put otherDocument] = .ok s ∧
      load s.dir = .ok l ∧ l.locations.get? "b" = none ∧
      ¬l.Holds ([.failed (.put MappedRun.someDocument (.writing 0 3)),
        .put otherDocument].foldl Contents.call .empty) := by
  have hrun : (StoreRun.new.store.calls [.failed (.put MappedRun.someDocument (.writing 0 3)),
      .put otherDocument] >>= fun s => load s.dir >>= fun l => .ok (l.locations.get? "b")) =
        .ok none := rfl
  obtain ⟨s, hs, hrun⟩ := Except.of_bind_ok hrun
  obtain ⟨l, hl, hrun⟩ := Except.of_bind_ok hrun
  have hnone : l.locations.get? "b" = none := Except.ok.inj hrun
  refine ⟨s, l, hs, hl, hnone, ?_⟩
  intro h
  obtain ⟨loc, hloc, -⟩ := h "b"
  rw [hnone] at hloc
  cases hloc

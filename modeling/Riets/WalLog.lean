/-
The write-ahead log as a state machine.

The log is a folder of numbered segments.  An append may fail after it has
written any part of its record; the bytes stay in the file behind
`writtenOffset`.

`WalRun` is a log with its history: the payloads whose append returned Ok since
the last reset, with their segments, less those of removed segments.
-/
import Riets.ShardRoot
import Riets.SortedMap

namespace Wal

/-- `crc32fast` over offset, length and payload: a `u32`. -/
abbrev Crc := ℕ → ℕ → ByteSeq → UInt32

def crc32Byte (c : UInt32) (b : UInt8) : UInt32 :=
  (List.range 8).foldl
    (fun c _ => if c &&& 1 = 1 then (c >>> 1) ^^^ 0xEDB88320 else c >>> 1) (c ^^^ b.toUInt32)

def crc32 (bytes : ByteSeq) : UInt32 := ~~~ bytes.foldl crc32Byte 0xFFFFFFFF

example : crc32 [49, 50, 51, 52, 53, 54, 55, 56, 57] = 0xCBF43926 := by decide +kernel

def crc32Record : Crc := fun offset len payload =>
  crc32 (leBytes 8 offset ++ leBytes 4 len ++ payload)

def recordCrc (crc : Crc) : RecordCrc := fun offset len payload => (crc offset len payload).toNat

inductive WalError where
  | emptyEntry
  | entryTooLarge
  | poisoned
  | writeFailed
  | syncFailed
  | segmentExists
  | unexpectedEof
  | corruption
  | segment (id : ℕ) (message : String)
  deriving DecidableEq

variable (crc : Crc)

/-- The loop of `parse_records` from `pos`.  Every turn moves on by at least one
record, so the length of the file is enough. -/
def parseFrom (raw : ByteSeq) : ℕ → ℕ → Except String (List ByteSeq)
  | 0, _ => .ok []
  | turns + 1, pos =>
    if raw.length ≤ pos then .ok []
    else if raw.length < pos + headerSize then .error "truncated replay"
    else
      let len := leNat ((raw.drop pos).take 4)
      let stored := leNat ((raw.drop (pos + 4)).take 4)
      let start := pos + headerSize
      if len = 0 ∨ maxEntrySize < len ∨ raw.length < start + len then .error "truncated replay"
      else
        let payload := (raw.drop start).take len
        if recordCrc crc pos len payload ≠ stored then .error "crc mismatch in replay"
        else (parseFrom raw turns (start + len)).map (payload :: ·)

/-- `parse_records`: every byte must belong to a valid record. -/
def parseRecords (raw : ByteSeq) : Except String (List ByteSeq) :=
  parseFrom crc raw (raw.length + 1) 0

end Wal

inductive SyncMode where
  | syncEach
  | manual
  deriving DecidableEq

/-- How an append fails: `write_all` after some bytes, or the fsync behind it. -/
inductive AppendFault where
  | writing (bytes : ℕ)
  | syncing
  deriving DecidableEq

/-- `Wal` with the files of its folder. -/
structure Wal where
  dir : SortedMap ℕ ByteSeq
  mode : SyncMode
  segment : ℕ
  durableOffset : ℕ
  writtenOffset : ℕ
  poisoned : Bool

namespace Wal

variable (crc : Crc)

/-- Bytes written to the newest segment at `writtenOffset`. -/
def write (w : Wal) (bytes : ByteSeq) : Wal :=
  { w with dir := w.dir.upsert w.segment fun old => writeAt (old.getD []) w.writtenOffset bytes }

/-- `append`: the offset of the record. -/
def append (w : Wal) (payload : ByteSeq) (fault : Option AppendFault) : Except WalError ℕ × Wal :=
  if payload = [] then (.error .emptyEntry, w)
  else if maxEntrySize < payload.length then (.error .entryTooLarge, w)
  else if w.poisoned then (.error .poisoned, w)
  else
    let offset := w.writtenOffset
    let record := encodeRecord (recordCrc crc) offset payload
    let written := { w.write record with writtenOffset := offset + record.length }
    match fault, w.mode with
    | some (.writing bytes), _ => (.error .writeFailed, w.write (record.take bytes))
    | some .syncing, .syncEach => (.error .syncFailed, { written with poisoned := true })
    | none, .syncEach => (.ok offset, { written with durableOffset := written.writtenOffset })
    | _, .manual => (.ok offset, written)

/-- `rotate`: the number of the segment just closed. -/
def rotate (w : Wal) : Except WalError ℕ × Wal :=
  if w.poisoned then (.error .poisoned, w)
  else
    let synced := { w with durableOffset := w.writtenOffset }
    let next := w.segment + 1
    if (w.dir.get? next).isSome then (.error .segmentExists, synced)
    else (.ok w.segment, { synced with
      dir := w.dir.insert next []
      segment := next
      durableOffset := 0
      writtenOffset := 0 })

def removeThrough (w : Wal) (segment : ℕ) : Wal :=
  { w with dir := w.dir.filter fun e => ¬(e.1 ≤ segment ∧ e.1 ≠ w.segment) }

/-- The bytes of a segment that `replay_all` reads. -/
def rawSegment (w : Wal) (e : ℕ × ByteSeq) : Except WalError ByteSeq :=
  if e.1 = w.segment then
    if e.2.length < w.writtenOffset then .error .unexpectedEof else .ok (e.2.take w.writtenOffset)
  else .ok e.2

def replaySegment (w : Wal) (e : ℕ × ByteSeq) : Except WalError (List ByteSeq) := do
  let raw ← w.rawSegment e
  match parseRecords crc raw with
  | .ok payloads => .ok payloads
  | .error message => .error (.segment e.1 message)

/-- `replay_all`, oldest segment first. -/
def replayAll (w : Wal) : Except WalError (List ByteSeq) :=
  w.dir.entries.foldlM (fun payloads e => do
    let records ← w.replaySegment crc e
    .ok (payloads ++ records)) []

def reset (w : Wal) : Except WalError Unit × Wal :=
  if w.poisoned then (.error .poisoned, w)
  else (.ok (), { w with
    dir := (w.dir.filter fun e => e.1 = w.segment).insert w.segment []
    durableOffset := 0
    writtenOffset := 0 })

/-- `Wal::open` of a folder: the newest segment is cut behind its last valid
record. -/
def openDir (mode : SyncMode) (dir : SortedMap ℕ ByteSeq) : Except WalError Wal :=
  let newest := dir.entries.getLast?.getD (1, [])
  match validEnd (recordCrc crc) newest.2 with
  | .error _ => .error .corruption
  | .ok stop => .ok ⟨dir.insert newest.1 (newest.2.take stop), mode, newest.1, stop, stop, false⟩

end Wal

structure WalRun where
  wal : Wal
  history : List (ℕ × ByteSeq)

inductive WalStep where
  | append (payload : ByteSeq) (fault : Option AppendFault)
  | rotate
  | removeThrough (segment : ℕ)
  | reset
  | reopen

namespace WalRun

variable (crc : Wal.Crc)

/-- One call: what it returns, and the log and its history after it. -/
def step (r : WalRun) : WalStep → Except Wal.WalError Unit × WalRun
  | .append payload fault =>
    match r.wal.append crc payload fault with
    | (.ok _, wal) => (.ok (), ⟨wal, r.history ++ [(r.wal.segment, payload)]⟩)
    | (.error e, wal) => (.error e, { r with wal })
  | .rotate => ((r.wal.rotate).1.map fun _ => (), { r with wal := (r.wal.rotate).2 })
  | .removeThrough segment =>
    (.ok (), ⟨r.wal.removeThrough segment,
      r.history.filter fun e => ¬(e.1 ≤ segment ∧ e.1 ≠ r.wal.segment)⟩)
  | .reset =>
    match r.wal.reset with
    | (.ok _, wal) => (.ok (), ⟨wal, []⟩)
    | (.error e, wal) => (.error e, { r with wal })
  | .reopen =>
    match Wal.openDir crc r.wal.mode r.wal.dir with
    | .ok wal => (.ok (), { r with wal })
    | .error e => (.error e, r)

def run (r : WalRun) (steps : List WalStep) : WalRun :=
  steps.foldl (fun r st => (r.step crc st).2) r

def AllOk (r : WalRun) : List WalStep → Prop
  | [] => True
  | st :: steps => (r.step crc st).1 = .ok () ∧ (r.step crc st).2.AllOk steps

def new (mode : SyncMode) : WalRun :=
  ⟨⟨SortedMap.empty.insert 1 [], mode, 1, 0, 0, false⟩, []⟩

end WalRun

/-! ### The bytes of a segment -/

namespace Wal

open List Option Nat

def Accepted (payload : ByteSeq) : Prop := payload ≠ [] ∧ payload.length ≤ maxEntrySize

variable (crc : Crc)

def segmentBytes : ℕ → List ByteSeq → ByteSeq
  | _, [] => []
  | offset, p :: ps =>
    encodeRecord (recordCrc crc) offset p ++ segmentBytes (offset + (headerSize + p.length)) ps

def ImageAt (bytes : ByteSeq) (offset pos : ℕ) (payload : ByteSeq) : Prop :=
  Accepted payload ∧ encodeRecord (recordCrc crc) offset payload <+: bytes.drop pos

variable {crc}

theorem length_encodeRecord (offset : ℕ) (payload : ByteSeq) :
    (encodeRecord (recordCrc crc) offset payload).length = headerSize + payload.length := by
  rw [encodeRecord, length_append, length_append, length_leBytes, length_leBytes]
  rfl

theorem length_le_segmentBytes (offset : ℕ) (ps : List ByteSeq) :
    ps.length ≤ (segmentBytes crc offset ps).length := by
  induction ps generalizing offset with
  | nil => exact le_rfl
  | cons p ps ih =>
    have := ih (offset + (headerSize + p.length))
    rw [segmentBytes, length_append, length_encodeRecord, length_cons]
    unfold headerSize at *
    omega

theorem segmentBytes_append (offset : ℕ) (ps qs : List ByteSeq) :
    segmentBytes crc offset (ps ++ qs) = segmentBytes crc offset ps ++
      segmentBytes crc (offset + (segmentBytes crc offset ps).length) qs := by
  induction ps generalizing offset with
  | nil => rfl
  | cons p ps ih =>
    rw [cons_append, segmentBytes, segmentBytes, ih, append_assoc, length_append,
      length_encodeRecord]
    congr 3
    omega

theorem segmentBytes_snoc (ps : List ByteSeq) (p : ByteSeq) :
    segmentBytes crc 0 (ps ++ [p]) =
      segmentBytes crc 0 ps ++ encodeRecord (recordCrc crc) (segmentBytes crc 0 ps).length p := by
  rw [segmentBytes_append, segmentBytes, segmentBytes, append_nil, zero_add]

theorem crc_lt (offset len : ℕ) (payload : ByteSeq) :
    recordCrc crc offset len payload < 256 ^ 4 := (crc offset len payload).toNat_lt

theorem fields_encodeRecord (crc : Crc) {payload : ByteSeq} (h : Accepted payload) (offset : ℕ)
    (rest : ByteSeq) :
    let bytes := encodeRecord (recordCrc crc) offset payload ++ rest
    leNat (bytes.take 4) = payload.length ∧
      leNat ((bytes.drop 4).take 4) = recordCrc crc offset payload.length payload ∧
      (bytes.drop headerSize).take payload.length = payload := by
  have hlen : payload.length < 256 ^ 4 := lt_of_le_of_lt h.2 (by decide)
  have hmod : payload.length % 2 ^ 32 = payload.length := mod_eq_of_lt hlen
  rw [encodeRecord, hmod]
  set a := leBytes 4 payload.length
  set b := leBytes 4 (recordCrc crc offset payload.length payload)
  have ha : a.length = 4 := length_leBytes _ _
  have hb : b.length = 4 := length_leBytes _ _
  have hshape : a ++ b ++ payload ++ rest = a ++ (b ++ (payload ++ rest)) := by
    simp only [append_assoc]
  intro bytes
  have hbytes : bytes = a ++ (b ++ (payload ++ rest)) := hshape
  have hdrop4 : bytes.drop 4 = b ++ (payload ++ rest) := by rw [hbytes, drop_left' ha]
  have hdrop8 : bytes.drop headerSize = payload ++ rest := by
    have h8 : bytes.drop headerSize = (bytes.drop 4).drop 4 := by
      rw [drop_drop]
      rfl
    rw [h8, hdrop4, drop_left' hb]
  refine ⟨?_, ?_, ?_⟩
  · rw [hbytes, take_left' ha]
    exact leNat_leBytes_of_lt hlen
  · rw [hdrop4, take_left' hb]
    exact leNat_leBytes_of_lt (crc_lt _ _ _)
  · rw [hdrop8, take_left]

theorem readRecordAt_eq (bytes : ByteSeq) (pos : ℕ) :
    readRecordAt (recordCrc crc) bytes pos =
      let d := bytes.drop pos
      let len := leNat (d.take 4)
      if headerSize + len ≤ d.length ∧ len ≠ 0 ∧ len ≤ maxEntrySize ∧
          recordCrc crc pos len ((d.drop headerSize).take len) = leNat ((d.drop 4).take 4) then
        some (pos + headerSize + len)
      else none := by
  have hd : (bytes.drop pos).length = bytes.length - pos := length_drop
  simp only [readRecordAt]
  set d := bytes.drop pos
  by_cases h4 : 4 ≤ d.length
  swap
  · rw [if_neg fun h => h4 (le_trans (by unfold headerSize; omega) h.1), readBytes, if_neg h4]
    rfl
  by_cases h8 : 4 ≤ (d.drop 4).length
  swap
  · rw [if_neg, readBytes, if_pos h4]
    · simp only [bind_eq_bind, bind_some, readBytes, if_neg h8]
      rfl
    · rw [length_drop] at h8
      unfold headerSize
      omega
  have hdrop : (d.drop 4).drop 4 = d.drop headerSize := by
    rw [drop_drop]
    rfl
  rw [readBytes, if_pos h4]
  simp only [bind_eq_bind, bind_some, readBytes, if_pos h8]
  set len := leNat (d.take 4)
  by_cases hlen : headerSize + len ≤ d.length ∧ len ≠ 0 ∧ len ≤ maxEntrySize
  · obtain ⟨hfit, hne, hmax⟩ := hlen
    have hread : len ≤ ((d.drop 4).drop 4).length := by
      rw [hdrop, length_drop]
      omega
    have hguard : ¬(len = 0 ∨ maxEntrySize < len ∨ bytes.length < pos + headerSize + len) := by
      unfold headerSize at *
      omega
    rw [if_neg hguard, if_pos hread, hdrop]
    simp only [bind_some]
    split_ifs with h1 h2 h2 <;> simp_all
  · have hguard : len = 0 ∨ maxEntrySize < len ∨ bytes.length < pos + headerSize + len := by
      unfold headerSize at *
      omega
    rw [if_pos hguard, if_neg fun h => hlen ⟨h.1, h.2.1, h.2.2.1⟩]

variable {bytes : ByteSeq}

theorem readRecordAt_eq_some {pos stop : ℕ} :
    readRecordAt (recordCrc crc) bytes pos = some stop ↔
      ∃ payload, ImageAt crc bytes pos pos payload ∧ stop = pos + headerSize + payload.length := by
  rw [readRecordAt_eq]
  simp only [ImageAt]
  set d := bytes.drop pos
  constructor
  · intro h
    split_ifs at h with hcond
    obtain ⟨hfit, hne, hmax, hcrc⟩ := hcond
    set len := leNat (d.take 4)
    have hlen : ((d.drop headerSize).take len).length = len := by
      rw [length_take, length_drop]
      omega
    refine ⟨(d.drop headerSize).take len, ⟨⟨fun hnil => ?_, by rw [hlen]; exact hmax⟩, ?_⟩, ?_⟩
    · rw [hnil] at hlen
      exact hne hlen.symm
    · -- the header is the one the length and the checksum spell
      have h4 : (d.take 4).length = 4 := by
        rw [length_take]
        unfold headerSize at hfit
        omega
      have h8 : ((d.drop 4).take 4).length = 4 := by
        rw [length_take, length_drop]
        unfold headerSize at hfit
        omega
      have hmod : len % 2 ^ 32 = len := by
        refine mod_eq_of_lt ?_
        have := leNat_lt (d.take 4)
        rw [h4] at this
        exact this
      have hfirst : leBytes 4 len = d.take 4 := by
        have := leBytes_leNat (d.take 4)
        rwa [h4] at this
      have hsecond : leBytes 4 (leNat ((d.drop 4).take 4)) = (d.drop 4).take 4 := by
        have := leBytes_leNat ((d.drop 4).take 4)
        rwa [h8] at this
      have hdrop : (d.drop 4).drop 4 = d.drop headerSize := by
        rw [drop_drop]
        rfl
      refine ⟨(d.drop headerSize).drop len, ?_⟩
      rw [encodeRecord, hlen, hmod, hcrc, hfirst, hsecond, append_assoc, take_append_drop,
        ← hdrop, append_assoc, take_append_drop, take_append_drop]
    · rw [hlen]
      exact (some_inj.1 h).symm
  · rintro ⟨payload, ⟨hacc, rest, hrest⟩, rfl⟩
    obtain ⟨hlen, hcrc, hpayload⟩ := fields_encodeRecord crc hacc pos rest
    rw [hrest] at hlen hcrc hpayload
    have hfit : headerSize + payload.length ≤ d.length := by
      rw [← hrest, length_append, length_encodeRecord]
      omega
    rw [hlen, hpayload, hcrc, if_pos ⟨hfit, fun h => hacc.1 (length_eq_zero_iff.1 h), hacc.2, rfl⟩]

variable {tail : ByteSeq}

theorem imageAt_of_drop {pos j : ℕ} (h : bytes.drop pos = tail) (offset : ℕ)
    (payload : ByteSeq) : ImageAt crc bytes offset (pos + j) payload ↔
      ImageAt crc tail offset j payload := by
  rw [ImageAt, ImageAt, ← h, drop_drop]

theorem readRecordAt_none {pos : ℕ} (hdrop : bytes.drop pos = tail)
    (hno : ∀ payload, ¬ImageAt crc tail pos 0 payload) :
    readRecordAt (recordCrc crc) bytes pos = none := by
  by_contra hne
  obtain ⟨stop, hstop⟩ := ne_none_iff_exists'.1 hne
  obtain ⟨payload, himage, -⟩ := readRecordAt_eq_some.1 hstop
  exact hno payload ((imageAt_of_drop hdrop pos payload).1 himage)

variable {ps : List ByteSeq}

section

variable (hps : ∀ p ∈ ps, Accepted p)
include hps

theorem scanRecords_segmentBytes
    (done tail : ByteSeq) {turns : ℕ} (hturns : ps.length ≤ turns)
    (hno : ∀ payload, ¬ImageAt crc tail
      (done.length + (segmentBytes crc done.length ps).length) 0 payload) :
    scanRecords (recordCrc crc) (done ++ (segmentBytes crc done.length ps ++ tail)) turns
        done.length =
      done.length + (segmentBytes crc done.length ps).length := by
  induction ps generalizing done turns with
  | nil =>
    cases turns with
    | zero => rfl
    | succ turns =>
      have hread : readRecordAt (recordCrc crc) (done ++ tail) done.length = none :=
        readRecordAt_none (drop_left' rfl) hno
      rw [segmentBytes, nil_append, scanRecords, hread]
      simp
  | cons p ps ih =>
    obtain ⟨hp, hps⟩ := forall_mem_cons.1 hps
    have hlen : (encodeRecord (recordCrc crc) done.length p).length = headerSize + p.length :=
      length_encodeRecord done.length p
    have hnext : (done ++ encodeRecord (recordCrc crc) done.length p).length =
        done.length + (headerSize + p.length) := by rw [length_append, hlen]
    cases turns with
    | zero => cases hturns
    | succ turns =>
      have hread : readRecordAt (recordCrc crc)
          (done ++ (segmentBytes crc done.length (p :: ps) ++ tail)) done.length =
          some (done.length + headerSize + p.length) := by
        refine readRecordAt_eq_some.2 ⟨p, ⟨hp, ?_⟩, rfl⟩
        rw [drop_left' rfl, segmentBytes, append_assoc]
        exact prefix_append _ _
      have hroom : done.length + minRecordSize ≤
          (done ++ (segmentBytes crc done.length (p :: ps) ++ tail)).length := by
        have := length_pos_iff.2 hp.1
        rw [length_append, length_append, segmentBytes, length_append, hlen]
        unfold minRecordSize
        omega
      have hrest := ih hps (done ++ encodeRecord (recordCrc crc) done.length p)
        (le_of_succ_le_succ hturns) (by
          intro payload
          have := hno payload
          rw [segmentBytes, length_append, hlen, ← add_assoc] at this
          rwa [hnext])
      rw [hnext] at hrest
      rw [scanRecords, if_pos hroom, hread]
      show scanRecords _ _ turns (done.length + headerSize + p.length) = _
      have hshape : done ++ (segmentBytes crc done.length (p :: ps) ++ tail) =
          done ++ encodeRecord (recordCrc crc) done.length p ++
            (segmentBytes crc (done.length + (headerSize + p.length)) ps ++ tail) := by
        simp only [segmentBytes, append_assoc]
      rw [hshape, add_assoc, hrest, segmentBytes, length_append, hlen]
      omega

theorem validEnd_segmentBytes
    (hno : ∀ payload, ¬ImageAt crc tail (segmentBytes crc 0 ps).length 0 payload) (stop : ℕ) :
    validEnd (recordCrc crc) (segmentBytes crc 0 ps ++ tail) = .ok stop ↔
      stop = (segmentBytes crc 0 ps).length ∧
      ∀ j payload, 0 < j → ¬ImageAt crc tail ((segmentBytes crc 0 ps).length + j) j payload := by
  have hturns : ps.length ≤ (segmentBytes crc 0 ps ++ tail).length := by
    have hle : ps.length ≤ (segmentBytes crc 0 ps).length := length_le_segmentBytes 0 ps
    rw [length_append]
    omega
  have hscan := scanRecords_segmentBytes hps [] tail hturns (by simpa using hno)
  simp only [length_nil, nil_append, zero_add] at hscan
  have hdrop : (segmentBytes crc 0 ps ++ tail).drop (segmentBytes crc 0 ps).length = tail :=
    drop_left' rfl
  rw [validEnd, hscan]
  set o := (segmentBytes crc 0 ps).length
  set bytes := segmentBytes crc 0 ps ++ tail
  -- the probes find a record exactly where an image lies in the tail
  have hprobes : (((range (bytes.length + 1 - minRecordSize)).filter (o < ·)).any fun probe =>
      (readRecordAt (recordCrc crc) bytes probe).isSome) = true ↔
      ∃ j payload, 0 < j ∧ ImageAt crc tail (o + j) j payload := by
    rw [List.any_eq_true]
    constructor
    · rintro ⟨probe, hmem, hsome⟩
      have hlt : o < probe := by simpa using (mem_filter.1 hmem).2
      obtain ⟨stop, hstop⟩ := isSome_iff_exists.1 hsome
      obtain ⟨payload, himage, -⟩ := readRecordAt_eq_some.1 hstop
      obtain ⟨j, rfl⟩ := Nat.exists_eq_add_of_lt hlt
      exact ⟨j + 1, payload, succ_pos j, (imageAt_of_drop hdrop _ payload).1 himage⟩
    · rintro ⟨j, payload, hj, himage⟩
      have himage' : ImageAt crc bytes (o + j) (o + j) payload :=
        (imageAt_of_drop hdrop _ payload).2 himage
      refine ⟨o + j, mem_filter.2 ⟨mem_range.2 ?_, by simpa using hj⟩, ?_⟩
      · have hfit := himage'.2.length_le
        have := length_pos_iff.2 himage.1.1
        rw [length_encodeRecord, length_drop] at hfit
        unfold minRecordSize
        omega
      · rw [readRecordAt_eq_some.2 ⟨payload, himage', rfl⟩]
        rfl
  by_cases h : ∃ j payload, 0 < j ∧ ImageAt crc tail (o + j) j payload
  · rw [if_pos (hprobes.2 h)]
    obtain ⟨j, payload, hj, himage⟩ := h
    exact ⟨fun h => (by cases h), fun h => absurd himage (h.2 j payload hj)⟩
  · rw [if_neg (mt hprobes.1 h)]
    push Not at h
    exact ⟨fun heq => ⟨(Except.ok.inj heq).symm, h⟩, fun heq => by rw [heq.1]⟩

theorem parseFrom_segmentBytes (done : ByteSeq)
    {turns : ℕ} (hturns : ps.length < turns) :
    parseFrom crc (done ++ segmentBytes crc done.length ps) turns done.length = .ok ps := by
  induction ps generalizing done turns with
  | nil =>
    cases turns with
    | zero => cases hturns
    | succ turns =>
      rw [parseFrom, if_pos]
      simp [segmentBytes]
  | cons p ps ih =>
    obtain ⟨hp, hps⟩ := forall_mem_cons.1 hps
    cases turns with
    | zero => cases hturns
    | succ turns =>
      have hlen : (encodeRecord (recordCrc crc) done.length p).length = headerSize + p.length :=
        length_encodeRecord done.length p
      have hpos := length_pos_iff.2 hp.1
      set raw := done ++ segmentBytes crc done.length (p :: ps) with hraw
      have hrawlen : raw.length = done.length + (headerSize + p.length +
          (segmentBytes crc (done.length + (headerSize + p.length)) ps).length) := by
        rw [hraw, length_append, segmentBytes, length_append, hlen]
      have hdrop : raw.drop done.length = encodeRecord (recordCrc crc) done.length p ++
          segmentBytes crc (done.length + (headerSize + p.length)) ps := drop_left' rfl
      obtain ⟨hlenField, hcrcField, hpayload⟩ := fields_encodeRecord crc hp done.length
        (segmentBytes crc (done.length + (headerSize + p.length)) ps)
      rw [← hdrop] at hlenField hcrcField hpayload
      rw [drop_drop] at hcrcField hpayload
      have hshort : ¬raw.length ≤ done.length := by omega
      have hheader : ¬raw.length < done.length + headerSize := by omega
      have hguard : ¬(p.length = 0 ∨ maxEntrySize < p.length ∨
          raw.length < done.length + headerSize + p.length) := by
        have := hp.2
        omega
      have hrest := ih hps (done ++ encodeRecord (recordCrc crc) done.length p)
        (lt_of_succ_lt_succ hturns)
      rw [length_append, hlen, append_assoc, ← add_assoc] at hrest
      rw [parseFrom, if_neg hshort, if_neg hheader]
      simp only [hlenField, hcrcField, hpayload]
      rw [if_neg hguard, if_neg (fun h => h rfl)]
      show Except.map _ (parseFrom crc (done ++ segmentBytes crc done.length (p :: ps)) turns _) = _
      rw [segmentBytes, ← add_assoc, hrest]
      rfl

theorem parseRecords_segmentBytes :
    parseRecords crc (segmentBytes crc 0 ps) = .ok ps := by
  have hle : ps.length ≤ (segmentBytes crc 0 ps).length := length_le_segmentBytes 0 ps
  exact parseFrom_segmentBytes hps [] (by omega)

end

end Wal

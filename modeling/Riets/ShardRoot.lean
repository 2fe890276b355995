/-
The directory of a shard and the write-ahead log in it.

`ShardName` lists the names the shard uses under its root.  The log is a folder
of numbered segments of records, each with its length and a checksum over its
offset, length and payload; `walOpen` creates the folder and the first segment
when needed and cuts a torn record off the newest segment.  The checksum
function is a parameter.
-/
import Riets.Bytes
import Riets.FileTree

inductive ShardName where
  | index
  | documents
  | indexNew
  | indexOld
  | wal
  | documentsMaps
  | restoreNew
  | restoreOld
  | segment (n : ℕ)
  | other (name : String)
  deriving DecidableEq

abbrev ShardProgram := CrashProgram FileError (FileTree ShardName)

open CrashProgram FileTree

/-! ### The records of a segment -/

namespace Wal

def maxEntrySize : ℕ := 1024 * 1024 * 1024

/-- `HEADER_SIZE`: the payload length and the checksum. -/
def headerSize : ℕ := 8

def minRecordSize : ℕ := headerSize + 1

abbrev RecordCrc := ℕ → ℕ → ByteSeq → ℕ

variable (crc : RecordCrc)

def encodeRecord (offset : ℕ) (payload : ByteSeq) : ByteSeq :=
  leBytes 4 payload.length ++ leBytes 4 (crc offset (payload.length % 2 ^ 32) payload) ++ payload

/-- `read_record_at`: the end of the valid record at `pos`. -/
def readRecordAt (bytes : ByteSeq) (pos : ℕ) : Option ℕ := do
  let (lenBytes, rest) ← readBytes 4 (bytes.drop pos)
  let (crcBytes, rest) ← readBytes 4 rest
  let len := leNat lenBytes
  if len = 0 ∨ maxEntrySize < len ∨ bytes.length < pos + headerSize + len then none
  else
    let (payload, _) ← readBytes len rest
    if crc pos len payload ≠ leNat crcBytes then none else some (pos + headerSize + len)

/-- The first loop of `valid_end`: the end of the valid records from `pos`.
A record has at least one byte, so the length of the file is fuel enough. -/
def scanRecords (bytes : ByteSeq) : ℕ → ℕ → ℕ
  | 0, pos => pos
  | fuel + 1, pos =>
    if pos + minRecordSize ≤ bytes.length then
      match readRecordAt crc bytes pos with
      | some next => scanRecords bytes fuel next
      | none => pos
    else pos

/-- `valid_end`: the end of the last valid record.  A valid record after a
damaged one is corruption. -/
def validEnd (bytes : ByteSeq) : Except FileError ℕ :=
  let pos := scanRecords crc bytes bytes.length 0
  let probes := (List.range (bytes.length + 1 - minRecordSize)).filter (pos < ·)
  if probes.any fun probe => (readRecordAt crc bytes probe).isSome then .error .invalidData
  else .ok pos

def segmentNumber (t : FileTree ShardName) : FilePath ShardName → Option ℕ
  | [.wal, .segment n] => if (t.entry [.wal, .segment n]).isSome then some n else none
  | _ => none

def listSegments (t : FileTree ShardName) : List ℕ :=
  ((t.paths.filterMap (segmentNumber t)).dedup).insertionSort (· ≤ ·)

/-- `scan_and_truncate`: cuts a torn final record off a segment. -/
def scanAndTruncate (n : ℕ) : ShardProgram Unit := do
  match ← inspect fun t => t.entry [.wal, .segment n] with
  | some (.file bytes) =>
    match validEnd crc bytes with
    | .ok stop =>
      if stop < bytes.length then perform (writeFile false (bytes.take stop) [.wal] (.segment n))
    | .error e => throw (.error e)
  | some .dir => throw (.error .isADirectory)
  | none => throw (.error .notFound)

/-- `Wal::open` of the folder `wal`. -/
def walOpen : ShardProgram Unit := do
  match ← inspect fun t => t.entry [.wal] with
  | some (.file _) => throw (.error .invalidInput)
  | some .dir => pure ()
  | none => perform (createDir [] .wal)
  match (← inspect listSegments).getLast? with
  | some newest => scanAndTruncate crc newest
  | none =>
    perform (writeFile true [] [.wal] (.segment 1))
    scanAndTruncate crc 1

def Fresh (t : FileTree ShardName) : Prop :=
  ∀ q, t.content [.wal] q =
    if q = [] then some .dir else if q = [.segment 1] then some (.file []) else none

theorem listSegments_eq_nil {t : FileTree ShardName} (h : ∀ n, t.entry [.wal, .segment n] = none) :
    listSegments t = [] := by
  have hnone : t.paths.filterMap (segmentNumber t) = [] := by
    rw [List.filterMap_eq_nil_iff]
    intro p _
    unfold segmentNumber
    split
    · simp [h]
    · rfl
  rw [listSegments, hnone]
  rfl

theorem scanAndTruncate_nil (n : ℕ) (t : FileTree ShardName)
    (h : t.entry [.wal, .segment n] = some (.file [])) {C : FileTree ShardName → Prop} :
    Spec (fun s => s = t) (scanAndTruncate crc n) (fun _ s => s = t) C := by
  refine Spec.inspect_bind ?_
  rw [h]
  exact Spec.pure fun _ hs => hs

def SameButWal (t t' : FileTree ShardName) : Prop :=
  ∀ q, ¬[ShardName.wal] <+: q → t'.entry q = t.entry q

theorem walOpen_fresh (t : FileTree ShardName) (h : t.entry [.wal] = none) :
    Spec (fun s => s = t) (walOpen crc) (fun _ s => Fresh s ∧ SameButWal t s)
      (fun s => SameButWal t s ∧ ∀ bytes, s.entry [.wal] ≠ some (.file bytes)) := by
  have hbelow : ∀ q, [ShardName.wal] <+: q → t.entry q = none := fun q hq => entry_none_below h hq
  obtain ⟨u, hu, hplaced⟩ : ∃ u, createDir [] .wal t = .ok u ∧ Placed [.wal] .dir t u :=
    createDir_ok h t.root
  have hwal : u.entry [.wal] = some .dir := by rw [hplaced, if_pos rfl]
  have hnone : ∀ n, u.entry [.wal, .segment n] = none := by
    intro n
    rw [hplaced, if_neg (by simp)]
    exact hbelow _ ⟨[.segment n], rfl⟩
  have hsame : SameButWal t u := by
    intro q hq
    rw [hplaced, if_neg]
    rintro rfl
    exact hq List.prefix_rfl
  obtain ⟨w, hw, hseg⟩ : ∃ w, writeFile true [] [.wal] (.segment 1) u = .ok w ∧
      Placed [.wal, .segment 1] (.file []) u w := createNew_ok (hnone 1) hwal true []
  refine Spec.inspect_bind ?_
  rw [h]
  refine Spec.perform_bind ⟨fun _ _ => rfl, by simp [h]⟩ hu ?_
  refine Spec.inspect_bind ?_
  rw [listSegments_eq_nil hnone]
  refine Spec.perform_bind ⟨hsame, by simp [hwal]⟩ hw ?_
  refine (scanAndTruncate_nil crc 1 w (by rw [hseg, if_pos rfl])).mono (fun _ h => h) ?_
    (fun _ h => h)
  intro _ s hs
  rw [hs]
  refine ⟨fun q => ?_, fun q hq => ?_⟩
  · show w.entry (.wal :: q) = _
    rw [hseg, hplaced]
    by_cases hq : q = []
    · simp [hq]
    · by_cases hq1 : q = [.segment 1]
      · simp [hq1]
      · simp [hq, hq1, hbelow (.wal :: q) ⟨q, rfl⟩]
  · rw [hseg, if_neg, hsame q hq]
    rintro rfl
    exact hq ⟨[.segment 1], rfl⟩

end Wal

/-
Backups of the documents of one shard.

A full backup is a copy of the directory of the document store, an incremental
one the bytes that were added behind a bookmark: the last listed segment of the
backup before it and the length that segment had.  A manifest names the backup
it builds on, and `restoreChain` follows these names to a full backup, checks
that the pieces meet and writes them one after the other.

`BackupRun` is a shard's store with its manager; the install of a store
compaction that moved a document asks for a full backup.
-/
import Riets.StoreCompaction

def isValidBackupId (id : String) : Bool :=
  let bytes := utf8 id
  bytes ≠ [] && bytes.length ≤ 128 && bytes.all fun b =>
    (48 ≤ b && b ≤ 57) || (65 ≤ b && b ≤ 90) || (97 ≤ b && b ≤ 122) || b = 95 || b = 45

/-- The ids calls are made with: `full_` or `incr_` and a time. -/
abbrev BackupId := { id : String // isValidBackupId id }

inductive BackupType where
  | full
  | incremental
  deriving DecidableEq

/-- `BackupManifest`, less the counts and the time. -/
structure BackupManifest where
  backupId : String
  backupType : BackupType
  startOffset : ℕ
  parentBackupId : Option String
  lastBackupSegment : ℕ
  lastBackupOffset : ℕ
  deriving DecidableEq

/-- `BackupError`, the cases that the modelled functions give. -/
inductive BackupError where
  | ioError (message : String)
  | noBackupChain
  | noBaseBackup
  | chainGap (parentId : String) (parentEnd : ℕ) (childId : String) (childStart : ℕ)

/-- The directory of one backup of a shard: the manifest, the files packed in
`documents.tar.gz` and the files under `documents`. -/
structure ShardBackup where
  manifest : BackupManifest
  archive : SortedMap ℕ ByteSeq
  documents : SortedMap ℕ ByteSeq

abbrev BackupDir := SortedMap String ShardBackup

/-- Where a backup call meets an I/O error. -/
inductive BackupFault where
  | reading
  | writing
  | saving
  deriving DecidableEq

structure SegmentDiff where
  id : ℕ
  start : ℕ
  stop : ℕ

def SegmentDiff.piece (d : SegmentDiff) (segments : SortedMap ℕ ByteSeq) : ByteSeq :=
  (((segments.get? d.id).getD []).drop d.start).take (d.stop - d.start)

/-- `BackupManager`, with the backups of its shard. -/
structure BackupManager where
  backups : BackupDir
  lastBackupId : Option String
  lastSegmentId : ℕ
  lastSegmentOffset : ℕ

namespace BackupManager

def loadManifest (backups : BackupDir) (id : String) : Except BackupError BackupManifest :=
  match backups.get? id with
  | some b => .ok b.manifest
  | none => .error (.ioError "file not found")

/-- `delete_incremental_chain`: each turn of the loop removes a backup, so there
are at most as many turns as backups. -/
def deleteIncrementalChain : ℕ → BackupDir → String → BackupDir
  | 0, backups, _ => backups
  | turns + 1, backups, current =>
    match backups.get? current with
    | none => backups
    | some b =>
      match b.manifest.backupType, b.manifest.parentBackupId with
      | .full, _ => backups
      | .incremental, some parent => deleteIncrementalChain turns (backups.erase current) parent
      | .incremental, none => backups.erase current

def fullManifest (id : String) (lastSegment lastSegmentOffset : ℕ) : BackupManifest :=
  ⟨id, .full, 0, none, lastSegment, lastSegmentOffset⟩

def fullWritten (m : BackupManager) (segments : SortedMap ℕ ByteSeq) (id : String)
    (lastSegment lastSegmentOffset : ℕ) : BackupManager where
  backups := m.backups.upsert id fun old =>
    ⟨fullManifest id lastSegment lastSegmentOffset, segments,
      (old.map ShardBackup.documents).getD .empty⟩
  lastBackupId := some id
  lastSegmentId := lastSegment
  lastSegmentOffset := lastSegmentOffset

def createFullBackup (m : BackupManager) (segments : SortedMap ℕ ByteSeq) (id : String)
    (fault : Option BackupFault) : Except BackupError BackupManifest × BackupManager :=
  match segments.entries.getLast? with
  | none => (.error (.ioError "no document segments to back up"), m)
  | some (lastSegment, bytes) =>
    let manifest := fullManifest id lastSegment bytes.length
    let written := m.fullWritten segments id lastSegment bytes.length
    match fault with
    | some .reading => (.error (.ioError "read failed"), m)
    | some .writing =>
      (.error (.ioError "write failed"), { m with backups := m.backups.erase id })
    | some .saving => (.error (.ioError "saving the state failed"), written)
    | none =>
      match m.lastBackupId with
      | some old =>
        (.ok manifest, { written with
          backups := deleteIncrementalChain written.backups.size written.backups old })
      | none => (.ok manifest, written)

def diffOf (lastSegmentId lastSegmentOffset : ℕ) (e : ℕ × ByteSeq) : Option SegmentDiff :=
  if e.1 < lastSegmentId then none
  else
    let start := if e.1 = lastSegmentId then lastSegmentOffset else 0
    if start < e.2.length then some ⟨e.1, start, e.2.length⟩ else none

def readSegmentDiff (segments : SortedMap ℕ ByteSeq) (lastSegmentId lastSegmentOffset : ℕ) :
    List SegmentDiff :=
  segments.entries.filterMap (diffOf lastSegmentId lastSegmentOffset)

def incrementalManifest (m : BackupManager) (id parent : String) (last : SegmentDiff) :
    BackupManifest :=
  ⟨id, .incremental, m.lastSegmentOffset, some parent, last.id, last.stop⟩

def pieces (segments : SortedMap ℕ ByteSeq) (diff : List SegmentDiff)
    (documents : SortedMap ℕ ByteSeq) : SortedMap ℕ ByteSeq :=
  documents.extend (fun _ piece => piece) (diff.map fun d => (d.id, d.piece segments))

def incrementalWritten (m : BackupManager) (segments : SortedMap ℕ ByteSeq) (id parent : String)
    (diff : List SegmentDiff) (last : SegmentDiff) : BackupManager where
  backups := m.backups.upsert id fun old =>
    ⟨m.incrementalManifest id parent last, (old.map ShardBackup.archive).getD .empty,
      pieces segments diff ((old.map ShardBackup.documents).getD .empty)⟩
  lastBackupId := some id
  lastSegmentId := last.id
  lastSegmentOffset := last.stop

def createIncrementalBackup (m : BackupManager) (segments : SortedMap ℕ ByteSeq) (id : String)
    (fault : Option BackupFault) : Except BackupError (Option BackupManifest) × BackupManager :=
  match m.lastBackupId with
  | none => (.error .noBaseBackup, m)
  | some parent =>
    if fault = some .reading then (.error (.ioError "read failed"), m)
    else
      let diff := readSegmentDiff segments m.lastSegmentId m.lastSegmentOffset
      match diff.getLast? with
      | none => (.ok none, m)
      | some last =>
        let written := m.incrementalWritten segments id parent diff last
        match fault with
        | some .writing =>
          (.error (.ioError "write failed"), { m with backups := m.backups.erase id })
        | some .saving => (.error (.ioError "saving the state failed"), written)
        | _ => (.ok (some (m.incrementalManifest id parent last)), written)

def requireFullBackup (m : BackupManager) : BackupManager := { m with lastBackupId := none }

def applyPieces (parent : BackupManifest) (target pieces : SortedMap ℕ ByteSeq) :
    SortedMap ℕ ByteSeq :=
  target.absorb (fun segment old piece =>
    let start := if segment = parent.lastBackupSegment then parent.lastBackupOffset else 0
    writeAt (old.getD []) start piece) pieces

/-- `restore`, the files under `documents` of the target directory. -/
def restore (backups : BackupDir) (id : String) (target : SortedMap ℕ ByteSeq) :
    Except BackupError (SortedMap ℕ ByteSeq) :=
  match backups.get? id with
  | none => .error (.ioError "file not found")
  | some b =>
    match b.manifest.backupType with
    | .full => .ok (target.mergeWith (fun _ file => file) b.archive)
    | .incremental =>
      match b.manifest.parentBackupId with
      | none => .error (.ioError "incremental backup missing parent")
      | some parent => do
        let parentManifest ← loadManifest backups parent
        .ok (applyPieces parentManifest target b.documents)

/-- The loop that follows the parents: `last` is the manifest found last, after
`children`.  It does not return when the parents form a circle, so the turns are
counted. -/
def followParents (backups : BackupDir) :
    ℕ → BackupManifest → List BackupManifest → Option (Except BackupError (List BackupManifest))
  | 0, _, _ => none
  | turns + 1, last, children =>
    match last.backupType with
    | .full => some (.ok (last :: children))
    | .incremental =>
      match last.parentBackupId with
      | none => some (.error .noBackupChain)
      | some parent =>
        match loadManifest backups parent with
        | .error e => some (.error e)
        | .ok manifest => followParents backups turns manifest (last :: children)

def gap (parent child : BackupManifest) : Bool :=
  child.lastBackupSegment < parent.lastBackupSegment ||
    (child.lastBackupSegment = parent.lastBackupSegment &&
      child.startOffset < parent.lastBackupOffset)

def checkChain : List BackupManifest → Except BackupError Unit
  | parent :: child :: rest =>
    if gap parent child then
      .error (.chainGap parent.backupId parent.lastBackupOffset child.backupId child.startOffset)
    else checkChain (child :: rest)
  | _ => .ok ()

/-- `restore_chain`, none while it has not returned after some turns. -/
def restoreChain (backups : BackupDir) (turns : ℕ) (id : String) (target : SortedMap ℕ ByteSeq) :
    Option (Except BackupError (SortedMap ℕ ByteSeq)) :=
  if !isValidBackupId id then
    some (.error (.ioError ("invalid backup id '" ++ id ++ "'")))
  else
    match loadManifest backups id with
    | .error e => some (.error e)
    | .ok manifest =>
      match followParents backups turns manifest [] with
      | none => none
      | some (.error e) => some (.error e)
      | some (.ok chain) =>
        some do
          checkChain chain
          chain.foldlM (fun target m => restore backups m.backupId target) target

end BackupManager

/-! ### Runs -/

inductive BackupCall where
  | full (id : BackupId) (fault : Option BackupFault)
  | incremental (id : BackupId) (fault : Option BackupFault)

def BackupCall.id : BackupCall → String
  | .full id _ => id.1
  | .incremental id _ => id.1

def BackupManager.call (m : BackupManager) (segments : SortedMap ℕ ByteSeq) :
    BackupCall → Except BackupError (Option BackupManifest) × BackupManager
  | .full id fault =>
    let (result, m') := m.createFullBackup segments id.1 fault
    (result.map some, m')
  | .incremental id fault => m.createIncrementalBackup segments id.1 fault

structure BackupRun where
  shard : StoreRun
  manager : BackupManager

inductive BackupStep where
  | store (st : StoreStep)
  | backup (call : BackupCall)

namespace BackupRun

def segments (r : BackupRun) : SortedMap ℕ ByteSeq := r.shard.store.dir.segments

def installs (r : StoreRun) : StoreStep → Bool
  | .installCompaction =>
    match r.compacting with
    | .completed c => (r.store.installSegmentCompaction c).1
    | _ => false
  | _ => false

/-- One step.  `install_segment_compaction_cmd` asks for a full backup when the
install reports that it moved a document. -/
def step (r : BackupRun) : BackupStep → IoResult BackupRun
  | .store st => do
    let shard ← r.shard.step st
    .ok ⟨shard, if installs r.shard st then r.manager.requireFullBackup else r.manager⟩
  | .backup call => .ok { r with manager := (r.manager.call r.segments call).2 }

def run (r : BackupRun) (steps : List BackupStep) : IoResult BackupRun := steps.foldlM step r

def new : BackupRun := ⟨StoreRun.new, ⟨.empty, none, 0, 0⟩⟩

end BackupRun

/-
The directory of an index, byte by byte.

An index on disk is `manifest.txt`, `deletes.txt` and the segment files.  A crash
leaves what a prefix of the operations made.
-/
import Riets.TextLines
import Riets.Manifest

namespace Text

def ascii (s : String) : ByteSeq := s.toList.map fun c => UInt8.ofNat c.toNat

def isSpace (b : UInt8) : Bool := b = 32 ∨ (9 ≤ b ∧ b ≤ 13)

/-- `str::trim` of an ASCII text. -/
def trim (text : ByteSeq) : ByteSeq :=
  ((text.dropWhile isSpace).reverse.dropWhile isSpace).reverse

def parseU64 (text : ByteSeq) : Option ℕ :=
  (parseDecimal (if text.head? = some 43 then text.tail else text)).filter (· < 2 ^ 64)

end Text

open Text

def segmentName (n : ℕ) : ByteSeq := ascii "segment-" ++ decimal n ++ ascii ".idx"

def manifestText (paths : List ℕ) : ByteSeq := paths.flatMap fun p => line (segmentName p)

/-- `read_manifest`: a line that ends with `.del` takes a name away. -/
def readManifest (text : ByteSeq) : List ByteSeq :=
  (lines text).foldl (fun names name =>
    if ascii ".del" <:+ name then
      names.filter (· ≠ name.take (name.length - 4))
    else names ++ [name]) []

def readIds (ids : List ByteSeq) : Option DeleteSet :=
  ids.foldlM (fun deleted id =>
    if trim id = [] then some deleted else (parseU64 (trim id)).map fun d => insert d deleted) ∅

/-- `read_deletes`: what is behind the last newline was cut off by a crash. -/
def readDeletes (bytes : ByteSeq) : Option DeleteSet := readIds (lines (completeLines bytes))

inductive FileOp where
  | truncateManifest
  | appendManifest (byte : UInt8)
  | appendDeletes (byte : UInt8)
  | removeDeletes
  /-- `none` for a file that is partly written. -/
  | writeSegment (path : ℕ) (content : Option Segment)
  | removeSegment (path : ℕ)

namespace FileOp

def isManifest : FileOp → Bool
  | truncateManifest | appendManifest _ => true
  | _ => false

def isDeletes : FileOp → Bool
  | appendDeletes _ | removeDeletes => true
  | _ => false

def path? : FileOp → Option ℕ
  | writeSegment path _ | removeSegment path => some path
  | _ => none

end FileOp

/-- The files of an index; a text file that is missing reads as an empty one. -/
structure IndexDir where
  manifest : ByteSeq
  deletes : ByteSeq
  segments : SortedMap ℕ (Option Segment)

namespace IndexDir

def apply (dir : IndexDir) : FileOp → IndexDir
  | .truncateManifest => { dir with manifest := [] }
  | .appendManifest byte => { dir with manifest := dir.manifest ++ [byte] }
  | .appendDeletes byte => { dir with deletes := dir.deletes ++ [byte] }
  | .removeDeletes => { dir with deletes := [] }
  | .writeSegment path content => { dir with segments := dir.segments.insert path content }
  | .removeSegment path => { dir with segments := dir.segments.erase path }

def applyAll (dir : IndexDir) (ops : List FileOp) : IndexDir := ops.foldl apply dir

/-- `DiskSegment::open`: none without the file and for one that is partly written. -/
def openSegment (dir : IndexDir) (name : ByteSeq) : Option (ℕ × Segment) :=
  match dir.segments.entries.find? fun e => segmentName e.1 = name with
  | some (p, some s) => some (p, s)
  | _ => none

def persistent (dir : IndexDir) : Option LsmIndex :=
  (readDeletes dir.deletes).bind fun deleted =>
    ((readManifest dir.manifest).mapM dir.openSegment).map fun segments =>
      LsmIndex.persistent segments deleted

end IndexDir

/-- A step of the index, or of a thread that writes a segment file. -/
inductive DirStep where
  | step (st : ManifestStep)
  | partWritten (path : ℕ)

namespace ManifestWorld

def appendOps (path : ℕ) : List FileOp := (line (segmentName path)).map .appendManifest

/-- The writer writes the segment, `complete_flush` lists it. -/
def flushOps (m : ManifestWorld) (seq : ℕ) (writeOk appendOk : Bool) : List FileOp :=
  match m.world.writing.find? fun job => job.seq = seq with
  | none => []
  | some job =>
    .writeSegment job.path none ::
      if writeOk then
        .writeSegment job.path (some job.write) ::
          match m.world.index.flushQueue.complete seq with
          | .ok (pending, _) => if m.world.index.hasRoot ∧ appendOk then appendOps pending.path else []
          | .error _ => []
      else []

def compactionOps (m : ManifestWorld) (jobId : ℕ) (ok : Bool) : List FileOp :=
  match m.world.planned.find? fun job => job.jobId = jobId with
  | none => []
  | some job =>
    match (if ok then job.selected.mapM (openHandle m.world.files) else none) with
    | none => []
    | some opened =>
      match Compaction.compactSegments opened job.deleted with
      | none => []
      | some file =>
        [.writeSegment job.outputPath none, .writeSegment job.outputPath (some file.open)]

/-- `compact_manifest`, the removal of the merged segments and `clear_deletes`; a
stale job only removes its output. -/
def installOps (m : ManifestWorld) (jobId : ℕ) (openOk manifestOk clearOk : Bool) : List FileOp :=
  match m.world.finished.find? fun job => job.jobId = jobId with
  | none => []
  | some job =>
    if m.world.index.isStale job.completed then [.removeSegment job.outputPath]
    else if (m.world.output job openOk).isOk ∧ manifestOk then
      .truncateManifest ::
        (manifestText (m.world.step (.installCompaction jobId openOk manifestOk clearOk)).live).map
          .appendManifest ++
        (job.selected.filterMap SegmentHandle.path?).map .removeSegment ++
        if m.world.index.mergedAll job.completed ∧
            job.deleteGeneration = m.world.index.deleteGeneration ∧ clearOk then [.removeDeletes]
        else []
    else []

/-- One segment of `add_immutable_segment`. -/
def addOps (m : ManifestWorld) (segment : Segment) (outcome : AddOutcome) : List FileOp :=
  .writeSegment m.world.index.nextSegmentId none ::
    if outcome.wrote then
      .writeSegment m.world.index.nextSegmentId (some segment.openWritten) ::
        if outcome = .added then appendOps m.world.index.nextSegmentId else []
    else []

def fileOps (m : ManifestWorld) : DirStep → List FileOp
  | .step (.act (.completeFlush seq writeOk appendOk) _) => m.flushOps seq writeOk appendOk
  | .step (.act (.deleteDocument docId appendOk) _) =>
    if appendOk then (line (decimal docId)).map .appendDeletes else []
  | .step (.act (.runCompaction jobId ok) _) => m.compactionOps jobId ok
  | .step (.act (.installCompaction jobId openOk manifestOk clearOk) _) =>
    m.installOps jobId openOk manifestOk clearOk
  | .step (.act _ _) => []
  | .step (.addSegment segment outcome _) => m.addOps segment outcome
  | .partWritten path =>
    if path ∈ m.world.writing.map FlushJob.path ++ m.world.planned.map CompactionJob.outputPath then
      [.writeSegment path none]
    else []

end ManifestWorld

structure DirWorld where
  disk : ManifestWorld
  dir : IndexDir

namespace DirWorld

def step (k : DirWorld) (st : DirStep) : DirWorld where
  disk := match st with
    | .step st => k.disk.step st
    | .partWritten _ => k.disk
  dir := k.dir.applyAll (k.disk.fileOps st)

def run (k : DirWorld) (steps : List DirStep) : DirWorld := steps.foldl step k

/-- What a crash leaves after `n` operations of a step. -/
def crash (k : DirWorld) (st : DirStep) (n : ℕ) : IndexDir :=
  k.dir.applyAll ((k.disk.fileOps st).take n)

/-- An index that was just opened from a directory with these segments and deletes. -/
def start (entries : List (ℕ × Segment)) (ids : List DocId) : DirWorld where
  disk := ManifestWorld.start entries ids.toFinset
  dir :=
    { manifest := manifestText (entries.map Prod.fst)
      deletes := ids.flatMap fun d => line (decimal d)
      segments := SortedMap.empty.extend (fun _ s => s) (entries.map fun e => (e.1, some e.2)) }

end DirWorld

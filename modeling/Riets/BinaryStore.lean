/-
The document store: segments of records, the map from external ids to their
places, and the compaction of segments.

Documents are appended to the current segment; a segment that has grown to 128
MiB is followed by a new one.  A compaction copies the documents that still
live in some older segments into a new segment, which takes the next number and
so stands above the segment still being appended to.

`StoreRun` is a store with the compaction its background worker is busy with;
`StoreRun.step` is any one operation on it.
-/
import Riets.RecordFormat

structure DocLocation where
  internalId : DocId
  offset : ℕ
  segment : ℕ
  len : ℕ
  deriving DecidableEq

abbrev Locations := SortedMap String DocLocation

/-- The saved maps, with the length of every segment when they were saved. -/
structure MapsFile where
  segmentEnds : List (ℕ × ℕ)
  entries : List (String × DocLocation)
  highestId : DocId

/-- The files of a store: the segments by number, and the maps next to them. -/
structure StoreDir where
  segments : SortedMap ℕ ByteSeq
  maps : Option MapsFile

namespace StoreDir

/-- `MAGIC`: `BANANA_F`. -/
def magic : ByteSeq := [66, 65, 78, 65, 78, 65, 95, 70]

/-- `COMPACTED_MAGIC`: `BANANA_D`. -/
def compactedMagic : ByteSeq := [66, 65, 78, 65, 78, 65, 95, 68]

def listSegmentIds (dir : StoreDir) : List ℕ := dir.segments.entries.map Prod.fst

def readDocumentAtPath (dir : StoreDir) (segment offset : ℕ) : IoResult StoredDocument :=
  match dir.segments.get? segment with
  | none => .error "file not found"
  | some bytes =>
    match readDocument (bytes.drop offset) with
    | .ok (doc, _) => .ok doc
    | .error _ => .error "bad document"

structure Loading where
  segments : SortedMap ℕ ByteSeq
  locations : Locations
  highestId : DocId

def Loading.apply (segment : ℕ) (l : Loading) (p : PlacedRecord) : Loading :=
  match p.record with
  | .put doc =>
    { l with
      highestId := max l.highestId doc.internalId
      locations := l.locations.insert doc.externalId
        ⟨doc.internalId, p.start + 1, segment, (p.len - 1) % 2 ^ 32⟩ }
  | .delete x deleted =>
    { l with
      highestId := max l.highestId deleted
      locations := match l.locations.get? x with
        | some current =>
          if current.internalId ≤ deleted then l.locations.erase x else l.locations
        | none => l.locations }

/-- The bytes of a segment that are read: from an offset just past a record, or
from behind the magic. -/
def scanStart (bytes : ByteSeq) : Option ℕ → IoResult ℕ
  | some offset => .ok offset
  | none =>
    if bytes.take 8 = magic ∨ bytes.take 8 = compactedMagic then .ok 8
    else .error "bad document store magic"

/-- `scan_segment`: a torn record at the end of an append segment is cut off. -/
def scanSegment (l : Loading) (id : ℕ) («from» : Option ℕ) : IoResult Loading := do
  match l.segments.get? id with
  | none => .error "file not found"
  | some bytes =>
    if bytes.length < 8 then .error "unexpected end of file"
    else
      let start ← scanStart bytes «from»
      let scanned := scan start (bytes.drop start)
      let applied := scanned.1.foldl (Loading.apply id) l
      match scanned.2 with
      | .clean => .ok applied
      | .torn cut =>
        if bytes.take 8 = magic then
          .ok { applied with segments := applied.segments.insert id (bytes.take cut) }
        else .error "unexpected end of file"
      | .invalid => .error "invalid data"

def load (dir : StoreDir) : IoResult Loading :=
  dir.listSegmentIds.foldlM (fun l id => scanSegment l id none) ⟨dir.segments, .empty, 0⟩

/-- The segments of the saved maps that are still there, with the end of what the
maps cover; none when the maps do not match the files. -/
def tails (dir : StoreDir) (inUse : List ℕ) : List (ℕ × ℕ) → Option (List (ℕ × ℕ))
  | [] => some []
  | (id, stop) :: rest =>
    match dir.segments.get? id with
    | some bytes =>
      if stop ≤ bytes.length then (tails dir inUse rest).map ((id, stop) :: ·) else none
    -- deleted by a compaction after the snapshot, and nothing points into it
    | none => if id ∈ inUse then none else tails dir inUse rest

/-- A segment the saved maps do not know: a compaction output whose install did
not finish is removed, an append segment is read. -/
def scanUnknown (known : List ℕ) (l : Loading) (id : ℕ) : IoResult Loading := do
  if id ∈ known then .ok l
  else
    match l.segments.get? id with
    | none => .error "file not found"
    | some bytes =>
      if bytes.length < 8 then .error "unexpected end of file"
      else if bytes.take 8 = compactedMagic then .ok { l with segments := l.segments.erase id }
      else scanSegment l id none

def savedMaps (dir : StoreDir) (saved : MapsFile) : Loading where
  segments := dir.segments
  locations := saved.entries.foldl (fun m e => m.insert e.1 e.2) .empty
  highestId := saved.entries.foldl (fun h e => max h e.2.internalId) saved.highestId

/-- `load_from_maps`: none when the saved maps cannot be used. -/
def loadFromMaps (dir : StoreDir) : IoResult (Option Loading) := do
  match dir.maps with
  | none => .ok none
  | some saved =>
    match tails dir (saved.entries.map fun e => e.2.segment) saved.segmentEnds with
    | none => .ok none
    | some ends =>
      let l ← ends.foldlM (fun l e => scanSegment l e.1 (some e.2)) (dir.savedMaps saved)
      let l ← dir.listSegmentIds.foldlM (scanUnknown (saved.segmentEnds.map Prod.fst)) l
      .ok (some l)

end StoreDir

/-- `BinaryDocumentStore`, with the documents its cache holds. -/
structure BinaryDocumentStore where
  dir : StoreDir
  docs : SortedMap String StoredDocument
  locations : Locations
  currentSegment : ℕ
  nextSegmentId : ℕ
  highestId : DocId

structure SegmentCompactionJob where
  segmentIds : List ℕ
  nextSegmentId : ℕ
  locationsSnapshot : List (String × DocLocation)

/-- `CompletedSegmentCompaction`, with the content of its temporary file. -/
structure CompletedSegmentCompaction where
  oldSegmentIds : List ℕ
  newSegmentId : ℕ
  bytes : ByteSeq
  newLocations : List (String × DocLocation)

namespace BinaryDocumentStore

open StoreDir Keyed

def setSegments (s : BinaryDocumentStore) (segments : SortedMap ℕ ByteSeq) :
    BinaryDocumentStore :=
  { s with dir := { s.dir with segments } }

def defaultSegmentSize : ℕ := 128 * 1024 * 1024

def nextId (segments : SortedMap ℕ ByteSeq) : ℕ :=
  (segments.entries.map Prod.fst).foldl max 0 + 1

/-- New writes go to the newest append segment, never into a compaction
output. -/
def appendTo (segments : SortedMap ℕ ByteSeq) (next : ℕ) : IoResult (ℕ × ℕ × SortedMap ℕ ByteSeq) :=
  match segments.entries.getLast? with
  | none => .ok (next, next + 1, segments.insert next magic)
  | some (id, bytes) =>
    if bytes.length < 8 then .error "unexpected end of file"
    else if bytes.take 8 = magic then .ok (id, next, segments)
    else .ok (next, next + 1, segments.insert next magic)

def loadEither (dir : StoreDir) : IoResult Loading := do
  match ← loadFromMaps dir with
  | some l => .ok l
  | none => load dir

def ensureSegment (dir : StoreDir) : StoreDir :=
  if dir.segments.entries = [] then { dir with segments := dir.segments.insert 0 magic } else dir

def openWithMaps (dir : StoreDir) : IoResult BinaryDocumentStore := do
  let dir := ensureSegment dir
  let l ← loadEither dir
  let (current, next, segments) ← appendTo l.segments (nextId dir.segments)
  .ok ⟨⟨segments, dir.maps⟩, .empty, l.locations, current, next, l.highestId⟩

def maybeRotateSegment (s : BinaryDocumentStore) : IoResult BinaryDocumentStore :=
  match s.dir.segments.get? s.currentSegment with
  | none => .error "file not found"
  | some bytes =>
    if bytes.length < defaultSegmentSize then .ok s
    else .ok { s.setSegments (s.dir.segments.insert s.nextSegmentId magic) with
      currentSegment := s.nextSegmentId
      nextSegmentId := s.nextSegmentId + 1 }

def appendBytes (s : BinaryDocumentStore) (bytes : ByteSeq) : BinaryDocumentStore :=
  s.setSegments (s.dir.segments.upsert s.currentSegment fun old => old.getD [] ++ bytes)

/-- The place of a document in a put record that starts at `start`. -/
def locationAt (segment start : ℕ) (doc : StoredDocument) : DocLocation :=
  ⟨doc.internalId, start + 1, segment, (writeDocument doc).length % 2 ^ 32⟩

def appendPut (s : BinaryDocumentStore) (doc : StoredDocument) :
    IoResult (DocLocation × BinaryDocumentStore) :=
  match s.dir.segments.get? s.currentSegment with
  | none => .error "file not found"
  | some bytes => do
    let rotated ← (s.appendBytes (StoreRecord.put doc).encode).maybeRotateSegment
    .ok (locationAt s.currentSegment bytes.length doc, rotated)

def put (s : BinaryDocumentStore) (doc : StoredDocument) : IoResult BinaryDocumentStore := do
  let (location, s) ← s.appendPut doc
  .ok { s with
    highestId := max s.highestId doc.internalId
    locations := s.locations.insert doc.externalId location
    docs := s.docs.insert doc.externalId doc }

/-- One document of `put_batch`: the highest id is not raised. -/
def putOne (s : BinaryDocumentStore) (doc : StoredDocument) : BinaryDocumentStore :=
  let start := ((s.dir.segments.get? s.currentSegment).getD []).length
  { s.appendBytes (StoreRecord.put doc).encode with
    locations := s.locations.insert doc.externalId (locationAt s.currentSegment start doc)
    docs := s.docs.insert doc.externalId doc }

/-- `put_batch`: one file for the whole batch, rotated at the end. -/
def putBatch (s : BinaryDocumentStore) (docs : List StoredDocument) :
    IoResult BinaryDocumentStore :=
  (docs.foldl putOne s).maybeRotateSegment

def get (s : BinaryDocumentStore) (x : String) :
    IoResult (Option StoredDocument × BinaryDocumentStore) :=
  match s.docs.get? x with
  | some doc => .ok (some doc, s)
  | none =>
    match s.locations.get? x with
    | none => .ok (none, s)
    | some loc => do
      let doc ← s.dir.readDocumentAtPath loc.segment loc.offset
      .ok (some doc, { s with docs := s.docs.insert x doc })

def delete (s : BinaryDocumentStore) (x : String) : IoResult BinaryDocumentStore :=
  match s.locations.get? x with
  | none => .ok s
  | some loc =>
    match s.dir.segments.get? s.currentSegment with
    | none => .error "file not found"
    | some _ => do
      let s ← (s.appendBytes (StoreRecord.delete x loc.internalId).encode).maybeRotateSegment
      .ok { s with locations := s.locations.erase x, docs := s.docs.erase x }

def currentMaps (s : BinaryDocumentStore) (highestId : DocId) : MapsFile where
  segmentEnds := s.dir.segments.entries.map fun e => (e.1, e.2.length)
  entries := s.locations.entries
  highestId := highestId

def saveMaps (s : BinaryDocumentStore) (highestId : DocId) : BinaryDocumentStore :=
  { s with dir := { s.dir with maps := some (s.currentMaps highestId) } }

/-! ### Compaction -/

def liveBytes (s : BinaryDocumentStore) (id : ℕ) : ℕ :=
  ((s.locations.entries.filter fun e => e.2.segment = id).map fun e => e.2.len + 1).sum

/-- The segments below the current one with enough dead bytes.  `deadEnough`
compares one minus the quotient of live and total bytes with the threshold. -/
def candidates (s : BinaryDocumentStore) (deadEnough : ℕ → ℕ → Bool) : List (ℕ × ℕ) :=
  s.dir.segments.entries.filterMap fun e =>
    let total := e.2.length - 8
    let live := min (s.liveBytes e.1) total
    if e.1 < s.currentSegment ∧ total ≠ 0 ∧ deadEnough live total then some (e.1, live) else none

/-- The loop that picks candidates up to the target size, the first always. -/
def pick (targetSize : ℕ) : ℕ → Bool → List (ℕ × ℕ) → List ℕ
  | _, _, [] => []
  | running, first, (id, live) :: rest =>
    if !first && targetSize < running + live then []
    else if targetSize ≤ running + live then [id]
    else id :: pick targetSize (running + live) false rest

/-- `plan_compaction`.  `tie` orders candidates with the same number of live
bytes, which the sort leaves open. -/
def planCompaction (s : BinaryDocumentStore) (deadEnough : ℕ → ℕ → Bool) (tie : ℕ → ℕ)
    (targetSize : ℕ) : Option SegmentCompactionJob × BinaryDocumentStore :=
  let found := s.candidates deadEnough
  if found = [] then (none, s)
  else
    let selected := pick targetSize 0 true
      (sortBy Prod.snd (sortBy (fun c => tie c.1) found))
    let snapshot := s.locations.entries.filter fun e => e.2.segment ∈ selected
    (some ⟨selected, s.nextSegmentId,
      sortBy (fun e => e.2.segment) (sortBy (fun e => e.2.offset) snapshot)⟩,
     { s with nextSegmentId := s.nextSegmentId + 1 })

/-- The check that a record read for a copy starts with the external id. -/
def belongsTo (record : ByteSeq) (x : String) : Bool :=
  4 ≤ record.length && leNat (record.take 4) = (utf8 x).length &&
    (record.drop 4).take (utf8 x).length = utf8 x

/-- One record copied by `run_segment_compaction`. -/
def copyRecord (dir : StoreDir) (out : ℕ) (acc : ByteSeq × List (String × DocLocation))
    (e : String × DocLocation) : IoResult (ByteSeq × List (String × DocLocation)) :=
  match dir.segments.get? e.2.segment with
  | none => .error "file not found"
  | some bytes =>
    let record := (bytes.drop e.2.offset).take e.2.len
    if record.length < e.2.len then .error "unexpected end of file"
    else if belongsTo record e.1 then
      .ok (acc.1 ++ 1 :: record,
        acc.2 ++ [(e.1, ⟨e.2.internalId, acc.1.length + 1, out, e.2.len⟩)])
    else .error "record does not belong to the document"

def runSegmentCompaction (dir : StoreDir) (job : SegmentCompactionJob) :
    IoResult CompletedSegmentCompaction := do
  let (bytes, newLocations) ←
    job.locationsSnapshot.foldlM (copyRecord dir job.nextSegmentId) (compactedMagic, [])
  .ok ⟨job.segmentIds, job.nextSegmentId, bytes, newLocations⟩

/-- A place that still lies in a removed segment is replaced by the copy's. -/
def relocate (old : List ℕ) (locations : Locations) (e : String × DocLocation) : Locations :=
  match locations.get? e.1 with
  | some current => if current.segment ∈ old then locations.insert e.1 e.2 else locations
  | none => locations

/-- Whether some document was redirected, the result of the install. -/
def anyRelocated (old : List ℕ) (locations : Locations) (new : List (String × DocLocation)) : Bool :=
  new.any fun e => (locations.get? e.1).any fun current => current.segment ∈ old

/-- `install_segment_compaction`.  The maps are saved before the old segments
go, and again after. -/
def installSegmentCompaction (s : BinaryDocumentStore) (c : CompletedSegmentCompaction) :
    Bool × BinaryDocumentStore :=
  let renamed := s.setSegments (s.dir.segments.insert c.newSegmentId c.bytes)
  let moved := { renamed with
    locations := c.newLocations.foldl (relocate c.oldSegmentIds) s.locations }
  let saved := moved.saveMaps s.highestId
  let removed := saved.setSegments (saved.dir.segments.filter fun e => e.1 ∉ c.oldSegmentIds)
  (anyRelocated c.oldSegmentIds s.locations c.newLocations, removed.saveMaps s.highestId)

end BinaryDocumentStore

/-! ### Runs of a store -/

/-- The compaction the background worker of a shard is busy with, at most one at
a time. -/
inductive Compacting where
  | idle
  | planned (job : SegmentCompactionJob)
  | completed (c : CompletedSegmentCompaction)

structure StoreRun where
  store : BinaryDocumentStore
  compacting : Compacting

abbrev FittingDocument := { doc : StoredDocument // doc.Fits }

inductive StoreStep where
  | put (doc : FittingDocument)
  | putBatch (docs : List FittingDocument)
  | delete (externalId : String)
  | get (externalId : String)
  | evict (externalId : String)
  | saveMaps
  | planCompaction (deadEnough : ℕ → ℕ → Bool) (tie : ℕ → ℕ) (targetSize : ℕ)
  | runCompaction
  | abandonCompaction
  | installCompaction
  /-- The process ends and the store is opened again; a compaction under way is
  lost. -/
  | reopen

namespace StoreRun

open BinaryDocumentStore

def withStore (r : StoreRun) (s : IoResult BinaryDocumentStore) : IoResult StoreRun := do
  let store ← s
  .ok { r with store }

/-- One step; a compaction step without the state it needs does nothing. -/
def step (r : StoreRun) : StoreStep → IoResult StoreRun
  | .put doc => r.withStore (r.store.put doc.1)
  | .putBatch docs => r.withStore (r.store.putBatch (docs.map Subtype.val))
  | .delete x => r.withStore (r.store.delete x)
  | .get x => r.withStore ((r.store.get x).map Prod.snd)
  | .evict x => .ok { r with store := { r.store with docs := r.store.docs.erase x } }
  | .saveMaps => .ok { r with store := r.store.saveMaps r.store.highestId }
  | .planCompaction deadEnough tie targetSize =>
    match r.compacting, r.store.planCompaction deadEnough tie targetSize with
    | .idle, (some job, store) => .ok ⟨store, .planned job⟩
    | _, _ => .ok r
  | .runCompaction =>
    match r.compacting with
    | .planned job => do
      let c ← runSegmentCompaction r.store.dir job
      .ok { r with compacting := .completed c }
    | _ => .ok r
  | .abandonCompaction => .ok { r with compacting := .idle }
  | .installCompaction =>
    match r.compacting with
    | .completed c => .ok ⟨(r.store.installSegmentCompaction c).2, .idle⟩
    | _ => .ok r
  | .reopen => do
    let store ← openWithMaps r.store.dir
    .ok ⟨store, .idle⟩

def run (r : StoreRun) (steps : List StoreStep) : IoResult StoreRun := steps.foldlM step r

def new : StoreRun :=
  ⟨⟨⟨SortedMap.empty.insert 0 StoreDir.magic, none⟩, .empty, .empty, 0, 1, 0⟩, .idle⟩

end StoreRun

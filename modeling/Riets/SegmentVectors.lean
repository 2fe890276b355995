/-
The vectors of the live segments.

An entry is the opened vector file of a field of a live disk segment, with the graph over
it once one is attached.  Vector files and graphs are written outside of the lock and
installed later: an install finds out by itself whether what it was started from is still
there.
-/
import Riets.GraphRoundTrip
import Riets.Manifest
import Riets.VectorFormat

structure OpenedVectors where
  path : String
  bytes : ByteSeq
  file : VectorFormat.VectorFile
  opens : VectorFormat.VectorFile.openFile path bytes true = .ok file

namespace OpenedVectors

def open? (path : String) (bytes : ByteSeq) : Option OpenedVectors :=
  match h : VectorFormat.VectorFile.openFile path bytes true with
  | .ok file => some ⟨path, bytes, file, h⟩
  | _ => none

def vectors (v : OpenedVectors) : VectorFile := ⟨v.file.fileId, v.file.count, v.file.dims⟩

end OpenedVectors

structure GraphOnDisk where
  bytes : ByteSeq
  source : OpenedVectors
  written : ∃ (g : GraphUnderConstruction) (tmpPath : String),
    g.write tmpPath source.file.fileId source.file.dims = .ok bytes

structure AttachedGraph where
  graph : HnswGraph
  source : OpenedVectors

structure SegmentVectors where
  segment : ℕ
  xpath : XPathId
  file : OpenedVectors
  graph : Option AttachedGraph

def SegmentVectors.key (e : SegmentVectors) : ℕ × XPathId := (e.segment, e.xpath)

def vectorFilePath (segment : ℕ) (xpath : XPathId) : String :=
  "segment-" ++ toString segment ++ "." ++ toString xpath ++ ".vec"

def hnswFilePath (segment : ℕ) (xpath : XPathId) : String :=
  "segment-" ++ toString segment ++ "." ++ toString xpath ++ ".hnsw"

structure IndexVectors where
  entries : List SegmentVectors
  vectorFiles : ℕ → SortedMap XPathId ByteSeq
  graphFiles : ℕ → XPathId → Option GraphOnDisk

namespace IndexVectors

open OpenedVectors

variable (v : IndexVectors) (segment : ℕ) (xpath : XPathId)

def writeVectorFile (bytes : ByteSeq) : IndexVectors :=
  { v with
    vectorFiles := Function.update v.vectorFiles segment
      ((v.vectorFiles segment).insert xpath bytes) }

def removeVectorFile : IndexVectors :=
  { v with
    vectorFiles := Function.update v.vectorFiles segment ((v.vectorFiles segment).erase xpath) }

def setGraphFile (g : Option GraphOnDisk) : IndexVectors :=
  { v with
    graphFiles := Function.update v.graphFiles segment
      (Function.update (v.graphFiles segment) xpath g) }

def entry? : Option SegmentVectors := v.entries.find? fun e => e.key = (segment, xpath)

def modifyEntry (f : SegmentVectors → SegmentVectors) : List SegmentVectors → List SegmentVectors
  | [] => []
  | e :: entries => if e.key = (segment, xpath) then f e :: entries else e :: modifyEntry f entries

/-- `attach_vectors`; none when the file does not open. -/
def attachVectors : Option IndexVectors := do
  let bytes ← (v.vectorFiles segment).get? xpath
  let file ← open? (vectorFilePath segment xpath) bytes
  match v.entry? segment xpath with
  | some existing =>
    let replaced : IndexVectors :=
      { v with
        entries := modifyEntry segment xpath (fun e => { e with file := file, graph := none }) v.entries }
    some (if existing.graph.isSome then replaced.setGraphFile segment xpath none else replaced)
  | none => some { v with entries := v.entries ++ [⟨segment, xpath, file, none⟩] }

def installVectors (live : List ℕ) : IndexVectors :=
  if segment ∈ live then (v.attachVectors segment xpath).getD v
  else v.removeVectorFile segment xpath

def openGraphFile (g : GraphOnDisk) (file : OpenedVectors) : Fallible HnswGraph :=
  HnswGraph.openGraph (hnswFilePath segment xpath) g.bytes file.vectors true

def installGraph : IndexVectors :=
  match v.entry? segment xpath with
  | none => v.setGraphFile segment xpath none
  | some e =>
    match v.graphFiles segment xpath with
    | none => v
    | some g =>
      match openGraphFile segment xpath g e.file with
      | .ok graph =>
        { v with
          entries := modifyEntry segment xpath
            (fun e => { e with graph := some ⟨graph, g.source⟩ }) v.entries }
      | .err _ => v.setGraphFile segment xpath none
      | .fault => v

/-- `drop_vectors_for`: forgets the entries of a segment and removes their files. -/
def dropVectorsFor : IndexVectors :=
  (v.entries.filter fun e => e.segment = segment).foldl
    (fun v e => (v.removeVectorFile segment e.xpath).setGraphFile segment e.xpath none)
    { v with entries := v.entries.filter fun e => e.segment ≠ segment }

/-- The end of an installed compaction: the selected segments lose their vectors, the fields of
the output are attached. -/
def compacted (selected : List SegmentHandle) (output : ℕ) (vectorXpaths : List XPathId) :
    IndexVectors :=
  vectorXpaths.foldl
    (fun v x => (v.attachVectors output x).getD (v.removeVectorFile output x))
    ((selected.filterMap SegmentHandle.path?).foldl dropVectorsFor v)

def dropOutput (output : ℕ) (vectorXpaths : List XPathId) : IndexVectors :=
  vectorXpaths.foldl (fun v x => v.removeVectorFile output x) v

/-- `open_graph`: the graph of a file that opens, and whether its file stays. -/
def graphOf (file : OpenedVectors) : Option AttachedGraph × Bool :=
  match v.graphFiles segment xpath with
  | none => (none, true)
  | some g =>
    match openGraphFile segment xpath g file with
    | .ok graph => (some ⟨graph, g.source⟩, true)
    | .err _ => (none, false)
    | .fault => (none, true)

def entriesOf : List SegmentVectors :=
  (v.vectorFiles segment).entries.filterMap fun e =>
    (open? (vectorFilePath segment e.1) e.2).map fun file =>
      ⟨segment, e.1, file, (v.graphOf segment e.1 file).1⟩

/-- The vectors part of `LsmIndex::persistent`; files that do not open are removed. -/
def persistent (segments : List ℕ) : IndexVectors where
  entries := segments.flatMap v.entriesOf
  vectorFiles s :=
    if s ∈ segments then
      (v.vectorFiles s).filter fun e => (open? (vectorFilePath s e.1) e.2).isSome
    else v.vectorFiles s
  graphFiles s x :=
    if s ∈ segments ∧ ∃ bytes ∈ (v.vectorFiles s).get? x,
        ∃ file ∈ open? (vectorFilePath s x) bytes, (v.graphOf s x file).2 = false then none
    else v.graphFiles s x

end IndexVectors

structure VectorWorld where
  core : ManifestWorld
  vectors : IndexVectors

inductive VectorStep where
  | index (st : ManifestStep)
  /-- `install_compaction`; the job wrote vector files for these fields. -/
  | installCompaction (jobId : ℕ) (vectorXpaths : List XPathId)
  | writeVectors (segment : ℕ) (xpath : XPathId) (bytes : ByteSeq)
  | installVectors (segment : ℕ) (xpath : XPathId)
  | writeGraph (segment : ℕ) (xpath : XPathId) (g : GraphOnDisk)
  | installGraph (segment : ℕ) (xpath : XPathId)
  | reopen (deleted : DeleteSet)

namespace VectorWorld

def start (manifest : List (ℕ × Segment)) (deleted : DeleteSet) (files : IndexVectors) : VectorWorld :=
  ⟨ManifestWorld.start manifest deleted, files.persistent (manifest.map Prod.fst)⟩

/-- What `install_compaction` does to the vectors. -/
def compactVectors (w : VectorWorld) (jobId : ℕ) (vectorXpaths : List XPathId) : IndexVectors :=
  match w.core.world.finished.find? fun job => job.jobId = jobId with
  | none => w.vectors
  | some job =>
    if ¬w.core.world.index.hasRoot then w.vectors
    else if w.core.world.index.isStale job.completed then
      w.vectors.dropOutput job.outputPath vectorXpaths
    else
      match w.core.world.output job true with
      | .error _ => w.vectors
      | .ok _ => w.vectors.compacted job.selected job.outputPath vectorXpaths

def step (w : VectorWorld) : VectorStep → VectorWorld
  | .index st => { w with core := w.core.step st }
  | .installCompaction jobId vectorXpaths =>
    ⟨w.core.step (.act (.installCompaction jobId true true true) []),
      w.compactVectors jobId vectorXpaths⟩
  | .writeVectors segment xpath bytes =>
    { w with vectors := w.vectors.writeVectorFile segment xpath bytes }
  | .installVectors segment xpath =>
    { w with vectors := w.vectors.installVectors segment xpath w.core.world.live }
  | .writeGraph segment xpath g => { w with vectors := w.vectors.setGraphFile segment xpath (some g) }
  | .installGraph segment xpath => { w with vectors := w.vectors.installGraph segment xpath }
  | .reopen deleted =>
    match w.core.openSegments with
    | none => w
    | some manifest => start manifest deleted w.vectors

def run (w : VectorWorld) (steps : List VectorStep) : VectorWorld := steps.foldl step w

end VectorWorld

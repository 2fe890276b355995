/-
Runs of the live index.

A `World` is an index together with what is under way outside of it: the segment
files, the flush jobs handed to the writer, the compactions that were planned
and the ones that ran and wait to be installed.

A run starts in a `Fresh` world: an index just made, or just opened from a
manifest.
-/
import Riets.LsmIndex

def MemIndex.ofDocuments (docs : List AnalyzedDocument) : MemIndex :=
  docs.foldl MemIndex.addAnalyzedDocument MemIndex.new

def openHandle (files : SortedMap ℕ Segment) : SegmentHandle → Option Segment
  | .memory s => some s
  | .disk p => files.get? p

structure World where
  index : LsmIndex
  files : SortedMap ℕ Segment
  writing : List FlushJob
  planned : List CompactionJob
  finished : List CompactionJob

inductive IndexAction where
  | mergeIntoMemtable (docs : List AnalyzedDocument)
  | deleteDocument (docId : DocId) (appendOk : Bool)
  | publishSnapshot (busy : ℕ → Bool)
  | queueFlush (busy : ℕ → Bool) (syncOk : Bool)
  | takeFlushJobs
  | completeFlush (seq : ℕ) (writeOk appendOk : Bool)
  | planCompaction (config : CompactionConfig) (quiet : Bool) (fileSize : ℕ → ℕ)
  | runCompaction (jobId : ℕ) (ok : Bool)
  | installCompaction (jobId : ℕ) (openOk manifestOk clearOk : Bool)

def IndexAction.documents : IndexAction → List AnalyzedDocument
  | .mergeIntoMemtable docs => docs
  | _ => []

def IndexAction.Adds (d : DocId) (a : IndexAction) : Prop := ∃ doc ∈ a.documents, doc.docId = d

/-- The action brings in a document that files field `x` under rows. -/
def IndexAction.RowKeys (x : XPathId) (a : IndexAction) : Prop := ∃ doc ∈ a.documents, doc.RowKeyed x

namespace World

/-- The writer reports job `seq`.  Its file is read by nobody before, so writing
it and reporting it are one step. -/
def completeFlush (w : World) (seq : ℕ) (writeOk appendOk : Bool) : World :=
  match w.writing.find? fun job => job.seq = seq with
  | none => w
  | some job =>
    let written : IoResult Segment := if writeOk then .ok job.write else .error "write segment"
    { w with
      index := (w.index.completeFlush seq written appendOk).2
      files := if writeOk then w.files.insert job.path job.write else w.files
      writing := w.writing.filter fun job => job.seq ≠ seq }

def planCompaction (w : World) (config : CompactionConfig) (quiet : Bool) (fileSize : ℕ → ℕ) :
    World :=
  let planned := w.index.planCompaction config quiet fileSize
  { w with index := planned.2, planned := w.planned ++ planned.1.toList }

/-- The background worker runs a planned job: it opens the inputs, merges them
and writes the output.  A job that fails is dropped. -/
def runCompaction (w : World) (jobId : ℕ) (ok : Bool) : World :=
  match w.planned.find? fun job => job.jobId = jobId with
  | none => w
  | some job =>
    let rest := { w with planned := w.planned.filter fun job => job.jobId ≠ jobId }
    match (if ok then job.selected.mapM (openHandle w.files) else none) with
    | none => rest
    | some opened =>
      match Compaction.compactSegments opened job.deleted with
      | none => rest
      | some file =>
        { rest with
          files := w.files.insert job.outputPath file.open
          finished := w.finished ++ [job] }

def removeSelected (files : SortedMap ℕ Segment) (selected : List SegmentHandle) :
    SortedMap ℕ Segment :=
  files.filter fun e => .disk e.1 ∉ selected

def output (w : World) (job : CompactionJob) (openOk : Bool) : IoResult Segment :=
  match (if openOk then w.files.get? job.outputPath else none) with
  | some disk => .ok disk
  | none => .error "open segment"

def installCompaction (w : World) (jobId : ℕ) (openOk manifestOk clearOk : Bool) : World :=
  match w.finished.find? fun job => job.jobId = jobId with
  | none => w
  | some job =>
    let output := w.output job openOk
    { w with
      index := (w.index.installCompaction job.completed output manifestOk clearOk).2
      files :=
        if w.index.hasRoot ∧ w.index.isStale job.completed then w.files.erase job.outputPath
        else if w.index.hasRoot ∧ manifestOk ∧ output.isOk then removeSelected w.files job.selected
        else w.files
      finished := w.finished.filter fun job => job.jobId ≠ jobId }

def step (w : World) : IndexAction → World
  | .mergeIntoMemtable docs =>
    { w with index := w.index.mergeIntoMemtable (MemIndex.ofDocuments docs) }
  | .deleteDocument docId appendOk => { w with index := (w.index.deleteDocument docId appendOk).2 }
  | .publishSnapshot busy => { w with index := (w.index.publishSnapshot busy).1 }
  | .queueFlush busy syncOk => { w with index := (w.index.queueFlush busy syncOk).2 }
  | .takeFlushJobs =>
    { w with
      index := w.index.takeFlushJobs.2
      writing := w.writing ++ w.index.takeFlushJobs.1 }
  | .completeFlush seq writeOk appendOk => w.completeFlush seq writeOk appendOk
  | .planCompaction config quiet fileSize => w.planCompaction config quiet fileSize
  | .runCompaction jobId ok => w.runCompaction jobId ok
  | .installCompaction jobId openOk manifestOk clearOk =>
    w.installCompaction jobId openOk manifestOk clearOk

def run (w : World) (actions : List IndexAction) : World := actions.foldl step w

@[simp] theorem run_nil (w : World) : w.run [] = w := rfl

@[simp] theorem run_cons (w : World) (a : IndexAction) (as : List IndexAction) :
    w.run (a :: as) = (w.step a).run as := rfl

theorem run_append (w : World) (as bs : List IndexAction) : w.run (as ++ bs) = (w.run as).run bs :=
  List.foldl_append

def start (manifest : List (ℕ × Segment)) (deleted : DeleteSet) : World where
  index := LsmIndex.persistent manifest deleted
  files := SortedMap.empty.extend (fun _ s => s) manifest
  writing := []
  planned := []
  finished := []

def inMemory : World where
  index := LsmIndex.new
  files := SortedMap.empty
  writing := []
  planned := []
  finished := []

/-- A run starts with an index that was just made or just opened; a manifest
lists no file twice. -/
inductive Fresh : World → Prop
  | inMemory : Fresh inMemory
  | opened (manifest : List (ℕ × Segment)) (deleted : DeleteSet) :
      (manifest.map Prod.fst).Nodup → Fresh (start manifest deleted)

end World

/-
The live index.

An `LsmIndex` keeps an active table, sealed tables (generations, oldest
first), tables queued to be written (pending flushes), the live segments and
the tombstones.  Every operation is a function of the state; what comes from
outside is an argument: whether a file operation succeeded, which sealed
tables a published snapshot still reads, how large the segment files are and
whether documents stopped arriving.

Vectors are left out: no operation on documents reads them.
-/
import Riets.Snapshot
import Mathlib.Data.Finset.Lattice.Fold

abbrev IoResult (α : Type) := Except String α

inductive SegmentHandle where
  | memory (segment : Segment)
  | disk (path : ℕ)
  deriving DecidableEq

namespace SegmentHandle

def path? : SegmentHandle → Option ℕ
  | memory _ => none
  | disk p => some p

end SegmentHandle

structure FlushJob where
  seq : ℕ
  path : ℕ
  generations : List MemIndex

def FlushJob.write (job : FlushJob) : Segment := (MemIndex.freezeShared job.generations).openWritten

/-- A flush that is not installed yet. -/
structure PendingFlush where
  seq : ℕ
  path : ℕ
  generations : List MemIndex
  /-- Segments added since this flush was queued; it installs before them. -/
  addedAfter : ℕ

structure FlushQueue where
  madeNotFlushed : List FlushJob
  pending : List PendingFlush
  nextSeq : ℕ
  failure : Option String

namespace FlushQueue

def empty : FlushQueue := ⟨[], [], 0, none⟩

def push (q : FlushQueue) (path : ℕ) (generations : List MemIndex) : FlushQueue :=
  { q with
    nextSeq := q.nextSeq + 1
    pending := q.pending ++ [⟨q.nextSeq, path, generations, 0⟩]
    madeNotFlushed := q.madeNotFlushed ++ [⟨q.nextSeq, path, generations⟩] }

def segmentAdded (q : FlushQueue) : FlushQueue :=
  { q with pending := q.pending.map fun p => { p with addedAfter := p.addedAfter + 1 } }

def takeJobs (q : FlushQueue) : List FlushJob × FlushQueue :=
  (q.madeNotFlushed, { q with madeNotFlushed := [] })

/-- Removes the oldest pending flush; `seq` must be it. -/
def complete (q : FlushQueue) (seq : ℕ) : IoResult (PendingFlush × FlushQueue) :=
  match q.pending with
  | front :: rest =>
    if front.seq = seq then .ok (front, { q with pending := rest })
    else .error ("segment write " ++ toString seq ++ " finished out of order")
  | [] => .error ("segment write " ++ toString seq ++ " finished out of order")

def fail (q : FlushQueue) (error : String) : FlushQueue :=
  { q with failure := some (q.failure.getD error) }

def health (q : FlushQueue) : IoResult Unit :=
  match q.failure with
  | some message => .error ("segment write failed earlier: " ++ message)
  | none => .ok ()

end FlushQueue

structure CompactionConfig where
  maxSegmentsPerCompaction : ℕ
  compactWhenSegmentsAtLeast : ℕ
  sizeRatio : ℕ
  minWidth : ℕ
  maxSegments : ℕ
  deriving DecidableEq, Repr

namespace CompactionConfig

def default : CompactionConfig where
  maxSegmentsPerCompaction := 16
  compactWhenSegmentsAtLeast := 2
  sizeRatio := 2
  minWidth := 4
  maxSegments := 10

end CompactionConfig

structure CompactionJob where
  jobId : ℕ
  selected : List SegmentHandle
  deleted : DeleteSet
  deleteGeneration : ℕ
  outputPath : ℕ
  deriving DecidableEq

structure CompletedCompaction where
  jobId : ℕ
  selected : List SegmentHandle
  outputPath : ℕ
  deleteGeneration : ℕ
  deriving DecidableEq

def CompactionJob.completed (job : CompactionJob) : CompletedCompaction :=
  ⟨job.jobId, job.selected, job.outputPath, job.deleteGeneration⟩

/-- `LSMIndex`: memory, generations, flushes, parts, tombstones. -/
structure LsmIndex where
  mem : MemIndex
  generations : List MemIndex
  segmentHandles : List SegmentHandle
  querySegments : List Segment
  flushQueue : FlushQueue
  deleted : DeleteSet
  deleteGeneration : ℕ
  hasRoot : Bool
  nextSegmentId : ℕ
  nextDocId : DocId
  nextCompactionJobId : ℕ
  maxArrayRow : ArrayRowId

namespace LsmIndex

open MemIndex

def new : LsmIndex where
  mem := MemIndex.new
  generations := []
  segmentHandles := []
  querySegments := []
  flushQueue := FlushQueue.empty
  deleted := ∅
  deleteGeneration := 0
  hasRoot := false
  nextSegmentId := 0
  nextDocId := 0
  nextCompactionJobId := 0
  maxArrayRow := 0

def persistent (manifest : List (ℕ × Segment)) (deleted : DeleteSet) : LsmIndex where
  mem := MemIndex.new
  generations := []
  segmentHandles := manifest.map fun e => .disk e.1
  querySegments := manifest.map Prod.snd
  flushQueue := FlushQueue.empty
  deleted := deleted
  deleteGeneration := 0
  hasRoot := true
  nextSegmentId := manifest.foldl (fun n e => max n (e.1 + 1)) 0
  nextDocId := manifest.foldl (fun n e => match e.2.docIdRange with
    | some (_, hi) => max n (hi + 1)
    | none => n) 0
  nextCompactionJobId := 0
  maxArrayRow := manifest.foldl (fun n e => max n (e.2.arrayRowIndex.maxArrayRow.getD 0)) 0

def highestKnownDocId (i : LsmIndex) : DocId := max (i.nextDocId - 1) (i.deleted.sup id)

/-! ### Sealing and snapshots -/

/-- Stacks a sealed table on the generations, newest first, merging the ones
that are not larger and that no snapshot reads.  `busy n` says whether the
generation at place `n` is still read. -/
def sealInto (busy : ℕ → Bool) : List MemIndex → MemIndex → List MemIndex
  | [], table => [table]
  | newest :: older, table =>
    if newest.estimatedBytes > table.estimatedBytes ∨ busy older.length then
      table :: newest :: older
    else sealInto busy older (newest.mergeFrom table)

/-- Moves the active table to the generations, unless nothing was added. -/
def sealMem (i : LsmIndex) (busy : ℕ → Bool) : LsmIndex :=
  if i.mem.termCount = 0 ∧ i.mem.docIdRange = none then i
  else
    { i with
      mem := MemIndex.new
      generations := (sealInto busy i.generations.reverse i.mem).reverse }

def parts (i : LsmIndex) : List Reader :=
  i.generations.map .mem ++ (i.flushQueue.pending.flatMap fun p => p.generations.map .mem) ++
    i.querySegments.map .seg

def buildSnapshot (i : LsmIndex) (mem : MemIndex) : IndexSnapshot := ⟨mem, i.parts, i.deleted⟩

def publishSnapshot (i : LsmIndex) (busy : ℕ → Bool) : LsmIndex × IndexSnapshot :=
  (i.sealMem busy, (i.sealMem busy).buildSnapshot MemIndex.new)

def snapshot (i : LsmIndex) : IndexSnapshot := i.buildSnapshot i.mem

def mergeIntoMemtable (i : LsmIndex) (other : MemIndex) : LsmIndex :=
  { i with mem := i.mem.mergeFrom other }

def memtableSize (i : LsmIndex) : ℕ :=
  i.mem.estimatedBytes + (i.generations.map estimatedBytes).sum

def maxDocIdOf (generations : List MemIndex) : Option DocId :=
  (generations.filterMap fun g => g.docIdRange.map Prod.snd).max?

/-- Seals the active table and queues the generations to be written. -/
def queueFlush (i : LsmIndex) (busy : ℕ → Bool) (syncOk : Bool) : IoResult Unit × LsmIndex :=
  match i.flushQueue.health with
  | .error e => (.error e, i)
  | .ok () =>
    let i := i.sealMem busy
    if i.hasRoot ∧ ¬ syncOk then (.error "sync deletes", i)
    else if i.generations = [] then (.ok (), i)
    else
      let generations := i.generations
      let i := { i with generations := [] }
      match maxDocIdOf generations with
      | none => (.error "flushed generations contain no document ids", i)
      | some maxDocId =>
        let i := { i with nextDocId := maxDocId + 1 }
        if i.hasRoot then
          (.ok (),
            { i with
              nextSegmentId := i.nextSegmentId + 1
              flushQueue := i.flushQueue.push i.nextSegmentId generations })
        else
          let segment := freezeShared generations
          (.ok (),
            { i with
              segmentHandles := i.segmentHandles ++ [.memory segment]
              querySegments := i.querySegments ++ [segment] })

def takeFlushJobs (i : LsmIndex) : List FlushJob × LsmIndex :=
  (i.flushQueue.takeJobs.1, { i with flushQueue := i.flushQueue.takeJobs.2 })

/-- Before the segments added after the flush was queued, after everything older. -/
def flushPosition (i : LsmIndex) (pending : PendingFlush) : ℕ :=
  i.segmentHandles.length - pending.addedAfter

def installFlushed (i : LsmIndex) (pending : PendingFlush) (disk : Segment) (appendOk : Bool) :
    IoResult LsmIndex :=
  if ¬ i.hasRoot then .error "flushed segment without a root"
  else if ¬ appendOk then .error "append segment"
  else
    .ok
      { i with
        segmentHandles := i.segmentHandles.insertIdx (i.flushPosition pending) (.disk pending.path)
        querySegments := i.querySegments.insertIdx (i.flushPosition pending) disk }

/-- A flush that could not be written stays searchable from memory. -/
def keepInMemory (i : LsmIndex) (pending : PendingFlush) : LsmIndex :=
  let segment := freezeShared pending.generations
  { i with
    segmentHandles := i.segmentHandles.insertIdx (i.flushPosition pending) (.memory segment)
    querySegments := i.querySegments.insertIdx (i.flushPosition pending) segment }

def completeFlush (i : LsmIndex) (seq : ℕ) (written : IoResult Segment) (appendOk : Bool) :
    IoResult Unit × LsmIndex :=
  match i.flushQueue.complete seq with
  | .error e => (.error e, { i with flushQueue := i.flushQueue.fail e })
  | .ok (pending, queue) =>
    let i := { i with flushQueue := queue }
    match written.bind fun disk => i.installFlushed pending disk appendOk with
    | .ok i => (.ok (), i)
    | .error e =>
      let i := i.keepInMemory pending
      (.error e, { i with flushQueue := i.flushQueue.fail e })

/-! ### Planning a compaction -/

/-- Each segment's size in bytes; `none` for one still in memory. -/
def segmentSizes (i : LsmIndex) (fileSize : ℕ → ℕ) : List (Option ℕ) :=
  i.segmentHandles.map fun h => match h with
    | .disk p => some (max (fileSize p) 1)
    | .memory _ => none

/-- The segments besides the largest hold at least `1 / ratio` of it. -/
def mergeAllDue (sizes : List (Option ℕ)) (ratio : ℕ) : Bool :=
  let disk := sizes.filterMap id
  if disk.length < 2 then false
  else
    let largest := disk.max?.getD 0
    (disk.sum - largest) * max ratio 1 ≥ largest

/-- Extends a tiered run while the sizes stay within the ratio.  Returns the
end of the run and its total. -/
def tieredEnd (ratio maxWidth start : ℕ) : List (Option ℕ) → ℕ → ℕ → ℕ → ℕ → ℕ × ℕ
  | some size :: rest, stop, smallest, largest, total =>
    if stop - start < maxWidth then
      let nextSmallest := min smallest size
      let nextLargest := max largest size
      if nextLargest > nextSmallest * ratio then (stop, total)
      else tieredEnd ratio maxWidth start rest (stop + 1) nextSmallest nextLargest (total + size)
    else (stop, total)
  | _, stop, _, _, total => (stop, total)

def better (best : Option (ℕ × ℕ × ℕ)) (start stop total : ℕ) : Option (ℕ × ℕ × ℕ) :=
  match best with
  | some (_, _, bestTotal) => if total < bestTotal then some (start, stop, total) else best
  | none => some (start, stop, total)

def tieredFrom (ratio minWidth maxWidth : ℕ) :
    List (Option ℕ) → ℕ → Option (ℕ × ℕ × ℕ) → Option (ℕ × ℕ × ℕ)
  | [], _, best => best
  | none :: rest, start, best => tieredFrom ratio minWidth maxWidth rest (start + 1) best
  | some first :: rest, start, best =>
    let run := tieredEnd ratio maxWidth start rest (start + 1) first first first
    tieredFrom ratio minWidth maxWidth rest (start + 1)
      (if run.1 - start ≥ minWidth then better best start run.1 run.2 else best)

def tieredWindow (sizes : List (Option ℕ)) (ratio minWidth maxWidth : ℕ) : Option (ℕ × ℕ) :=
  (tieredFrom ratio minWidth maxWidth sizes 0 none).map fun b => (b.1, b.2.1)

def cheapestEnd (width start : ℕ) : List (Option ℕ) → ℕ → ℕ → ℕ × ℕ
  | some size :: rest, stop, total =>
    if stop - start < width then cheapestEnd width start rest (stop + 1) (total + size)
    else (stop, total)
  | _, stop, total => (stop, total)

def cheapestFrom (width : ℕ) : List (Option ℕ) → ℕ → Option (ℕ × ℕ × ℕ) → Option (ℕ × ℕ × ℕ)
  | [], _, best => best
  | size :: rest, start, best =>
    let run := cheapestEnd width start (size :: rest) start 0
    cheapestFrom width rest (start + 1)
      (if run.1 - start ≥ 2 then better best start run.1 run.2 else best)

/-- Cheapest contiguous run of disk segments, whatever their sizes. -/
def cheapestWindow (sizes : List (Option ℕ)) (width : ℕ) : Option (ℕ × ℕ) :=
  (cheapestFrom width sizes 0 none).map fun b => (b.1, b.2.1)

/-- Which neighbours to merge. -/
def chooseWindow (i : LsmIndex) (config : CompactionConfig) (quiet : Bool) (sizes : List (Option ℕ)) :
    Option (ℕ × ℕ) :=
  let diskSegments := (sizes.filter Option.isSome).length
  let maxWidth := max config.maxSegmentsPerCompaction config.minWidth
  if diskSegments < 2 then none
  else if ¬ quiet ∧ (i.flushQueue.pending ≠ [] ∨ sizes.length ≤ config.maxSegments) then none
  else if quiet ∧ diskSegments = sizes.length then
    if mergeAllDue sizes config.sizeRatio then some (0, sizes.length)
    else tieredWindow sizes config.sizeRatio 2 maxWidth
  else if i.segmentHandles.length ≥ config.compactWhenSegmentsAtLeast then
    (tieredWindow sizes config.sizeRatio config.minWidth maxWidth).or
      (if i.segmentHandles.length > config.maxSegments then cheapestWindow sizes maxWidth else none)
  else none

def planCompaction (i : LsmIndex) (config : CompactionConfig) (quiet : Bool) (fileSize : ℕ → ℕ) :
    Option CompactionJob × LsmIndex :=
  if ¬ i.hasRoot then (none, i)
  else
    match i.chooseWindow config quiet (i.segmentSizes fileSize) with
    | none => (none, i)
    | some (start, stop) =>
      (some
        { jobId := i.nextCompactionJobId
          selected := (i.segmentHandles.take stop).drop start
          deleted := i.deleted
          deleteGeneration := i.deleteGeneration
          outputPath := i.nextSegmentId },
        { i with
          nextSegmentId := i.nextSegmentId + 1
          nextCompactionJobId := i.nextCompactionJobId + 1 })

def positions (i : LsmIndex) (completed : CompletedCompaction) : List ℕ :=
  completed.selected.filterMap fun h => i.segmentHandles.idxOf? h

def removeAt {α : Type*} (positions : List ℕ) (l : List α) : List α :=
  positions.foldr (fun p l => l.eraseIdx p) l

def replaceSelected (i : LsmIndex) (completed : CompletedCompaction) (disk : Segment) : LsmIndex :=
  let at_ := sortDedup (i.positions completed)
  let insertPos := at_.head?.getD 0
  { i with
    segmentHandles :=
      (removeAt at_ i.segmentHandles).insertIdx insertPos (.disk completed.outputPath)
    querySegments := (removeAt at_ i.querySegments).insertIdx insertPos disk }

def mergedAll (i : LsmIndex) (completed : CompletedCompaction) : Bool :=
  (i.positions completed).length = i.segmentHandles.length

def isStale (i : LsmIndex) (completed : CompletedCompaction) : Bool :=
  (i.positions completed).length ≠ completed.selected.length

/-- Replaces the selected segments by the merged one.  `output` is what the
output file opens to; tombstones are dropped when every live segment was
merged and no delete arrived since planning. -/
def installCompaction (i : LsmIndex) (completed : CompletedCompaction) (output : IoResult Segment)
    (manifestOk clearOk : Bool) : IoResult Bool × LsmIndex :=
  if ¬ i.hasRoot then (.ok false, i)
  else if i.isStale completed then (.ok false, i)
  else
    match output with
    | .error e => (.error e, i)
    | .ok disk =>
      let merged := i.replaceSelected completed disk
      if ¬ manifestOk then (.error "compact manifest", merged)
      else if i.mergedAll completed ∧ completed.deleteGeneration = i.deleteGeneration then
        (if clearOk then .ok true else .error "clear deletes", { merged with deleted := ∅ })
      else (.ok true, merged)

def deleteDocument (i : LsmIndex) (docId : DocId) (appendOk : Bool) : IoResult Unit × LsmIndex :=
  (if i.hasRoot ∧ ¬ appendOk then .error "append delete" else .ok (),
    { i with
      deleted := insert docId i.deleted
      deleteGeneration := i.deleteGeneration + 1 })

end LsmIndex

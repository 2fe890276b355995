/-
Writes and checkpoints of a running shard.

The shard logs a write, stores the documents and sends them to the index worker,
which answers later.  A checkpoint closes the current segment of the write-ahead
log and takes a flush ticket: the answers still to come and that of a flush sent
after them.  When all of them are good the closed segments are removed.

The worker runs on its own, so its steps come between those of the shard, and a
write takes one step for each of its documents.
-/
import Riets.IndexWorker
import Riets.WalReplay

structure PendingCheckpoint where
  throughSegment : ℕ
  acks : List ℕ

/-- A stored document, with the segment that logged it and the answer its batch
gets, once it was sent. -/
structure WrittenDocument where
  segment : ℕ
  stored : StoredDocument
  analyzed : AnalyzedDocument
  ack : Option ℕ

inductive Call where
  | insert (inputs : List DocumentInput) (inputIndex : ℕ) (pipeline : IndexPipeline)
  | upsert (inputs : List DocumentInput)
  | delete (ids : List String)
  /-- A create record that is replayed; `fresh` has the documents to import. -/
  | recreate (inputs fresh : List DocumentInput) (batchSize : ℕ)

structure ShardDb where
  db : Database
  worker : IndexWorker
  indexInFlight : List ℕ
  wal : List (ℕ × WalRecord)
  walSegment : ℕ
  pendingCheckpoints : List PendingCheckpoint
  failed : Bool
  call : Option Call
  callSegment : ℕ
  /-- What was stored since the start and is still there, by external id. -/
  written : SortedMap String WrittenDocument

namespace ShardDb

def start (db : Database) (worker : IndexWorker) (wal : List (ℕ × WalRecord)) (walSegment : ℕ) :
    ShardDb where
  db := db
  worker := worker
  indexInFlight := []
  wal := wal
  walSegment := walSegment
  pendingCheckpoints := []
  failed := false
  call := none
  callSegment := walSegment
  written := .empty

/-- Collects the answers that are there, oldest first, up to one that is bad. -/
def collect (answers : SortedMap ℕ Bool) : List ℕ → Bool × List ℕ
  | [] => (true, [])
  | ack :: rest =>
    match answers.get? ack with
    | none => (true, ack :: rest)
    | some true => collect answers rest
    | some false => (false, rest)

def errorReturn (s : ShardDb) : Bool × ShardDb :=
  ((collect s.worker.answers s.indexInFlight).1,
    { s with indexInFlight := (collect s.worker.answers s.indexInFlight).2 })

/-- A flush ticket: `none` while the worker is busy. -/
def tryComplete (answers : SortedMap ℕ Bool) : List ℕ → Option Bool
  | [] => some true
  | ack :: rest =>
    match answers.get? ack with
    | none => none
    | some true => tryComplete answers rest
    | some false => some false

/-- Removes the closed segments, or fails the shard.  `removeOk` says whether the
files could be removed. -/
def finishCheckpoint (s : ShardDb) (throughSegment : ℕ) (ok : Bool) (removeOk : Bool) :
    Bool × ShardDb :=
  if ok ∧ removeOk then
    (true, { s with wal := s.wal.filter fun entry => throughSegment < entry.1 })
  else (false, { s with failed := true, pendingCheckpoints := [] })

/-- Finishes the checkpoints in turn whose ticket is complete.  Returns the
segments up to which the log was removed and whether all went well. -/
def reapFrom (removeOk : ℕ → Bool) :
    List PendingCheckpoint → ShardDb → List ℕ × Bool × ShardDb
  | [], s => ([], true, s)
  | checkpoint :: rest, s =>
    match tryComplete s.worker.answers checkpoint.acks with
    | none => ([], true, s)
    | some ok =>
      let removed := if ok then [checkpoint.throughSegment] else []
      match { s with pendingCheckpoints := rest }.finishCheckpoint checkpoint.throughSegment ok
        (removeOk checkpoint.throughSegment) with
      | (true, s) =>
        let others := reapFrom removeOk rest s
        (removed ++ others.1, others.2)
      | (false, s) => (removed, false, s)

def reapCheckpoints (s : ShardDb) (removeOk : ℕ → Bool) : List ℕ × Bool × ShardDb :=
  reapFrom removeOk s.pendingCheckpoints s

/-- Closes the log segment and takes a flush ticket.  While more than one older
checkpoint is pending it waits. -/
def startCheckpoint (s : ShardDb) (removeOk : ℕ → Bool) (rotateOk syncOk : Bool) :
    List ℕ × ShardDb :=
  match s.reapCheckpoints removeOk with
  | (removed, false, s) => (removed, s)
  | (removed, true, s) =>
    if s.pendingCheckpoints.length > 1 then (removed, s)
    else if ¬ rotateOk then (removed, { s with failed := true })
    else if ¬ syncOk then (removed, { s with walSegment := s.walSegment + 1, failed := true })
    else
      (removed,
        { s with
          worker := s.worker.send .flush
          walSegment := s.walSegment + 1
          indexInFlight := []
          pendingCheckpoints := s.pendingCheckpoints ++
            [⟨s.walSegment, s.indexInFlight ++ [s.worker.nextAck]⟩] })

/-! ### Writes -/

/-- What a step of a write meets: what the worker makes of each command, and how
many documents are stored before the store fails. -/
structure CallEnv where
  outcome : ℕ → Outcome
  storedBeforeFailure : Option ℕ

def record (written : SortedMap String WrittenDocument) (entries : List WrittenDocument) :
    SortedMap String WrittenDocument :=
  entries.foldl (fun written e => written.insert e.stored.externalId e) written

def entries (segment : ℕ) (docs : List StoredDocument) (batch : List AnalyzedDocument)
    (ack : Option ℕ) : List WrittenDocument :=
  (docs.zip batch).map fun e => ⟨segment, e.1, e.2, ack⟩

def putBatch (s : ShardDb) (p : IndexPipeline) (docs : List StoredDocument) (ack : Option ℕ) : ShardDb :=
  { s with
    db := p.db.emit (.put docs)
    written := record s.written (entries s.callSegment docs p.currentBatch ack) }

/-- Stores the waiting batch, looks at the answers and sends the batch. -/
def flushBatch (s : ShardDb) (env : CallEnv) (p : IndexPipeline) : Option IndexPipeline × ShardDb :=
  if p.currentBatch = [] then (some p, s)
  else
    match env.storedBeforeFailure with
    | some count => (none, s.putBatch p (p.currentStoreBatch.take count) none)
    | none =>
      match s.errorReturn with
      | (false, polled) => (none, polled.putBatch p p.currentStoreBatch none)
      | (true, polled) =>
        let stored := polled.putBatch p p.currentStoreBatch (some polled.worker.nextAck)
        let db := stored.db.emit (.addIndexed p.currentBatch)
        (some { p with db := db, currentStoreBatch := [], currentBatch := [] },
          { stored with
            db := db
            worker := stored.worker.send (.addDocuments p.currentBatch)
            indexInFlight := stored.indexInFlight ++ [stored.worker.nextAck] })

/-- `IndexPipeline::push` for a document that was taken: hands the batch over when
it is full, or large enough and the index is idle. -/
def pushed (s : ShardDb) (env : CallEnv) (p : IndexPipeline) : Option IndexPipeline × ShardDb :=
  if p.currentBatch.length ≥ p.batchSize then s.flushBatch env p
  else if p.currentBatch.length ≥ minIndexBatch then
    match s.errorReturn with
    | (false, polled) => (none, polled)
    | (true, polled) => if polled.indexInFlight = [] then polled.flushBatch env p else (some p, polled)
  else (some p, s)

def deleteIndexed (s : ShardDb) (docId : DocId) (outcome : ℕ → Outcome) : Bool × ShardDb :=
  let sent := s.worker.sendWait (.deleteDocument docId) outcome
  (sent.1, { s with db := s.db.emit (.deleteIndexed docId), worker := sent.2 })

def deleteOld (s : ShardDb) (externalId : String) (outcome : ℕ → Outcome) : Bool × ShardDb :=
  match s.db.store.get? externalId with
  | none => (true, s)
  | some old => s.deleteIndexed old.internalId outcome

def addAndPut (s : ShardDb) (stored : StoredDocument) (content : DocumentContent) (env : CallEnv) :
    ShardDb :=
  let indexed := indexDocument stored.internalId content s.db.arrayRowAllocator
  let db := { s.db with arrayRowAllocator := indexed.2 }.emit (.addIndexed [indexed.1])
  let sent := s.worker.sendWait (.addDocuments [indexed.1]) env.outcome
  if sent.1 ∧ env.storedBeforeFailure.isNone then
    { s with
      db := db.emit (.put [stored])
      worker := sent.2
      written := record s.written
        (entries s.callSegment [stored] [indexed.1] (some s.worker.nextAck)) }
  else { s with db := db, worker := sent.2 }

/-- `SearchDatabase::upsert_document`, step by step. -/
def upsertDocument (s : ShardDb) (input : DocumentInput) (env : CallEnv) : ShardDb :=
  match s.db.allocateInternalId with
  | .error _ => s
  | .ok (internalId, db) =>
    let externalId := if input.externalId = "" then toString internalId else input.externalId
    match { s with db := db }.deleteOld externalId env.outcome with
    | (false, s) => s
    | (true, s) => s.addAndPut ⟨externalId, internalId, input.format, input.source⟩ input.content env

/-- `SearchDatabase::delete_document`, step by step. -/
def deleteDocument (s : ShardDb) (externalId : String) (env : CallEnv) : ShardDb :=
  match s.deleteOld externalId env.outcome with
  | (false, s) => s
  | (true, s) =>
    if env.storedBeforeFailure.isNone then
      { s with db := s.db.emit (.delete externalId), written := s.written.erase externalId }
    else s

def resume (inputs : List DocumentInput) (inputIndex : ℕ) :
    Option IndexPipeline × ShardDb → ShardDb
  | (none, s) => { s with call := none }
  | (some p, s) => { s with call := some (.insert inputs inputIndex p) }

def beginImport (s : ShardDb) (inputs : List DocumentInput) (batchSize : ℕ) : ShardDb :=
  match s.db.beginImport batchSize with
  | .error _ => { s with call := none }
  | .ok p => { s with call := some (.insert inputs 0 p) }

def next (s : ShardDb) (env : CallEnv) : ShardDb :=
  match s.call with
  | none => s
  | some (.insert [] _ p) => { (s.flushBatch env p).2 with call := none }
  | some (.insert (input :: rest) n p) =>
    match p.accept input n with
    | .error _ => { s with call := none }
    | .ok (false, p) => { s with db := p.db, call := some (.insert rest (n + 1) p) }
    | .ok (true, p) => resume rest (n + 1) ({ s with db := p.db }.pushed env p)
  | some (.upsert []) => { s with call := none }
  | some (.upsert (input :: rest)) => { s.upsertDocument input env with call := some (.upsert rest) }
  | some (.delete []) => { s with call := none }
  | some (.delete (id :: rest)) => { s.deleteDocument id env with call := some (.delete rest) }
  | some (.recreate [] fresh batchSize) => s.beginImport fresh batchSize
  | some (.recreate (input :: rest) fresh batchSize) =>
    match s.db.getDocument input.externalId with
    | none => { s with call := some (.recreate rest (fresh ++ [input]) batchSize) }
    | some doc =>
      let s := if doc.source = input.source then s.upsertDocument input env else s
      { s with call := some (.recreate rest fresh batchSize) }

def logRecord (s : ShardDb) (record : WalRecord) : ShardDb :=
  { s with wal := s.wal ++ [(s.walSegment, record)], callSegment := s.walSegment }

/-- No write can begin: one is under way, the shard failed, or the log cannot be
written. -/
def refuses (s : ShardDb) (walOk : Bool) : Bool := s.call.isSome || s.failed || !walOk

def insert (s : ShardDb) (inputs : List DocumentInput) (batchSize : ℕ) (walOk : Bool) : ShardDb :=
  if s.refuses walOk then s else (s.logRecord (.create inputs)).beginImport inputs batchSize

def upsert (s : ShardDb) (inputs : List DocumentInput) (walOk : Bool) : ShardDb :=
  if s.refuses walOk then s else { s.logRecord (.upsert inputs) with call := some (.upsert inputs) }

def replace (s : ShardDb) (inputs : List DocumentInput) (walOk : Bool) : ShardDb :=
  let existing := inputs.filter fun input => (s.db.getDocument input.externalId).isSome
  if s.refuses walOk || existing.isEmpty then s
  else { s.logRecord (.replace existing) with call := some (.upsert existing) }

def delete (s : ShardDb) (ids : List String) (walOk : Bool) : ShardDb :=
  if s.refuses walOk then s else { s.logRecord (.delete ids) with call := some (.delete ids) }

/-- A record that the start finds in a segment of the log.  There is no checkpoint
before the log was replayed. -/
def replay (s : ShardDb) (segment batchSize : ℕ) (record : WalRecord) : ShardDb :=
  if s.call.isSome ∨ s.pendingCheckpoints ≠ [] ∨ s.walSegment < segment then s
  else
    let s := { s with callSegment := segment }
    match record with
    | .create inputs => { s with call := some (.recreate inputs [] batchSize) }
    | .upsert inputs | .replace inputs => { s with call := some (.upsert inputs) }
    | .delete ids => { s with call := some (.delete ids) }
    | .clear => s

end ShardDb

/-- A step of a run.  A checkpoint may start at any time: after a write that
reached the batch size, in an explicit flush, or when the shard was idle. -/
inductive CheckpointStep where
  | insert (inputs : List DocumentInput) (batchSize : ℕ) (walOk : Bool)
  | upsert (inputs : List DocumentInput) (walOk : Bool)
  | replace (inputs : List DocumentInput) (walOk : Bool)
  | delete (ids : List String) (walOk : Bool)
  | replay (segment batchSize : ℕ) (record : WalRecord)
  | sweep (docId : DocId) (outcome : ℕ → Outcome)
  | next (env : ShardDb.CallEnv)
  | startCheckpoint (removeOk : ℕ → Bool) (rotateOk syncOk : Bool)
  | reapCheckpoints (removeOk : ℕ → Bool)
  | work (w : WorkerStep)

namespace ShardDb

/-- The segments up to which a step removes the log, and the state after it. -/
def step (s : ShardDb) : CheckpointStep → List ℕ × ShardDb
  | .insert inputs batchSize walOk => ([], s.insert inputs batchSize walOk)
  | .upsert inputs walOk => ([], s.upsert inputs walOk)
  | .replace inputs walOk => ([], s.replace inputs walOk)
  | .delete ids walOk => ([], s.delete ids walOk)
  | .replay segment batchSize record => ([], s.replay segment batchSize record)
  | .sweep docId outcome =>
    ([], { s with worker := (s.worker.sendWait (.deleteDocument docId) outcome).2 })
  | .next env => ([], s.next env)
  | .startCheckpoint removeOk rotateOk syncOk =>
    if s.call.isSome then ([], s) else s.startCheckpoint removeOk rotateOk syncOk
  | .reapCheckpoints removeOk =>
    if s.call.isSome then ([], s)
    else ((s.reapCheckpoints removeOk).1, (s.reapCheckpoints removeOk).2.2)
  | .work w => ([], { s with worker := s.worker.work w })

def run (s : ShardDb) (steps : List CheckpointStep) : ShardDb :=
  steps.foldl (fun s st => (s.step st).2) s

end ShardDb

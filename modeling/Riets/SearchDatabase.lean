/-
The search database of one shard.

A database joins the document store, the index and the id allocators of a
shard.  What an operation does is kept as the list of effects it issues, in
order: entries added to or deleted from the index and documents put into or
deleted from the store.  Operations of the store and the index succeed here;
the errors are the database's own.
-/
import Riets.LsmIndex

open Option

inductive Format where
  | json
  deriving DecidableEq, Repr

structure StoredDocument where
  externalId : String
  internalId : DocId
  format : Format
  source : List UInt8
  deriving DecidableEq, Repr

inductive ArrayElement where
  | mk (target : AnalyzedTarget) (children : List ArrayElement)

structure DocumentContent where
  main : AnalyzedTarget
  arrays : List ArrayElement

structure DocumentInput where
  externalId : String
  content : DocumentContent
  source : List UInt8
  format : Format

mutual

/-- One row: its id is taken before those of its children, it is pushed after
them. -/
def indexElement (parent : Option ArrayRowId) :
    ArrayElement → ArrayRowAllocator → List AnalyzedArrayRow × ArrayRowAllocator
  | .mk target children, allocator =>
    let row := allocator.alloc
    let nested := indexArrays (some row.1) children row.2
    (nested.1 ++ [⟨row.1, parent, target⟩], nested.2)

def indexArrays (parent : Option ArrayRowId) :
    List ArrayElement → ArrayRowAllocator → List AnalyzedArrayRow × ArrayRowAllocator
  | [], allocator => ([], allocator)
  | element :: rest, allocator =>
    let first := indexElement parent element allocator
    let others := indexArrays parent rest first.2
    (first.1 ++ others.1, others.2)

end

mutual

theorem indexElement_rows (parent : Option ArrayRowId) (element : ArrayElement)
    (a : ArrayRowAllocator) :
    a.next ≤ (indexElement parent element a).2.next ∧
      ∀ row ∈ (indexElement parent element a).1,
        a.next ≤ row.arrayRowId ∧ row.arrayRowId < (indexElement parent element a).2.next := by
  cases element with
  | mk target children =>
    obtain ⟨hle, hrows⟩ := indexArrays_rows (some a.alloc.1) children a.alloc.2
    have hstep : a.next ≤ a.alloc.2.next := Nat.le_succ a.next
    simp only [indexElement]
    refine ⟨hstep.trans hle, fun row hrow => ?_⟩
    rcases List.mem_append.mp hrow with hrow | hrow
    · exact ⟨hstep.trans (hrows row hrow).1, (hrows row hrow).2⟩
    · obtain rfl := List.mem_singleton.mp hrow
      exact ⟨le_rfl, lt_of_lt_of_le (Nat.lt_succ_self a.next) hle⟩

theorem indexArrays_rows (parent : Option ArrayRowId) (elements : List ArrayElement)
    (a : ArrayRowAllocator) :
    a.next ≤ (indexArrays parent elements a).2.next ∧
      ∀ row ∈ (indexArrays parent elements a).1,
        a.next ≤ row.arrayRowId ∧ row.arrayRowId < (indexArrays parent elements a).2.next := by
  cases elements with
  | nil =>
    rw [indexArrays]
    exact ⟨le_rfl, fun row hrow => by cases hrow⟩
  | cons element rest =>
    obtain ⟨hle, hrows⟩ := indexElement_rows parent element a
    obtain ⟨hle', hrows'⟩ := indexArrays_rows parent rest (indexElement parent element a).2
    rw [indexArrays]
    refine ⟨hle.trans hle', fun row hrow => ?_⟩
    rcases List.mem_append.mp hrow with hrow | hrow
    · exact ⟨(hrows row hrow).1, lt_of_lt_of_le (hrows row hrow).2 hle'⟩
    · exact ⟨hle.trans (hrows' row hrow).1, (hrows' row hrow).2⟩

end

def indexDocument (docId : DocId) (content : DocumentContent) (allocator : ArrayRowAllocator) :
    AnalyzedDocument × ArrayRowAllocator :=
  let rows := indexArrays none content.arrays allocator
  (⟨docId, content.main, rows.1⟩, rows.2)

/-! ### The database -/

inductive Effect where
  | deleteIndexed (docId : DocId)
  | addIndexed (docs : List AnalyzedDocument)
  | put (docs : List StoredDocument)
  | delete (externalId : String)

abbrev DocumentMap := SortedMap String StoredDocument

abbrev Sources := SortedMap String (List UInt8)

def DocumentMap.put (m : DocumentMap) (doc : StoredDocument) : DocumentMap :=
  m.insert doc.externalId doc

def Effect.onStore (m : DocumentMap) : Effect → DocumentMap
  | .put docs => docs.foldl DocumentMap.put m
  | .delete externalId => m.erase externalId
  | _ => m

structure Database where
  store : DocumentMap
  shardId : ℕ
  nextLocalId : ℕ
  arrayRowAllocator : ArrayRowAllocator
  issued : List Effect

inductive FailReason where
  | duplicatePrimaryId
  | notFound
  | internal (message : String)
  deriving DecidableEq, Repr

structure DocFailure where
  index : Option ℕ
  id : Option String
  reason : FailReason
  deriving DecidableEq, Repr

structure InsertReport where
  inserted : ℕ
  failures : List DocFailure
  deriving DecidableEq, Repr

def minIndexBatch : ℕ := 4096

/-- First free local id of a shard, from the highest id its store and index know. -/
def nextLocalIdForShard (maxGlobalId : DocId) (shardId : ℕ) : IoResult ℕ :=
  if maxGlobalId = 0 then .ok 1
  else if shardOf maxGlobalId ≠ shardId then
    .error ("document store belongs to shard " ++ toString (shardOf maxGlobalId) ++
      ", but was opened as shard " ++ toString shardId)
  else .ok (localOf maxGlobalId + 1)

namespace Database

def sources (db : Database) : Sources := db.store.map StoredDocument.source

def emit (db : Database) (e : Effect) : Database :=
  { db with store := e.onStore db.store, issued := db.issued ++ [e] }

def allocateInternalId (db : Database) : IoResult (DocId × Database) :=
  match makeDocId db.shardId db.nextLocalId with
  | none => .error ("document ID space exhausted for shard " ++ toString db.shardId)
  | some id => .ok (id, { db with nextLocalId := db.nextLocalId + 1 })

def getDocument (db : Database) (externalId : String) : Option StoredDocument :=
  db.store.get? externalId

def deleteOld (db : Database) (externalId : String) : Database :=
  match db.store.get? externalId with
  | some old => db.emit (.deleteIndexed old.internalId)
  | none => db

/-- A new version under a new internal id; the old one is tombstoned. -/
def upsertDocument (db : Database) (input : DocumentInput) : IoResult Database :=
  match db.allocateInternalId with
  | .error e => .error e
  | .ok (internalId, db) =>
    let externalId := if input.externalId = "" then toString internalId else input.externalId
    let db := db.deleteOld externalId
    let indexed := indexDocument internalId input.content db.arrayRowAllocator
    let db := { db with arrayRowAllocator := indexed.2 }
    let db := db.emit (.addIndexed [indexed.1])
    .ok (db.emit (.put [⟨externalId, internalId, input.format, input.source⟩]))

def deleteDocument (db : Database) (externalId : String) : Database :=
  (db.deleteOld externalId).emit (.delete externalId)

end Database

/-! ### Importing many documents -/

structure IndexPipeline where
  db : Database
  batchSize : ℕ
  currentStoreBatch : List StoredDocument
  currentBatch : List AnalyzedDocument
  inserted : ℕ
  failures : List DocFailure
  seen : Finset String

namespace IndexPipeline

def externalIdExists (p : IndexPipeline) (externalId : String) : Bool :=
  externalId ∈ p.seen ∨ (p.db.store.get? externalId).isSome

def flushBatch (p : IndexPipeline) : IndexPipeline :=
  if p.currentBatch = [] then p
  else
    { p with
      db := (p.db.emit (.put p.currentStoreBatch)).emit (.addIndexed p.currentBatch)
      currentStoreBatch := []
      currentBatch := [] }

/-- Takes one document into the waiting batch, unless its id is known; says
whether it did. -/
def accept (p : IndexPipeline) (input : DocumentInput) (inputIndex : ℕ) :
    IoResult (Bool × IndexPipeline) :=
  if p.externalIdExists input.externalId then
    .ok (false, { p with failures := p.failures ++
      [⟨some inputIndex, some input.externalId, .duplicatePrimaryId⟩] })
  else
    match p.db.allocateInternalId with
    | .error e => .error e
    | .ok (internalId, db) =>
      let indexed := indexDocument internalId input.content db.arrayRowAllocator
      .ok (true, { p with
        db := { db with arrayRowAllocator := indexed.2 }
        seen := insert input.externalId p.seen
        currentStoreBatch := p.currentStoreBatch ++
          [⟨input.externalId, internalId, input.format, input.source⟩]
        currentBatch := p.currentBatch ++ [indexed.1]
        inserted := p.inserted + 1 })

/-- The batch is handed over: it is full, or large enough for an idle worker. -/
def isFull (p : IndexPipeline) (idle : Bool) : Bool :=
  p.currentBatch.length ≥ p.batchSize ∨ (p.currentBatch.length ≥ minIndexBatch ∧ idle)

/-- Adds one document.  `idle` says whether the index worker has nothing to do. -/
def push (p : IndexPipeline) (input : DocumentInput) (inputIndex : ℕ) (idle : Bool) :
    IoResult IndexPipeline :=
  match p.accept input inputIndex with
  | .error e => .error e
  | .ok (accepted, p) => if accepted ∧ p.isFull idle then .ok p.flushBatch else .ok p

def pushAll (p : IndexPipeline) (idle : ℕ → Bool) : List DocumentInput → ℕ → IoResult IndexPipeline
  | [], _ => .ok p
  | input :: rest, inputIndex =>
    match p.push input inputIndex (idle inputIndex) with
    | .error e => .error e
    | .ok p => pushAll p idle rest (inputIndex + 1)

end IndexPipeline

namespace Database

def beginImport (db : Database) (batchSize : ℕ) : IoResult IndexPipeline :=
  if batchSize = 0 then .error "batch_size must be greater than zero"
  else .ok ⟨db, batchSize, [], [], 0, [], ∅⟩

def putDocumentsParallel (db : Database) (inputs : List DocumentInput) (batchSize : ℕ)
    (idle : ℕ → Bool) : IoResult (InsertReport × Database) :=
  match db.beginImport batchSize with
  | .error e => .error e
  | .ok p =>
    match p.pushAll idle inputs 0 with
    | .error e => .error e
    | .ok p => .ok (⟨p.inserted, p.failures⟩, p.flushBatch.db)

end Database

/-! ### What the writes do to the texts -/

def Sources.create (s : Sources) (externalId : String) (source : List UInt8) : Sources :=
  if (s.get? externalId).isSome then s else s.insert externalId source

theorem Sources.get?_create (s : Sources) (externalId : String) (source : List UInt8) (x : String) :
    (s.create externalId source).get? x
      = if x = externalId then some ((s.get? externalId).getD source) else s.get? x := by
  rw [create]
  split_ifs with hsome hx hx
  · obtain ⟨v, hv⟩ := isSome_iff_exists.mp hsome
    rw [hx, hv]
    rfl
  · rfl
  · rw [SortedMap.get?_insert, if_pos hx, not_isSome_iff_eq_none.mp hsome]
    rfl
  · rw [SortedMap.get?_insert, if_neg hx]

namespace Database

open SortedMap

variable {db db' : Database}

theorem get?_sources (db : Database) (x : String) :
    db.sources.get? x = (db.store.get? x).map StoredDocument.source :=
  get?_map _ _ x

theorem allocateInternalId_ok (h : db.nextLocalId ≤ maxLocalDocId) :
    ∃ id, db.allocateInternalId = .ok (id, { db with nextLocalId := db.nextLocalId + 1 }) := by
  refine ⟨db.shardId * 2 ^ localBits + db.nextLocalId, ?_⟩
  rw [allocateInternalId, makeDocId, if_pos h]

theorem deleteOld_frame (db : Database) (externalId : String) :
    (db.deleteOld externalId).store = db.store ∧
      (db.deleteOld externalId).nextLocalId = db.nextLocalId := by
  unfold deleteOld
  cases db.store.get? externalId <;> exact ⟨rfl, rfl⟩

theorem sources_emit_put (db : Database) (doc : StoredDocument) :
    (db.emit (.put [doc])).sources = db.sources.insert doc.externalId doc.source := by
  refine ext_get? fun x => ?_
  rw [get?_sources, get?_insert, get?_sources]
  change ((db.store.insert doc.externalId doc).get? x).map _ = _
  rw [get?_insert]
  split_ifs <;> rfl

theorem sources_upsertDocument (hcap : db.nextLocalId ≤ maxLocalDocId) {input : DocumentInput}
    (hid : input.externalId ≠ "") :
    ∃ db', db.upsertDocument input = .ok db' ∧ db'.nextLocalId = db.nextLocalId + 1 ∧
      db'.sources = db.sources.insert input.externalId input.source := by
  obtain ⟨id, halloc⟩ := allocateInternalId_ok hcap
  unfold upsertDocument
  simp only [halloc, if_neg hid]
  obtain ⟨hstore, hnext⟩ := deleteOld_frame { db with nextLocalId := db.nextLocalId + 1 }
    input.externalId
  refine ⟨_, rfl, hnext, ?_⟩
  rw [sources_emit_put]
  simp only [sources, emit, Effect.onStore, hstore]

theorem sources_deleteDocument (db : Database) (externalId : String) :
    (db.deleteDocument externalId).sources = db.sources.erase externalId := by
  refine ext_get? fun x => ?_
  rw [get?_sources, get?_erase, get?_sources]
  change (((db.deleteOld externalId).store.erase externalId).get? x).map _ = _
  rw [(deleteOld_frame db externalId).1, get?_erase]
  split_ifs <;> rfl

theorem nextLocalId_deleteDocument (db : Database) (externalId : String) :
    (db.deleteDocument externalId).nextLocalId = db.nextLocalId :=
  (deleteOld_frame db externalId).2

end Database

namespace IndexPipeline

open List DocumentMap Sources

def effective (p : IndexPipeline) : DocumentMap := p.currentStoreBatch.foldl put p.db.store

/-- The texts are `s`, and every id among them is known to the pipeline. -/
structure Ok (p : IndexPipeline) (s : Sources) : Prop where
  sources : ∀ x, (p.effective.get? x).map StoredDocument.source = s.get? x
  known : ∀ x, p.externalIdExists x = (s.get? x).isSome
  batches : p.currentBatch = [] → p.currentStoreBatch = []

variable {p : IndexPipeline}

theorem flushBatch_effective (h : p.currentBatch = [] → p.currentStoreBatch = []) :
    p.flushBatch.effective = p.effective ∧ p.flushBatch.currentStoreBatch = [] ∧
      p.flushBatch.db.store = p.effective := by
  unfold flushBatch
  split_ifs with hnil
  · exact ⟨rfl, h hnil, by rw [effective, h hnil]; rfl⟩
  · exact ⟨rfl, rfl, rfl⟩

theorem flushBatch_db (p : IndexPipeline) : p.flushBatch.db.nextLocalId = p.db.nextLocalId := by
  unfold flushBatch
  split_ifs <;> rfl

variable {s : Sources}

theorem flushBatch_ok (h : p.Ok s) : p.flushBatch.Ok s := by
  obtain ⟨heff, hnil, hstore⟩ := flushBatch_effective h.batches
  refine ⟨by rw [heff]; exact h.sources, fun x => ?_, fun _ => hnil⟩
  have hseen : p.flushBatch.seen = p.seen := by
    unfold flushBatch
    split_ifs <;> rfl
  have hknown := h.known x
  have hsome : ((p.effective.get? x).isSome) = (s.get? x).isSome := by
    rw [← h.sources x, isSome_map]
  rw [externalIdExists, hseen, hstore, hsome]
  by_cases hx : x ∈ p.seen
  · rw [externalIdExists] at hknown
    simp only [hx, true_or, decide_true] at hknown ⊢
    exact hknown
  · simp [hx]

theorem accept_ok (h : p.Ok s)
    (hcap : p.db.nextLocalId ≤ maxLocalDocId) (input : DocumentInput) (inputIndex : ℕ) :
    ∃ accepted q, p.accept input inputIndex = .ok (accepted, q) ∧
      q.db.nextLocalId ≤ p.db.nextLocalId + 1 ∧ q.Ok (s.create input.externalId input.source) := by
  have hknown := h.known input.externalId
  unfold accept
  by_cases hex : p.externalIdExists input.externalId = true
  · rw [if_pos hex]
    refine ⟨false, _, rfl, Nat.le_succ _, ?_⟩
    rw [create, if_pos (hknown ▸ hex)]
    exact ⟨h.sources, h.known, h.batches⟩
  · rw [if_neg hex]
    obtain ⟨id, halloc⟩ := Database.allocateInternalId_ok hcap
    simp only [halloc]
    refine ⟨true, _, rfl, le_rfl, ?_⟩
    have hnew : (s.get? input.externalId) = none := by
      rw [← not_isSome_iff_eq_none, ← hknown]
      exact hex
    refine ⟨fun x => ?_, fun x => ?_, fun hnil => ?_⟩
    · rw [effective, get?_create, hnew]
      simp only [foldl_append, foldl_cons, foldl_nil]
      rw [put, SortedMap.get?_insert]
      split_ifs
      · rfl
      · exact h.sources x
    · have hx := h.known x
      rw [externalIdExists] at hx ⊢
      rw [get?_create]
      by_cases heq : x = input.externalId
      · simp [heq]
      · simp only [Finset.mem_insert, heq, false_or, if_false]
        exact hx
    · simp at hnil

theorem push_ok (h : p.Ok s) (hcap : p.db.nextLocalId ≤ maxLocalDocId)
    (input : DocumentInput) (inputIndex : ℕ) (idle : Bool) :
    ∃ p', p.push input inputIndex idle = .ok p' ∧ p'.db.nextLocalId ≤ p.db.nextLocalId + 1 ∧
      p'.Ok (s.create input.externalId input.source) := by
  obtain ⟨accepted, q, hq, hnext, hok⟩ := accept_ok h hcap input inputIndex
  rw [push, hq]
  simp only
  split_ifs
  · exact ⟨_, rfl, by rw [flushBatch_db]; exact hnext, flushBatch_ok hok⟩
  · exact ⟨_, rfl, hnext, hok⟩

theorem pushAll_ok (h : p.Ok s) (idle : ℕ → Bool)
    {inputs : List DocumentInput} (inputIndex : ℕ)
    (hcap : p.db.nextLocalId + inputs.length ≤ maxLocalDocId + 1) :
    ∃ p', p.pushAll idle inputs inputIndex = .ok p' ∧
      p'.db.nextLocalId ≤ p.db.nextLocalId + inputs.length ∧
      p'.Ok (inputs.foldl (fun s input => s.create input.externalId input.source) s) := by
  induction inputs generalizing p s inputIndex with
  | nil => exact ⟨p, rfl, le_rfl, h⟩
  | cons input rest ih =>
    rw [length_cons] at hcap
    obtain ⟨q, hpush, hnext, hq⟩ := push_ok h (by omega) input inputIndex (idle inputIndex)
    obtain ⟨p', hall, hnext', hp'⟩ := ih hq (inputIndex + 1) (by omega)
    refine ⟨p', ?_, by rw [length_cons]; omega, hp'⟩
    rw [pushAll, hpush]
    exact hall

end IndexPipeline

namespace Database

open IndexPipeline

theorem sources_putDocumentsParallel {db : Database} {inputs : List DocumentInput} {batchSize : ℕ}
    (hbatch : 0 < batchSize) (idle : ℕ → Bool)
    (hcap : db.nextLocalId + inputs.length ≤ maxLocalDocId + 1) :
    ∃ report db', db.putDocumentsParallel inputs batchSize idle = .ok (report, db') ∧
      db'.nextLocalId ≤ db.nextLocalId + inputs.length ∧
      db'.sources
        = inputs.foldl (fun s input => s.create input.externalId input.source) db.sources := by
  have hstart : IndexPipeline.Ok ⟨db, batchSize, [], [], 0, [], ∅⟩ db.sources := by
    refine ⟨fun x => (get?_sources db x).symm, fun x => ?_, fun _ => rfl⟩
    rw [get?_sources, isSome_map]
    simp [externalIdExists]
  obtain ⟨p, hall, hnext, hp⟩ := pushAll_ok hstart idle 0 hcap
  refine ⟨⟨p.inserted, p.failures⟩, p.flushBatch.db, ?_, ?_, ?_⟩
  · rw [putDocumentsParallel, beginImport, if_neg hbatch.ne']
    simp only [hall]
  · rw [p.flushBatch_db]
    exact hnext
  · refine SortedMap.ext_get? fun x => ?_
    rw [get?_sources, (flushBatch_effective hp.batches).2.2]
    exact hp.sources x

end Database

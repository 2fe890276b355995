/-
Replay of the write-ahead log.

Every write is logged as one record before it is applied; a shard that starts
applies the records that are left to what its store holds, which may already
contain the effects of any number of them.
-/
import Riets.SearchDatabase
import Riets.Update

open SortedMap

inductive WalRecord where
  | create (inputs : List DocumentInput)
  | upsert (inputs : List DocumentInput)
  | replace (inputs : List DocumentInput)
  | delete (ids : List String)
  | clear

inductive DocOp where
  | create (input : DocumentInput)
  | upsert (input : DocumentInput)
  | replace (input : DocumentInput)
  | delete (externalId : String)

def WalRecord.ops : WalRecord → List DocOp
  | .create inputs => inputs.map .create
  | .upsert inputs => inputs.map .upsert
  | .replace inputs => inputs.map .replace
  | .delete ids => ids.map .delete
  | .clear => []

def DocOp.externalId : DocOp → String
  | .create input | .upsert input | .replace input => input.externalId
  | .delete externalId => externalId

inductive Write where
  | insert (inputs : List DocumentInput)
  | upsert (inputs : List DocumentInput)
  | replace (inputs : List DocumentInput)
  | delete (ids : List String)

structure WriteReport where
  done : ℕ
  failures : List DocFailure
  deriving DecidableEq, Repr

namespace Database

/-! ### The write paths -/

def upsertEach (db : Database) : List DocumentInput → WriteReport × Database
  | [] => (⟨0, []⟩, db)
  | input :: rest =>
    match db.upsertDocument input with
    | .ok db =>
      let others := upsertEach db rest
      (⟨others.1.done + 1, others.1.failures⟩, others.2)
    | .error e =>
      let others := upsertEach db rest
      (⟨others.1.done, ⟨none, some input.externalId, .internal e⟩ :: others.1.failures⟩, others.2)

def deleteEach (db : Database) : List String → WriteReport × Database
  | [] => (⟨0, []⟩, db)
  | id :: rest =>
    match db.getDocument id with
    | none =>
      let others := deleteEach db rest
      (⟨others.1.done, ⟨none, some id, .notFound⟩ :: others.1.failures⟩, others.2)
    | some _ =>
      let others := deleteEach (db.deleteDocument id) rest
      (⟨others.1.done + 1, others.1.failures⟩, others.2)

/-- The write paths: the record that is logged, if any, and then the changes.  A
replace logs and applies only the documents that exist. -/
def write (db : Database) (batchSize : ℕ) (idle : ℕ → Bool) :
    Write → IoResult (Option WalRecord × WriteReport × Database)
  | .insert inputs =>
    match db.putDocumentsParallel inputs batchSize idle with
    | .error e => .error e
    | .ok (report, db) => .ok (some (.create inputs), ⟨report.inserted, report.failures⟩, db)
  | .upsert inputs => .ok (some (.upsert inputs), db.upsertEach inputs)
  | .replace inputs =>
    let existing := inputs.filter fun input => (db.getDocument input.externalId).isSome
    let missing := (inputs.filter fun input => (db.getDocument input.externalId).isNone).map
      fun input => ⟨none, some input.externalId, .notFound⟩
    if existing = [] then .ok (none, ⟨0, missing⟩, db)
    else
      let replaced := db.upsertEach existing
      .ok (some (.replace existing), ⟨replaced.1.done, missing ++ replaced.1.failures⟩, replaced.2)
  | .delete ids => .ok (some (.delete ids), db.deleteEach ids)

def live (db : Database) (batchSize : ℕ) (idle : ℕ → Bool) : DocOp → IoResult Database
  | .create input => (db.putDocumentsParallel [input] batchSize idle).map Prod.snd
  | .upsert input => .ok (db.upsertEach [input]).2
  | .replace input => .ok (db.upsertEach [input]).2
  | .delete id => .ok (db.deleteEach [id]).2

/-- Parts of writes, one after the other.  `idle n` is what the index worker
answers during the `n`-th of them. -/
def liveAll (db : Database) (batchSize : ℕ) (idle : ℕ → ℕ → Bool) : List DocOp → IoResult Database
  | [] => .ok db
  | op :: rest =>
    match db.live batchSize (idle 0) op with
    | .error e => .error e
    | .ok db => liveAll db batchSize (fun n => idle (n + 1)) rest

/-- Sorts the documents of a logged create: the ones that are not stored, and how
many are stored with another text.  One stored with the logged text is indexed
again. -/
def sortCreate (db : Database) : List DocumentInput → IoResult (List DocumentInput × ℕ × Database)
  | [] => .ok ([], 0, db)
  | input :: rest =>
    match db.getDocument input.externalId with
    | none =>
      match sortCreate db rest with
      | .error e => .error e
      | .ok (fresh, kept, db) => .ok (input :: fresh, kept, db)
    | some doc =>
      if doc.source = input.source then
        match db.upsertDocument input with
        | .error e => .error e
        | .ok db => sortCreate db rest
      else
        match sortCreate db rest with
        | .error e => .error e
        | .ok (fresh, kept, db) => .ok (fresh, kept + 1, db)

def upsertAll (db : Database) : List DocumentInput → IoResult Database
  | [] => .ok db
  | input :: rest =>
    match db.upsertDocument input with
    | .error e => .error e
    | .ok db => upsertAll db rest

def replayRecord (db : Database) (batchSize : ℕ) (idle : ℕ → Bool) : WalRecord → IoResult Database
  | .create inputs =>
    match db.sortCreate inputs with
    | .error e => .error ("recovery create failed: " ++ e)
    | .ok (fresh, _, db) =>
      match db.putDocumentsParallel fresh batchSize idle with
      | .error e => .error ("recovery create failed: " ++ e)
      | .ok (_, db) => .ok db
  | .upsert inputs =>
    match db.upsertAll inputs with
    | .error e => .error ("recovery apply failed: " ++ e)
    | .ok db => .ok db
  | .replace inputs =>
    match db.upsertAll inputs with
    | .error e => .error ("recovery replace failed:" ++ e)
    | .ok db => .ok db
  | .delete ids => .ok (ids.foldl deleteDocument db)
  | .clear => .ok db

def replay (db : Database) (batchSize : ℕ) (idle : ℕ → ℕ → Bool) : List WalRecord → IoResult Database
  | [] => .ok db
  | record :: rest =>
    match db.replayRecord batchSize (idle 0) record with
    | .error e => .error e
    | .ok db => replay db batchSize (fun n => idle (n + 1)) rest

end Database

/-! ### What a document of a record does to the texts -/

def DocOp.onSources (s : Sources) : DocOp → Sources
  | .create input => s.create input.externalId input.source
  | .upsert input | .replace input => s.insert input.externalId input.source
  | .delete externalId => s.erase externalId

/-- What an operation does to the text of `x`. -/
def DocOp.onCell (x : String) : DocOp → Option (Update (List UInt8))
  | .create input => if input.externalId = x then some (.fill input.source) else none
  | .upsert input | .replace input =>
    if input.externalId = x then some (.set (some input.source)) else none
  | .delete externalId => if externalId = x then some (.set none) else none

theorem DocOp.get?_onSources (s : Sources) (op : DocOp) (x : String) :
    (op.onSources s).get? x = Update.run (op.onCell x).toList (s.get? x) := by
  cases op with
  | create input =>
    rw [onSources, onCell, Sources.get?_create]
    by_cases hx : x = input.externalId
    · rw [if_pos hx, if_pos hx.symm, hx]
      rfl
    · rw [if_neg hx, if_neg (Ne.symm hx)]
      rfl
  | upsert input =>
    rw [onSources, onCell, get?_insert]
    by_cases hx : x = input.externalId
    · rw [if_pos hx, if_pos hx.symm]
      rfl
    · rw [if_neg hx, if_neg (Ne.symm hx)]
      rfl
  | replace input =>
    rw [onSources, onCell, get?_insert]
    by_cases hx : x = input.externalId
    · rw [if_pos hx, if_pos hx.symm]
      rfl
    · rw [if_neg hx, if_neg (Ne.symm hx)]
      rfl
  | delete externalId =>
    rw [onSources, onCell, get?_erase]
    by_cases hx : x = externalId
    · rw [if_pos hx, if_pos hx.symm]
      rfl
    · rw [if_neg hx, if_neg (Ne.symm hx)]
      rfl

theorem DocOp.get?_foldl_onSources (ops : List DocOp) (s : Sources) (x : String) :
    (ops.foldl DocOp.onSources s).get? x = Update.run (ops.filterMap (DocOp.onCell x)) (s.get? x) := by
  induction ops generalizing s with
  | nil => rfl
  | cons op ops ih =>
    rw [List.foldl_cons, ih, op.get?_onSources]
    cases h : op.onCell x with
    | none => rw [List.filterMap_cons_none h]; rfl
    | some u => rw [List.filterMap_cons_some h]; rfl

theorem DocOp.foldl_take (ops : List DocOp) (k : ℕ) (s : Sources) :
    ops.foldl DocOp.onSources ((ops.take k).foldl DocOp.onSources s)
      = ops.foldl DocOp.onSources s := by
  refine ext_get? fun x => ?_
  have hsplit : ops.filterMap (DocOp.onCell x)
      = (ops.take k).filterMap (DocOp.onCell x) ++ (ops.drop k).filterMap (DocOp.onCell x) := by
    rw [← List.filterMap_append, List.take_append_drop]
  rw [DocOp.get?_foldl_onSources, DocOp.get?_foldl_onSources, DocOp.get?_foldl_onSources, hsplit,
    Update.run_append_run]

theorem Sources.foldl_create_filter (inputs : List DocumentInput) {s t : Sources}
    (h : ∀ x, (s.get? x).isSome → (t.get? x).isSome) :
    (inputs.filter fun input => (s.get? input.externalId).isNone).foldl
        (fun s input => s.create input.externalId input.source) t
      = inputs.foldl (fun s input => s.create input.externalId input.source) t := by
  induction inputs generalizing t with
  | nil => rfl
  | cons input rest ih =>
    have hmono : ∀ x, (s.get? x).isSome → ((t.create input.externalId input.source).get? x).isSome := by
      intro x hx
      rw [Sources.get?_create]
      split_ifs
      · rfl
      · exact h x hx
    by_cases hnone : (s.get? input.externalId).isNone
    · rw [List.filter_cons_of_pos (by simpa using hnone), List.foldl_cons, List.foldl_cons, ih hmono]
    · have hsome : (s.get? input.externalId).isSome := by
        cases hs : s.get? input.externalId <;> simp_all
      have hkeep : t.create input.externalId input.source = t := by
        rw [Sources.create, if_pos (h _ hsome)]
      rw [List.filter_cons_of_neg (by simpa using hnone), List.foldl_cons, hkeep, ih h]

theorem Sources.foldl_create (inputs : List DocumentInput) (s : Sources) :
    (inputs.map DocOp.create).foldl DocOp.onSources s
      = inputs.foldl (fun s input => s.create input.externalId input.source) s := by
  rw [List.foldl_map]
  rfl

theorem Sources.insert_same {s : Sources} {x : String} {source : List UInt8}
    (h : s.get? x = some source) : s.insert x source = s := by
  refine ext_get? fun y => ?_
  rw [get?_insert]
  split_ifs with hy
  · rw [hy, h]
  · rfl

theorem Sources.erase_absent {s : Sources} {x : String} (h : s.get? x = none) : s.erase x = s := by
  refine ext_get? fun y => ?_
  rw [get?_erase]
  split_ifs with hy
  · rw [hy, h]
  · rfl

namespace Database

open List DocOp Sources

variable {db : Database}

variable {inputs : List DocumentInput}

theorem upsertEach_spec (hids : ∀ input ∈ inputs, input.externalId ≠ "")
    (hcap : db.nextLocalId + inputs.length ≤ maxLocalDocId + 1) :
    db.upsertAll inputs = .ok (db.upsertEach inputs).2 ∧
      (db.upsertEach inputs).2.nextLocalId = db.nextLocalId + inputs.length ∧
      (db.upsertEach inputs).2.sources = (inputs.map upsert).foldl onSources db.sources := by
  induction inputs generalizing db with
  | nil => exact ⟨rfl, rfl, rfl⟩
  | cons input rest ih =>
    rw [length_cons] at hcap
    have hfirst : db.nextLocalId ≤ maxLocalDocId := by omega
    obtain ⟨db', hok, hnext, hsources⟩ :=
      sources_upsertDocument hfirst (hids input mem_cons_self)
    have hrest : db'.nextLocalId + rest.length ≤ maxLocalDocId + 1 := by omega
    obtain ⟨hall, hnext', hsources'⟩ := ih (fun i hi => hids i (mem_cons_of_mem _ hi)) hrest
    rw [upsertAll, upsertEach]
    simp only [hok]
    refine ⟨hall, by rw [hnext', hnext, length_cons]; omega, ?_⟩
    rw [hsources', hsources]
    rfl

theorem sources_deleteEach (db : Database) (ids : List String) :
    (db.deleteEach ids).2.nextLocalId = db.nextLocalId ∧
      (db.deleteEach ids).2.sources = (ids.map delete).foldl onSources db.sources := by
  induction ids generalizing db with
  | nil => exact ⟨rfl, rfl⟩
  | cons id rest ih =>
    rw [deleteEach]
    cases hget : db.getDocument id with
    | none =>
      have habsent : db.sources.get? id = none := by
        rw [get?_sources]
        rw [getDocument] at hget
        rw [hget]
        rfl
      simp only [map_cons, foldl_cons, onSources, erase_absent habsent]
      exact ih db
    | some doc =>
      obtain ⟨hnext, hsources⟩ := ih (db.deleteDocument id)
      refine ⟨hnext.trans (nextLocalId_deleteDocument db id), ?_⟩
      simp only
      rw [hsources, sources_deleteDocument]
      rfl

theorem sources_foldl_deleteDocument (db : Database) (ids : List String) :
    (ids.foldl deleteDocument db).nextLocalId = db.nextLocalId ∧
      (ids.foldl deleteDocument db).sources = (ids.map delete).foldl onSources db.sources := by
  induction ids generalizing db with
  | nil => exact ⟨rfl, rfl⟩
  | cons id rest ih =>
    obtain ⟨hnext, hsources⟩ := ih (db.deleteDocument id)
    refine ⟨hnext.trans (nextLocalId_deleteDocument db id), ?_⟩
    rw [foldl_cons, hsources, sources_deleteDocument]
    rfl

variable {batchSize : ℕ}

theorem sources_live (hbatch : 0 < batchSize) (idle : ℕ → Bool) {op : DocOp}
    (hid : op.externalId ≠ "") (hcap : db.nextLocalId ≤ maxLocalDocId) :
    ∃ db', db.live batchSize idle op = .ok db' ∧ db'.nextLocalId ≤ db.nextLocalId + 1 ∧
      db'.sources = op.onSources db.sources := by
  have hone : ∀ input : DocumentInput, db.nextLocalId + [input].length ≤ maxLocalDocId + 1 :=
    fun _ => Nat.add_le_add_right hcap 1
  have hupsert : ∀ input : DocumentInput, input.externalId ≠ "" →
      (db.upsertEach [input]).2.nextLocalId ≤ db.nextLocalId + 1 ∧
        (db.upsertEach [input]).2.sources = db.sources.insert input.externalId input.source := by
    intro input hid
    have hids : ∀ i ∈ [input], i.externalId ≠ "" := by simpa using hid
    obtain ⟨-, hnext, hsources⟩ := upsertEach_spec hids (hone input)
    exact ⟨hnext.le, hsources⟩
  cases op with
  | create input =>
    obtain ⟨report, db', hok, hnext, hsources⟩ :=
      sources_putDocumentsParallel hbatch idle (hone input)
    exact ⟨db', by rw [live, hok]; rfl, hnext, hsources⟩
  | upsert input => exact ⟨_, rfl, hupsert input hid⟩
  | replace input => exact ⟨_, rfl, hupsert input hid⟩
  | delete id =>
    obtain ⟨hnext, hsources⟩ := sources_deleteEach db [id]
    exact ⟨_, rfl, by omega, hsources⟩

theorem sources_liveAll (hbatch : 0 < batchSize) (idle : ℕ → ℕ → Bool)
    {ops : List DocOp} (hids : ∀ op ∈ ops, op.externalId ≠ "")
    (hcap : db.nextLocalId + ops.length ≤ maxLocalDocId + 1) :
    ∃ db', db.liveAll batchSize idle ops = .ok db' ∧
      db'.sources = ops.foldl onSources db.sources := by
  induction ops generalizing db idle with
  | nil => exact ⟨db, rfl, rfl⟩
  | cons op rest ih =>
    rw [length_cons] at hcap
    have hfirst : db.nextLocalId ≤ maxLocalDocId := by omega
    obtain ⟨db₁, hok, hnext, hsources⟩ :=
      sources_live hbatch (idle 0) (hids op mem_cons_self) hfirst
    have hrest : db₁.nextLocalId + rest.length ≤ maxLocalDocId + 1 := by omega
    obtain ⟨db', hall, hsources'⟩ := ih (fun n => idle (n + 1))
      (fun o ho => hids o (mem_cons_of_mem _ ho)) hrest
    refine ⟨db', ?_, by rw [hsources', hsources]; rfl⟩
    rw [liveAll, hok]
    exact hall

/-! ### What the recovery loop does to the texts -/

theorem sortCreate_ok (hids : ∀ input ∈ inputs, input.externalId ≠ "")
    (hcap : db.nextLocalId + inputs.length ≤ maxLocalDocId + 1) :
    ∃ kept db', db.sortCreate inputs
        = .ok (inputs.filter (fun input => (db.sources.get? input.externalId).isNone), kept, db') ∧
      db'.sources = db.sources ∧
      db'.nextLocalId + (inputs.filter fun input => (db.sources.get? input.externalId).isNone).length
        ≤ db.nextLocalId + inputs.length := by
  induction inputs generalizing db with
  | nil => exact ⟨0, db, rfl, rfl, le_rfl⟩
  | cons input rest ih =>
    rw [length_cons] at hcap ⊢
    have hids' : ∀ i ∈ rest, i.externalId ≠ "" := fun i hi => hids i (mem_cons_of_mem _ hi)
    have hrest : db.nextLocalId + rest.length ≤ maxLocalDocId + 1 := by omega
    have hstored : db.sources.get? input.externalId
        = (db.getDocument input.externalId).map StoredDocument.source := get?_sources db _
    unfold sortCreate
    cases hget : db.getDocument input.externalId with
    | none =>
      have hpos : (db.sources.get? input.externalId).isNone := by rw [hstored, hget]; rfl
      obtain ⟨kept, db', hok, hsources, hnext⟩ := ih hids' hrest
      simp only [hok]
      rw [filter_cons_of_pos (by simpa using hpos), length_cons]
      exact ⟨kept, db', rfl, hsources, by omega⟩
    | some doc =>
      have hneg : ¬ (db.sources.get? input.externalId).isNone := by rw [hstored, hget]; simp
      rw [filter_cons_of_neg (by simpa using hneg)]
      simp only
      by_cases hsame : doc.source = input.source
      · have hfirst : db.nextLocalId ≤ maxLocalDocId := by omega
        obtain ⟨db₁, hup, hnext₁, hsources₁⟩ :=
          sources_upsertDocument hfirst (hids input mem_cons_self)
        have hkeep : db₁.sources = db.sources := by
          rw [hsources₁]
          exact insert_same (by rw [hstored, hget, Option.map_some, hsame])
        have hrest₁ : db₁.nextLocalId + rest.length ≤ maxLocalDocId + 1 := by omega
        obtain ⟨kept, db', hok, hsources, hnext⟩ := ih hids' hrest₁
        rw [hkeep] at hok hsources hnext
        simp only [if_pos hsame, hup]
        exact ⟨kept, db', hok, hsources, by omega⟩
      · obtain ⟨kept, db', hok, hsources, hnext⟩ := ih hids' hrest
        simp only [if_neg hsame, hok]
        exact ⟨kept + 1, db', rfl, hsources, by omega⟩

theorem sources_replayRecord (hbatch : 0 < batchSize) (idle : ℕ → Bool)
    {record : WalRecord} (hids : ∀ op ∈ record.ops, op.externalId ≠ "")
    (hcap : db.nextLocalId + record.ops.length ≤ maxLocalDocId + 1) :
    ∃ db', db.replayRecord batchSize idle record = .ok db' ∧
      db'.nextLocalId ≤ db.nextLocalId + record.ops.length ∧
      db'.sources = record.ops.foldl onSources db.sources := by
  cases record with
  | create inputs =>
    rw [WalRecord.ops, length_map] at hcap
    have hids' : ∀ input ∈ inputs, input.externalId ≠ "" :=
      fun input hi => hids (.create input) (mem_map_of_mem hi)
    obtain ⟨kept, db₁, hsort, hkeep, hnext₁⟩ := sortCreate_ok hids' hcap
    obtain ⟨report, db', hput, hnext, hsources⟩ :=
      sources_putDocumentsParallel hbatch idle (hnext₁.trans hcap)
    refine ⟨db', by rw [replayRecord]; simp only [hsort, hput], ?_, ?_⟩
    · rw [WalRecord.ops, length_map]
      exact hnext.trans hnext₁
    · rw [hsources, hkeep, foldl_create_filter inputs (fun _ hx => hx)]
      exact (foldl_create inputs _).symm
  | upsert inputs =>
    rw [WalRecord.ops, length_map] at hcap
    have hids' : ∀ input ∈ inputs, input.externalId ≠ "" :=
      fun input hi => hids (.upsert input) (mem_map_of_mem hi)
    obtain ⟨hall, hnext, hsources⟩ := upsertEach_spec hids' hcap
    refine ⟨_, by rw [replayRecord, hall], ?_, hsources⟩
    rw [WalRecord.ops, length_map, hnext]
  | replace inputs =>
    rw [WalRecord.ops, length_map] at hcap
    have hids' : ∀ input ∈ inputs, input.externalId ≠ "" :=
      fun input hi => hids (.replace input) (mem_map_of_mem hi)
    obtain ⟨hall, hnext, hsources⟩ := upsertEach_spec hids' hcap
    refine ⟨_, by rw [replayRecord, hall], ?_, hsources.trans ?_⟩
    · rw [WalRecord.ops, length_map, hnext]
    · rw [WalRecord.ops, foldl_map, foldl_map]
      rfl
  | delete ids =>
    obtain ⟨hnext, hsources⟩ := sources_foldl_deleteDocument db ids
    exact ⟨_, rfl, by omega, hsources⟩
  | clear => exact ⟨db, rfl, le_rfl, rfl⟩

theorem sources_replay (hbatch : 0 < batchSize) (idle : ℕ → ℕ → Bool)
    {history : List WalRecord} (hids : ∀ op ∈ history.flatMap WalRecord.ops, op.externalId ≠ "")
    (hcap : db.nextLocalId + (history.flatMap WalRecord.ops).length ≤ maxLocalDocId + 1) :
    ∃ db', db.replay batchSize idle history = .ok db' ∧
      db'.sources = (history.flatMap WalRecord.ops).foldl onSources db.sources := by
  induction history generalizing db idle with
  | nil => exact ⟨db, rfl, rfl⟩
  | cons record rest ih =>
    rw [flatMap_cons, length_append] at hcap
    rw [flatMap_cons] at hids
    have hfirst : db.nextLocalId + record.ops.length ≤ maxLocalDocId + 1 := by omega
    obtain ⟨db₁, hok, hnext, hsources⟩ := sources_replayRecord hbatch (idle 0)
      (fun op hop => hids op (mem_append_left _ hop)) hfirst
    have hrest : db₁.nextLocalId + (rest.flatMap WalRecord.ops).length ≤ maxLocalDocId + 1 := by omega
    obtain ⟨db', hall, hsources'⟩ := ih (fun n => idle (n + 1))
      (fun op hop => hids op (mem_append_right _ hop)) hrest
    refine ⟨db', ?_, ?_⟩
    · rw [replay, hok]
      exact hall
    · rw [hsources', hsources, flatMap_cons, foldl_append]

/-- Replay converges: a history replayed over a store that holds the effects of
its first `k` documents ends with the texts that applying it once gives.  Both
shards have ids left for the documents of the history. -/
theorem replay_converges {db₀ db : Database} {batchSize : ℕ} (hbatch : 0 < batchSize)
    (idle : ℕ → ℕ → Bool) {history : List WalRecord}
    (hids : ∀ op ∈ history.flatMap WalRecord.ops, op.externalId ≠ "")
    (hcap₀ : db₀.nextLocalId + (history.flatMap WalRecord.ops).length ≤ maxLocalDocId + 1)
    (hcap : db.nextLocalId + (history.flatMap WalRecord.ops).length ≤ maxLocalDocId + 1)
    (k : ℕ) :
    ∃ dbₖ dbₙ, db₀.liveAll batchSize idle ((history.flatMap WalRecord.ops).take k) = .ok dbₖ ∧
      db₀.liveAll batchSize idle (history.flatMap WalRecord.ops) = .ok dbₙ ∧
      (db.sources = dbₖ.sources → ∀ idle', ∃ db', db.replay batchSize idle' history = .ok db' ∧
        db'.sources = dbₙ.sources) := by
  have htake : ∀ op ∈ (history.flatMap WalRecord.ops).take k, op.externalId ≠ "" :=
    fun op hop => hids op (mem_of_mem_take hop)
  have hlen : ((history.flatMap WalRecord.ops).take k).length
      ≤ (history.flatMap WalRecord.ops).length := length_take_le' k _
  have hcapₖ : db₀.nextLocalId + ((history.flatMap WalRecord.ops).take k).length
      ≤ maxLocalDocId + 1 := by omega
  obtain ⟨dbₖ, hk, hsourcesₖ⟩ := sources_liveAll hbatch idle htake hcapₖ
  obtain ⟨dbₙ, hn, hsourcesₙ⟩ := sources_liveAll hbatch idle hids hcap₀
  refine ⟨dbₖ, dbₙ, hk, hn, fun hsame idle' => ?_⟩
  obtain ⟨db', hok, hsources⟩ := sources_replay hbatch idle' hids hcap
  refine ⟨db', hok, ?_⟩
  rw [hsources, hsame, hsourcesₖ, hsourcesₙ, foldl_take]

def noDocuments : Database := ⟨.empty, 0, 1, ⟨1⟩, []⟩

def plainInput (externalId : String) (source : List UInt8) : DocumentInput :=
  ⟨externalId, ⟨⟨[], [], []⟩, []⟩, source, .json⟩

/-- A history in which `a` is created, rejected, changed, deleted and created again. -/
def sampleHistory : List WalRecord :=
  [.create [plainInput "a" [1], plainInput "b" [2], plainInput "a" [3]],
   .upsert [plainInput "a" [4]], .delete ["a", "c"], .create [plainInput "a" [5]]]

theorem sampleHistory_converges :
    ∃ dbₖ dbₙ, noDocuments.liveAll 2 (fun _ _ => true) ((sampleHistory.flatMap WalRecord.ops).take 4)
        = .ok dbₖ ∧
      noDocuments.liveAll 2 (fun _ _ => true) (sampleHistory.flatMap WalRecord.ops) = .ok dbₙ ∧
      ∃ db', dbₖ.replay 2 (fun _ _ => false) sampleHistory = .ok db' ∧ db'.sources = dbₙ.sources := by
  have hids : ∀ op ∈ sampleHistory.flatMap WalRecord.ops, op.externalId ≠ "" := by decide
  have hcap : ∀ dbₖ, noDocuments.liveAll 2 (fun _ _ => true)
      ((sampleHistory.flatMap WalRecord.ops).take 4) = .ok dbₖ → dbₖ.nextLocalId = 4 := by
    rintro dbₖ ⟨⟩
    rfl
  have hbatch : 0 < 2 := by decide
  have hroom : noDocuments.nextLocalId + (sampleHistory.flatMap WalRecord.ops).length
      ≤ maxLocalDocId + 1 := by decide
  obtain ⟨dbₖ, dbₙ, hk, hn, -⟩ := replay_converges hbatch (fun _ _ => true) hids hroom hroom 4
  have hroomₖ : dbₖ.nextLocalId + (sampleHistory.flatMap WalRecord.ops).length
      ≤ maxLocalDocId + 1 := by rw [hcap dbₖ hk]; decide
  obtain ⟨dbₖ', dbₙ', hk', hn', hreplay⟩ :=
    replay_converges hbatch (fun _ _ => true) hids hroom hroomₖ 4
  obtain rfl : dbₖ = dbₖ' := Except.ok.inj (hk.symm.trans hk')
  exact ⟨dbₖ, dbₙ', hk, hn', hreplay rfl _⟩

end Database

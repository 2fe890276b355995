/-
What the writes of a database issue.

A write adds effects to the list of a database and takes ids for the documents
it sends to the index: one document id each, and one row id for each element of
an indexed array.
-/
import Riets.WalReplay

def Effect.documents : Effect → List AnalyzedDocument
  | .addIndexed docs => docs
  | _ => []

def Effect.stored : Effect → List StoredDocument
  | .put docs => docs
  | _ => []

def Effect.isCommand : Effect → Bool
  | .deleteIndexed _ | .addIndexed _ => true
  | _ => false

namespace Database

def issuedDocs (db : Database) : List AnalyzedDocument := db.issued.flatMap Effect.documents

def highestStored (db : Database) : DocId :=
  ((db.issued.flatMap Effect.stored).map StoredDocument.internalId).foldl max 0

def liveIds (db : Database) : List DocId := db.store.entries.map fun e => e.2.internalId

end Database

namespace Database

open List

/-- The ids of a document were taken between two states of the counters. -/
structure Between (db db' : Database) (doc : AnalyzedDocument) : Prop where
  docId : ∃ localId, db.nextLocalId ≤ localId ∧ localId < db'.nextLocalId ∧
    makeDocId db.shardId localId = some doc.docId
  rows : ∀ row ∈ doc.arrayRows, db.arrayRowAllocator.next ≤ row.arrayRowId ∧
    row.arrayRowId < db'.arrayRowAllocator.next

/-- Every document that was sent to the index was put into the store. -/
def Stored (db : Database) : Prop :=
  ∀ doc ∈ db.issuedDocs, ∃ stored ∈ db.issued.flatMap Effect.stored, stored.internalId = doc.docId

/-- `db'` comes from `db` by issuing effects. -/
structure Issues (db db' : Database) : Prop where
  shard : db'.shardId = db.shardId
  nextLocalId_le : db.nextLocalId ≤ db'.nextLocalId
  nextRow_le : db.arrayRowAllocator.next ≤ db'.arrayRowAllocator.next
  issued : ∃ new, db'.issued = db.issued ++ new ∧ ∀ e ∈ new, ∀ doc ∈ e.documents, Between db db' doc
  stored : db.Stored → db'.Stored

variable {db db₁ db₂ : Database}

theorem Between.mono {doc : AnalyzedDocument} (h : Between db db₁ doc)
    (hlocal : db₁.nextLocalId ≤ db₂.nextLocalId)
    (hrow : db₁.arrayRowAllocator.next ≤ db₂.arrayRowAllocator.next) : Between db db₂ doc := by
  obtain ⟨localId, hle, hlt, hid⟩ := h.docId
  exact ⟨⟨localId, hle, lt_of_lt_of_le hlt hlocal, hid⟩,
    fun row hr => ⟨(h.rows row hr).1, lt_of_lt_of_le (h.rows row hr).2 hrow⟩⟩

theorem Between.of_issues {doc : AnalyzedDocument} (hi : Issues db db₁) (h : Between db₁ db₂ doc) :
    Between db db₂ doc := by
  obtain ⟨localId, hle, hlt, hid⟩ := h.docId
  exact ⟨⟨localId, hi.nextLocalId_le.trans hle, hlt, hi.shard ▸ hid⟩,
    fun row hr => ⟨hi.nextRow_le.trans (h.rows row hr).1, (h.rows row hr).2⟩⟩

namespace Issues

theorem refl (db : Database) : Issues db db where
  shard := rfl
  nextLocalId_le := le_rfl
  nextRow_le := le_rfl
  issued := ⟨[], (append_nil _).symm, fun e he => by cases he⟩
  stored := id

theorem trans (h : Issues db db₁) (h' : Issues db₁ db₂) : Issues db db₂ where
  shard := h'.shard.trans h.shard
  nextLocalId_le := h.nextLocalId_le.trans h'.nextLocalId_le
  nextRow_le := h.nextRow_le.trans h'.nextRow_le
  issued := by
    obtain ⟨new, hnew, hdocs⟩ := h.issued
    obtain ⟨new', hnew', hdocs'⟩ := h'.issued
    refine ⟨new ++ new', by rw [hnew', hnew, append_assoc], fun e he doc hdoc => ?_⟩
    rcases mem_append.mp he with he | he
    · exact (hdocs e he doc hdoc).mono h'.nextLocalId_le h'.nextRow_le
    · exact Between.of_issues h (hdocs' e he doc hdoc)
  stored hdb := h'.stored (h.stored hdb)

/-- Effects are added whose documents, if they have any, are put into the store by one of them. -/
theorem append (h : Issues db db₁) {effects : List Effect} {db₂ : Database}
    (hdb : db₂ = { db₁ with store := db₂.store, issued := db₁.issued ++ effects })
    (hdocs : ∀ e ∈ effects, ∀ doc ∈ e.documents, Between db db₁ doc ∧
      ∃ stored ∈ effects.flatMap Effect.stored, stored.internalId = doc.docId) : Issues db db₂ := by
  rw [hdb]
  refine ⟨h.shard, h.nextLocalId_le, h.nextRow_le, ?_, fun hstored doc hdoc => ?_⟩
  · obtain ⟨new, hnew, hold⟩ := h.issued
    refine ⟨new ++ effects, by rw [hnew, append_assoc], fun e he doc hdoc => ?_⟩
    rcases mem_append.mp he with he | he
    · exact (hold e he doc hdoc).mono le_rfl le_rfl
    · exact (hdocs e he doc hdoc).1.mono le_rfl le_rfl
  · simp only [issuedDocs, flatMap_append, mem_append] at hdoc ⊢
    rcases hdoc with hdoc | hdoc
    · obtain ⟨stored, hmem, hid⟩ := h.stored hstored doc hdoc
      exact ⟨stored, .inl hmem, hid⟩
    · obtain ⟨e, he, hdoc⟩ := mem_flatMap.mp hdoc
      obtain ⟨stored, hmem, hid⟩ := (hdocs e he doc hdoc).2
      exact ⟨stored, .inr hmem, hid⟩

theorem emit (h : Issues db db₁) {e : Effect} (hdocs : e.documents = []) : Issues db (db₁.emit e) :=
  @append db db₁ h [e] _ rfl fun e' he' doc hdoc => by
    rw [mem_singleton.mp he', hdocs] at hdoc
    cases hdoc

theorem deleteOld (h : Issues db db₁) (externalId : String) : Issues db (db₁.deleteOld externalId) := by
  unfold Database.deleteOld
  cases db₁.store.get? externalId with
  | none => exact h
  | some old => exact h.emit rfl

theorem deleteDocument (h : Issues db db₁) (externalId : String) :
    Issues db (db₁.deleteDocument externalId) :=
  (h.deleteOld externalId).emit rfl

theorem number (h : Issues db db₁) {id : DocId} {localId : ℕ}
    (hid : makeDocId db.shardId localId = some id) (hle : db.nextLocalId ≤ localId)
    (hlt : localId < db₁.nextLocalId) (content : DocumentContent) :
    Issues db { db₁ with arrayRowAllocator := (indexDocument id content db₁.arrayRowAllocator).2 } ∧
      Between db { db₁ with arrayRowAllocator := (indexDocument id content db₁.arrayRowAllocator).2 }
        (indexDocument id content db₁.arrayRowAllocator).1 := by
  obtain ⟨hnext, hrows⟩ := indexArrays_rows none content.arrays db₁.arrayRowAllocator
  constructor
  · refine ⟨h.shard, h.nextLocalId_le, h.nextRow_le.trans hnext, ?_, h.stored⟩
    obtain ⟨new, hnew, hdocs⟩ := h.issued
    exact ⟨new, hnew, fun e he doc hdoc => (hdocs e he doc hdoc).mono le_rfl hnext⟩
  · exact ⟨⟨localId, hle, hlt, hid⟩,
      fun row hr => ⟨h.nextRow_le.trans (hrows row hr).1, (hrows row hr).2⟩⟩

end Issues

theorem allocateInternalId_eq_ok {id : DocId} (h : db.allocateInternalId = .ok (id, db₁)) :
    makeDocId db.shardId db.nextLocalId = some id ∧
      db₁ = { db with nextLocalId := db.nextLocalId + 1 } := by
  unfold allocateInternalId at h
  cases hid : makeDocId db.shardId db.nextLocalId with
  | none =>
    rw [hid] at h
    cases h
  | some id' =>
    rw [hid] at h
    obtain ⟨rfl, rfl⟩ := Prod.mk.inj (Except.ok.inj h)
    exact ⟨rfl, rfl⟩

theorem lt_nextLocalId {shardId localId highest n : ℕ} {id : DocId}
    (hnext : nextLocalIdForShard highest shardId = .ok n) (hid : makeDocId shardId localId = some id)
    (hone : 1 ≤ localId) (hle : id ≤ highest) : localId < n := by
  have hid' : id = shardId * 2 ^ localBits + localId := by
    rw [makeDocId] at hid
    split_ifs at hid
    exact (Option.some_inj.1 hid).symm
  have hpos : 0 < 2 ^ localBits := Nat.two_pow_pos _
  rw [nextLocalIdForShard] at hnext
  split_ifs at hnext with hzero hshard
  · have hle' : shardId * 2 ^ localBits + localId ≤ 0 := by
      rw [← hid', ← hzero]
      exact hle
    omega
  · cases hnext
    have hsplit := Nat.div_add_mod highest (2 ^ localBits)
    have hshard' : highest / 2 ^ localBits = shardId := not_not.1 hshard
    have hle' : shardId * 2 ^ localBits + localId ≤ highest := hid' ▸ hle
    rw [hshard', Nat.mul_comm] at hsplit
    show localId < highest % 2 ^ localBits + 1
    omega

theorem Issues.allocate (h : Issues db db₁) :
    Issues db { db₁ with nextLocalId := db₁.nextLocalId + 1 } := by
  obtain ⟨new, hnew, hdocs⟩ := h.issued
  refine ⟨h.shard, h.nextLocalId_le.trans (Nat.le_succ _), h.nextRow_le, ⟨new, hnew, ?_⟩, h.stored⟩
  exact fun e he doc hdoc => (hdocs e he doc hdoc).mono (Nat.le_succ _) le_rfl

theorem issues_upsertDocument {input : DocumentInput} (h : db.upsertDocument input = .ok db₁) :
    Issues db db₁ := by
  unfold upsertDocument at h
  cases halloc : db.allocateInternalId with
  | error e =>
    rw [halloc] at h
    cases h
  | ok r =>
    obtain ⟨id, db₂⟩ := r
    obtain ⟨hid, rfl⟩ := allocateInternalId_eq_ok halloc
    rw [halloc] at h
    obtain ⟨externalId, hext⟩ : ∃ externalId, externalId =
      if input.externalId = "" then toString id else input.externalId := ⟨_, rfl⟩
    simp only [← hext] at h
    have hold := (Issues.refl db).allocate.deleteOld externalId
    have hnext := (deleteOld_frame { db with nextLocalId := db.nextLocalId + 1 } externalId).2
    obtain ⟨hissues, hbetween⟩ := hold.number hid le_rfl (by rw [hnext]; exact Nat.lt_succ_self _)
      input.content
    rw [← Except.ok.inj h]
    refine @Issues.append _ _ hissues [_, .put [⟨externalId, id, input.format, input.source⟩]] _
      (by rw [emit, emit, append_assoc]; rfl) fun e he doc hdoc => ?_
    rcases mem_cons.mp he with rfl | he
    · obtain rfl := mem_singleton.mp hdoc
      exact ⟨hbetween, ⟨externalId, id, input.format, input.source⟩, by simp [Effect.stored], rfl⟩
    · rw [mem_singleton.mp he] at hdoc
      cases hdoc

theorem issues_upsertEach (db : Database) (inputs : List DocumentInput) :
    Issues db (db.upsertEach inputs).2 := by
  induction inputs generalizing db with
  | nil => exact Issues.refl db
  | cons input rest ih =>
    rw [upsertEach]
    cases hup : db.upsertDocument input with
    | ok db' => exact (issues_upsertDocument hup).trans (ih db')
    | error e => exact ih db

theorem issues_upsertAll {inputs : List DocumentInput} (h : db.upsertAll inputs = .ok db₁) :
    Issues db db₁ := by
  induction inputs generalizing db with
  | nil =>
    obtain rfl := Except.ok.inj h
    exact Issues.refl db
  | cons input rest ih =>
    rw [upsertAll] at h
    cases hup : db.upsertDocument input with
    | error e =>
      rw [hup] at h
      cases h
    | ok db' =>
      rw [hup] at h
      exact (issues_upsertDocument hup).trans (ih h)

theorem issues_deleteEach (db : Database) (ids : List String) : Issues db (db.deleteEach ids).2 := by
  induction ids generalizing db with
  | nil => exact Issues.refl db
  | cons id rest ih =>
    rw [deleteEach]
    cases db.getDocument id with
    | none => exact ih db
    | some doc => exact ((Issues.refl db).deleteDocument id).trans (ih _)

theorem issues_foldl_deleteDocument (db : Database) (ids : List String) :
    Issues db (ids.foldl deleteDocument db) := by
  induction ids generalizing db with
  | nil => exact Issues.refl db
  | cons id rest ih => exact ((Issues.refl db).deleteDocument id).trans (ih _)

end Database

/-! ### Imports -/

namespace IndexPipeline

structure Issues (db : Database) (p : IndexPipeline) : Prop where
  issues : db.Issues p.db
  batch : ∀ doc ∈ p.currentBatch, db.Between p.db doc
  stored : ∀ doc ∈ p.currentBatch, ∃ stored ∈ p.currentStoreBatch, stored.internalId = doc.docId

variable {db : Database} {p p' : IndexPipeline}

theorem Issues.flushBatch (h : Issues db p) : Issues db p.flushBatch := by
  unfold IndexPipeline.flushBatch
  split_ifs
  · exact h
  · refine ⟨@Database.Issues.append _ _ h.issues [.put p.currentStoreBatch, .addIndexed p.currentBatch] _
      (by rw [Database.emit, Database.emit, List.append_assoc]; rfl) fun e he doc hdoc => ?_,
      fun _ h => absurd h List.not_mem_nil, fun _ h => absurd h List.not_mem_nil⟩
    rcases List.mem_cons.mp he with rfl | he
    · cases hdoc
    · rw [List.mem_singleton.mp he] at hdoc
      refine ⟨h.batch doc hdoc, ?_⟩
      simpa [Effect.stored] using h.stored doc hdoc

variable {inputIndex : ℕ}

theorem Issues.accept (h : Issues db p) {input : DocumentInput} {accepted : Bool}
    (haccept : p.accept input inputIndex = .ok (accepted, p')) : Issues db p' := by
  unfold IndexPipeline.accept at haccept
  split_ifs at haccept with hex
  · rw [← (Prod.mk.inj (Except.ok.inj haccept)).2]
    exact ⟨h.issues, h.batch, h.stored⟩
  · cases halloc : p.db.allocateInternalId with
    | error e =>
      rw [halloc] at haccept
      cases haccept
    | ok r =>
      obtain ⟨id, db₂⟩ := r
      obtain ⟨hid, rfl⟩ := Database.allocateInternalId_eq_ok halloc
      rw [halloc] at haccept
      simp only at haccept
      obtain ⟨hissues, hbetween⟩ := h.issues.allocate.number (h.issues.shard ▸ hid)
        h.issues.nextLocalId_le (Nat.lt_succ_self p.db.nextLocalId) input.content
      obtain ⟨hnext, -⟩ := indexArrays_rows none input.content.arrays p.db.arrayRowAllocator
      rw [← (Prod.mk.inj (Except.ok.inj haccept)).2]
      refine ⟨hissues, fun doc hdoc => ?_, fun doc hdoc => ?_⟩
      all_goals rcases List.mem_append.mp hdoc with hdoc | hdoc
      · exact (h.batch doc hdoc).mono (Nat.le_succ _) hnext
      · obtain rfl := List.mem_singleton.mp hdoc
        exact hbetween
      · obtain ⟨stored, hmem, hid⟩ := h.stored doc hdoc
        exact ⟨stored, List.mem_append_left _ hmem, hid⟩
      · obtain rfl := List.mem_singleton.mp hdoc
        exact ⟨_, List.mem_append_right _ (List.mem_singleton.mpr rfl), rfl⟩

theorem Issues.push (h : Issues db p) {input : DocumentInput} {idle : Bool}
    (hpush : p.push input inputIndex idle = .ok p') : Issues db p' := by
  unfold IndexPipeline.push at hpush
  cases haccept : p.accept input inputIndex with
  | error e =>
    rw [haccept] at hpush
    cases hpush
  | ok r =>
    obtain ⟨accepted, q⟩ := r
    rw [haccept] at hpush
    simp only at hpush
    split_ifs at hpush
    · rw [← Except.ok.inj hpush]
      exact (h.accept haccept).flushBatch
    · rw [← Except.ok.inj hpush]
      exact h.accept haccept

theorem Issues.pushAll (h : Issues db p) {idle : ℕ → Bool} {inputs : List DocumentInput}
    (hpush : p.pushAll idle inputs inputIndex = .ok p') : Issues db p' := by
  induction inputs generalizing p inputIndex with
  | nil =>
    obtain rfl := Except.ok.inj hpush
    exact h
  | cons input rest ih =>
    rw [pushAll] at hpush
    cases hone : p.push input inputIndex (idle inputIndex) with
    | error e =>
      rw [hone] at hpush
      cases hpush
    | ok q =>
      rw [hone] at hpush
      exact ih (h.push hone) hpush

end IndexPipeline

namespace Database

variable {db db₁ : Database}

variable {batchSize : ℕ} {idle : ℕ → Bool}

theorem issues_putDocumentsParallel {inputs : List DocumentInput}
    {report : InsertReport} (h : db.putDocumentsParallel inputs batchSize idle = .ok (report, db₁)) :
    Issues db db₁ := by
  unfold putDocumentsParallel beginImport at h
  split_ifs at h
  simp only at h
  cases hall : IndexPipeline.pushAll ⟨db, batchSize, [], [], 0, [], ∅⟩ idle inputs 0 with
  | error e =>
    rw [hall] at h
    cases h
  | ok p =>
    rw [hall] at h
    have hp : IndexPipeline.Issues db p :=
      IndexPipeline.Issues.pushAll ⟨Issues.refl db, fun _ h => absurd h List.not_mem_nil, fun _ h => absurd h List.not_mem_nil⟩ hall
    rw [← (Prod.mk.inj (Except.ok.inj h)).2]
    exact hp.flushBatch.issues

theorem issues_write {w : Write} {record : Option WalRecord}
    {report : WriteReport} (h : db.write batchSize idle w = .ok (record, report, db₁)) :
    Issues db db₁ := by
  cases w with
  | insert inputs =>
    rw [write] at h
    cases hput : db.putDocumentsParallel inputs batchSize idle with
    | error e =>
      rw [hput] at h
      cases h
    | ok r =>
      rw [hput] at h
      cases h
      exact issues_putDocumentsParallel hput
  | upsert inputs =>
    have hdb : (db.upsertEach inputs).2 = db₁ := congrArg (fun r => r.2.2) (Except.ok.inj h)
    exact hdb ▸ issues_upsertEach db inputs
  | replace inputs =>
    unfold write at h
    simp only at h
    split_ifs at h
    · cases h
      exact Issues.refl db
    · cases h
      exact issues_upsertEach db _
  | delete ids =>
    have hdb : (db.deleteEach ids).2 = db₁ := congrArg (fun r => r.2.2) (Except.ok.inj h)
    exact hdb ▸ issues_deleteEach db ids

theorem issues_sortCreate {inputs fresh : List DocumentInput} {kept : ℕ}
    (h : db.sortCreate inputs = .ok (fresh, kept, db₁)) : Issues db db₁ := by
  induction inputs generalizing db fresh kept with
  | nil =>
    cases h
    exact Issues.refl _
  | cons input rest ih =>
    unfold sortCreate at h
    split at h
    · split at h
      · cases h
      · cases h
        exact ih ‹_›
    · split_ifs at h
      · split at h
        · cases h
        · exact (issues_upsertDocument ‹_›).trans (ih h)
      · split at h
        · cases h
        · cases h
          exact ih ‹_›

theorem issues_replayRecord {record : WalRecord}
    (h : db.replayRecord batchSize idle record = .ok db₁) : Issues db db₁ := by
  cases record with
  | create inputs =>
    unfold replayRecord at h
    simp only at h
    split at h
    · cases h
    · split at h
      · cases h
      · cases h
        exact (issues_sortCreate ‹_›).trans (issues_putDocumentsParallel ‹_›)
  | upsert inputs =>
    unfold replayRecord at h
    simp only at h
    split at h
    · cases h
    · cases h
      exact issues_upsertAll ‹_›
  | replace inputs =>
    unfold replayRecord at h
    simp only at h
    split at h
    · cases h
    · cases h
      exact issues_upsertAll ‹_›
  | delete ids =>
    cases h
    exact issues_foldl_deleteDocument db ids
  | clear =>
    cases h
    exact Issues.refl db

end Database

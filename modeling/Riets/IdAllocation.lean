/-
The ids of documents over the whole life of a shard.

A running shard counts its ids up; after a start the next id is one above the
highest id the store and the index still know.  A run here is made of the steps
the operations of a shard are made of: an id is allocated, documents with such
ids are put into the store and merged into the index, documents are deleted,
both sides flush and compact, and the shard stops, crashes and starts.
-/
import Riets.StoreMark
import Riets.Shard
import Riets.Resurrection

open StoreDir BinaryDocumentStore

structure IdShard where
  store : StoreRun
  world : World
  directory : Directory
  shardId : ℕ
  nextLocalId : ℕ
  running : Bool
  stored : List DocId
  indexed : List DocId

inductive IdStep where
  | allocate
  | store (st : StoreStep)
  | index (a : IndexAction)
  | stop
  | crash
  | start

/-- An operation of an open store.  Its maps are saved by a stop or an install. -/
def StoreStep.onOpen : StoreStep → Bool
  | .saveMaps => false
  | .reopen => false
  | _ => true

namespace IdShard

open List AnalyzedDocument Marked Nat

def empty (shardId : ℕ) : IdShard where
  store := StoreRun.new
  world := World.start [] ∅
  directory := ⟨[], ∅⟩
  shardId := shardId
  nextLocalId := 1
  running := true
  stored := []
  indexed := []

def given (s : IdShard) : List DocId := s.stored ++ s.indexed

def allocateInternalId (s : IdShard) : IoResult (DocId × IdShard) :=
  match makeDocId s.shardId s.nextLocalId with
  | none => .error ("document ID space exhausted for shard " ++ toString s.shardId)
  | some id => .ok (id, { s with nextLocalId := s.nextLocalId + 1 })

def Allocated (s : IdShard) (id : DocId) : Prop :=
  ∃ localId < s.nextLocalId, makeDocId s.shardId localId = some id ∧ 1 ≤ localId

instance (s : IdShard) (id : DocId) : Decidable (s.Allocated id) :=
  inferInstanceAs (Decidable (∃ localId < s.nextLocalId, _))

def onStore (s : IdShard) (st : StoreStep) : IdShard :=
  if st.onOpen ∧ ∀ id ∈ st.ids, s.Allocated id then
    match s.store.step st with
    | .ok store => { s with store, stored := st.ids ++ s.stored }
    | .error _ => s
  else s

def onIndex (s : IdShard) (a : IndexAction) : IdShard :=
  let ids := a.documents.map docId
  if ∀ id ∈ ids, s.Allocated id then
    { s with
      world := s.world.step a
      directory := s.directory.step s.world a
      indexed := ids ++ s.indexed }
  else s

def openManifest (s : IdShard) : Option (List (ℕ × Segment)) :=
  s.directory.manifest.mapM fun n => (s.world.files.get? n).map (Prod.mk n)

/-- `start`: the index and the store are opened, and the next id follows the
highest id they know.  A start that fails leaves the shard stopped. -/
def start (s : IdShard) : IdShard :=
  match s.openManifest, openWithMaps s.store.store.dir with
  | some manifest, .ok store =>
    let world := World.start manifest s.directory.tombstones
    match nextLocalIdForShard (max store.highestId world.index.highestKnownDocId) s.shardId with
    | .ok nextLocalId =>
      { s with store := ⟨store, .idle⟩, world := world, nextLocalId := nextLocalId, running := true }
    | .error _ => s
  | _, _ => s

/-- `stop`: the maps are saved with the highest id of the open store. -/
def stop (s : IdShard) : IdShard :=
  { s with
    store := ⟨s.store.store.saveMaps s.store.store.highestId, .idle⟩
    running := false }

def step (s : IdShard) : IdStep → IdShard
  | .allocate =>
    if s.running then
      match s.allocateInternalId with
      | .ok (_, s') => s'
      | .error _ => s
    else s
  | .store st => if s.running then s.onStore st else s
  | .index a => if s.running then s.onIndex a else s
  | .stop => if s.running then s.stop else s
  | .crash => { s with running := false }
  | .start => if s.running then s else s.start

def run (s : IdShard) (steps : List IdStep) : IdShard := steps.foldl step s

/-! ### The condition on the steps -/

/-- The condition on one step: whenever the maps are saved, the open store knows
every id given so far, and no crash comes between the index step and the store
step of a write. -/
def StepOk (s : IdShard) : IdStep → Prop
  | .store st => st.saves s.store → Known s.store.store s.given
  | .stop => s.running = true → Known s.store.store s.given
  | .crash => s.running = true → ∀ id ∈ s.indexed, id ∈ s.stored
  | _ => True

def Meets (s : IdShard) : List IdStep → Prop
  | [] => True
  | st :: steps => s.StepOk st ∧ (s.step st).Meets steps

/-- The ids given are below the next one while the shard runs, and recorded by
the files of the store while it does not. -/
structure Ok (s : IdShard) : Prop where
  next : 1 ≤ s.nextLocalId
  allocated : s.running = true → ∀ id ∈ s.given, s.Allocated id
  owned : ∀ id ∈ s.given, ∃ localId, makeDocId s.shardId localId = some id ∧ 1 ≤ localId
  marked : ∃ logs, s.store.Valid logs ∧ Marked s.store logs s.stored ∧
    (s.running = false → Marked s.store logs s.given)

variable {s : IdShard}

theorem Ok.of_allocated {id : DocId} (h : s.Allocated id) :
    ∃ localId, makeDocId s.shardId localId = some id ∧ 1 ≤ localId := by
  obtain ⟨localId, -, hid, hone⟩ := h
  exact ⟨localId, hid, hone⟩

theorem mem_given {id : DocId} : id ∈ s.given ↔ id ∈ s.stored ∨ id ∈ s.indexed := mem_append

theorem Ok.allocate (h : s.Ok) : (s.step .allocate).Ok := by
  rw [step]
  split_ifs with hrun
  · rw [allocateInternalId]
    cases hid : makeDocId s.shardId s.nextLocalId with
    | none => exact h
    | some id =>
      refine ⟨le_succ_of_le h.next, fun _ id' hid' => ?_, h.owned, h.marked⟩
      obtain ⟨localId, hlt, hmake, hone⟩ := h.allocated hrun id' hid'
      exact ⟨localId, lt_succ_of_lt hlt, hmake, hone⟩
  · exact h

theorem Ok.onStore (h : s.Ok) (hrun : s.running = true) (st : StoreStep)
    (hst : st.saves s.store → Known s.store.store s.given) : (s.onStore st).Ok := by
  unfold IdShard.onStore
  split_ifs with hids
  · obtain ⟨logs, hvalid, hmarked, -⟩ := h.marked
    obtain ⟨r', logs', hstep, hvalid', hmarked'⟩ := hmarked.step hvalid st fun hsaves id hid =>
      hst hsaves id (mem_given.2 (.inl hid))
    have hstored : Ok { s with store := r', stored := st.ids ++ s.stored } := by
      have hgiven : ∀ id ∈ given { s with store := r', stored := st.ids ++ s.stored },
          s.Allocated id := by
        intro id hid
        rcases mem_given.1 hid with hin | hin
        · rcases mem_append.1 hin with hnew | hold
          · exact hids.2 id hnew
          · exact h.allocated hrun id (mem_given.2 (.inl hold))
        · exact h.allocated hrun id (mem_given.2 (.inr hin))
      refine ⟨h.next, fun _ => hgiven, fun id hid => Ok.of_allocated (hgiven id hid), logs', hvalid',
        hmarked', fun hoff => ?_⟩
      rw [show s.running = true from hrun] at hoff
      cases hoff
    rw [hstep]
    exact hstored
  · exact h

theorem Ok.onIndex (h : s.Ok) (hrun : s.running = true) (a : IndexAction) : (s.onIndex a).Ok := by
  unfold IdShard.onIndex
  simp only
  split_ifs with hids
  · obtain ⟨logs, hvalid, hmarked, -⟩ := h.marked
    have hgiven : ∀ id, id ∈ s.stored ∨
        id ∈ a.documents.map docId ++ s.indexed → s.Allocated id := by
      intro id hid
      rcases hid with hin | hin
      · exact h.allocated hrun id (mem_given.2 (.inl hin))
      · rcases mem_append.1 hin with hnew | hold
        · exact hids id hnew
        · exact h.allocated hrun id (mem_given.2 (.inr hold))
    refine ⟨h.next, fun _ id hid => hgiven id (mem_given.1 hid),
      fun id hid => Ok.of_allocated (hgiven id (mem_given.1 hid)), logs, hvalid, hmarked,
      fun hoff => ?_⟩
    rw [show s.running = true from hrun] at hoff
    cases hoff
  · exact h

theorem Ok.stop (h : s.Ok) (hknown : Known s.store.store s.given) : s.stop.Ok := by
  obtain ⟨logs, hvalid, -, -⟩ := h.marked
  have hsaved := saveMaps hvalid hknown
  have hidle : Marked s.stop.store logs s.given := hsaved.congr rfl rfl rfl
  refine ⟨h.next, ?_, h.owned, logs, (hvalid.saveMaps _).idle,
    hidle.mono fun id hid => mem_given.2 (.inl hid), fun _ => hidle⟩
  intro hon
  cases hon

theorem Ok.crash (h : s.Ok) (hstored : s.running = true → ∀ id ∈ s.indexed, id ∈ s.stored) :
    (s.step .crash).Ok := by
  obtain ⟨logs, hvalid, hmarked, hoff⟩ := h.marked
  refine ⟨h.next, fun hon => ?_, h.owned, logs, hvalid, hmarked, fun _ => ?_⟩
  · cases hon
  cases hrun : s.running with
  | false => exact hoff hrun
  | true =>
    refine hmarked.mono fun id hid => ?_
    rcases mem_given.1 hid with hin | hin
    · exact hin
    · exact hstored hrun id hin

theorem Ok.start (h : s.Ok) (hoff : s.running = false) : s.start.Ok := by
  obtain ⟨logs, hvalid, hmarked, hgiven⟩ := h.marked
  rw [IdShard.start]
  cases hmanifest : s.openManifest with
  | none => exact h
  | some manifest =>
    cases hopen : openWithMaps s.store.store.dir with
    | error e => exact h
    | ok store =>
      dsimp only
      cases hnext : nextLocalIdForShard (max store.highestId
          (World.start manifest s.directory.tombstones).index.highestKnownDocId) s.shardId with
      | error e => exact h
      | ok n =>
        obtain ⟨logs', hvalid', hmarked'⟩ := hmarked.reopened hvalid hopen
        obtain ⟨s', -, hopen', -, -, -, -, -, -, l, hload, hhigh⟩ := hvalid.reopened
        rw [hopen] at hopen'
        cases hopen'
        have hlt : ∀ id ∈ s.given, ∃ localId < n, makeDocId s.shardId localId = some id ∧
            1 ≤ localId := by
          intro id hid
          obtain ⟨localId, hmake, hone⟩ := h.owned id hid
          have hle := (hgiven hoff).le_highestId hvalid hload hid
          rw [← hhigh] at hle
          exact ⟨localId, Database.lt_nextLocalId hnext hmake hone (hle.trans (le_max_left _ _)), hmake, hone⟩
        have hn : 1 ≤ n := by
          rw [nextLocalIdForShard] at hnext
          split_ifs at hnext
          · cases hnext
            exact le_rfl
          · cases hnext
            exact succ_le_succ (zero_le _)
        refine ⟨hn, fun _ => hlt, h.owned, logs', hvalid', hmarked', fun hoff' => ?_⟩
        cases hoff'

theorem Ok.step (h : s.Ok) {st : IdStep} (hst : s.StepOk st) : (s.step st).Ok := by
  cases st with
  | allocate => exact h.allocate
  | store st =>
    rw [IdShard.step]
    split_ifs with hrun
    · exact h.onStore hrun st hst
    · exact h
  | index a =>
    rw [IdShard.step]
    split_ifs with hrun
    · exact h.onIndex hrun a
    · exact h
  | stop =>
    rw [IdShard.step]
    split_ifs with hrun
    · exact h.stop (hst hrun)
    · exact h
  | crash => exact h.crash hst
  | start =>
    rw [IdShard.step]
    split_ifs with hrun
    · exact h
    · exact h.start (Bool.not_eq_true _ ▸ hrun)

theorem Ok.run (h : s.Ok) {steps : List IdStep} (hmeets : s.Meets steps) : (s.run steps).Ok := by
  induction steps generalizing s with
  | nil => exact h
  | cons st steps ih => exact ih (h.step hmeets.1) hmeets.2

theorem ok_empty (shardId : ℕ) : (empty shardId).Ok where
  next := le_rfl
  allocated _ _ hid := absurd hid not_mem_nil
  owned _ hid := absurd hid not_mem_nil
  marked := by
    refine ⟨newLogs, valid_new, ⟨fun _ _ hid => absurd hid not_mem_nil, fun m hm => ?_⟩,
      fun hoff => ?_⟩
    · cases hm
    · cases hoff

/-- **No id is given twice.**  In every run whose steps meet `StepOk`, the id a
running shard allocates next belongs to no document that ever reached its store
or its index. -/
theorem ids_fresh (shardId : ℕ) (steps : List IdStep) (hmeets : (IdShard.empty shardId).Meets steps)
    (hrun : ((IdShard.empty shardId).run steps).running = true) (id : DocId) (s' : IdShard)
    (halloc : ((IdShard.empty shardId).run steps).allocateInternalId = .ok (id, s')) :
    id ∉ ((IdShard.empty shardId).run steps).given := by
  intro hid
  have hok := (ok_empty shardId).run hmeets
  generalize (empty shardId).run steps = s at *
  obtain ⟨localId, hlt, hmake, -⟩ := hok.allocated hrun id hid
  rw [allocateInternalId] at halloc
  cases hnext : makeDocId s.shardId s.nextLocalId with
  | none =>
    rw [hnext] at halloc
    cases halloc
  | some id' =>
    rw [hnext] at halloc
    cases halloc
    rw [makeDocId] at hmake hnext
    split_ifs at hmake hnext
    have heq : s.shardId * 2 ^ localBits + localId = s.shardId * 2 ^ localBits + s.nextLocalId :=
      Option.some_inj.1 (hmake.trans hnext.symm)
    omega

/-! ### A run that keeps its ids apart, and one that does not -/

def smallDocument : StoredDocument := ⟨"a", 1, .json, [0]⟩

def smallFitting : FittingDocument := ⟨smallDocument, by decide, by decide⟩

def upserted : List IdStep :=
  [.allocate, .index (.mergeIntoMemtable [World.oneWord 1]), .store (.put smallFitting), .stop, .start]

theorem upserted_fresh :
    (empty 0).Meets upserted ∧ ∃ id s',
      ((empty 0).run upserted).allocateInternalId = .ok (id, s') ∧
        id ∉ ((empty 0).run upserted).given := by
  have hknown : ∀ id ∈ ((empty 0).run (upserted.take 3)).given,
      id ≤ ((empty 0).run (upserted.take 3)).store.store.highestId := by decide +kernel
  have hmeets : (empty 0).Meets upserted :=
    ⟨trivial, trivial, False.elim, fun _ id hid => .inl (hknown id hid), trivial, trivial⟩
  have hrun : ((empty 0).run upserted).running = true := by decide +kernel
  obtain ⟨id, s', halloc⟩ : ∃ id s',
      ((empty 0).run upserted).allocateInternalId = .ok (id, s') := by
    have hmake : makeDocId ((empty 0).run upserted).shardId ((empty 0).run upserted).nextLocalId =
        some 2 := by decide +kernel
    rw [allocateInternalId, hmake]
    exact ⟨_, _, rfl⟩
  exact ⟨hmeets, id, s', halloc, ids_fresh 0 upserted hmeets hrun id s' halloc⟩

def otherFitting : FittingDocument := ⟨⟨"b", 2, .json, [0]⟩, by decide, by decide⟩

def insertAndDelete (doc : FittingDocument) (seq : ℕ) : List IdStep :=
  [.allocate, .store (.putBatch [doc])] ++ (World.flushed doc.1.internalId seq).map .index ++
    [.index (.deleteDocument doc.1.internalId true), .store (.delete doc.1.externalId)]

def forgotten : List IdStep :=
  insertAndDelete smallFitting 0 ++ insertAndDelete otherFitting 1 ++
    World.compactAll.map .index ++ [.stop, .start]

/-- Batches do not raise the highest id of the store, so the saved maps hold none,
and the first id is given again. -/
theorem reinsert_reuses :
    ((empty 0).run forgotten).running = true ∧
      (∃ s', ((empty 0).run forgotten).allocateInternalId = .ok (1, s')) ∧
      1 ∈ ((empty 0).run forgotten).given := by
  refine ⟨by decide +kernel, ?_, by decide +kernel⟩
  have hmake : makeDocId ((empty 0).run forgotten).shardId ((empty 0).run forgotten).nextLocalId =
      some 1 := by decide +kernel
  rw [allocateInternalId, hmake]
  exact ⟨_, rfl⟩

end IdShard

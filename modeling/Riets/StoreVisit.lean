/-
Walking over the documents of a store.

`for_each_document` reads every segment from its first record on, and hands a document to its
callback when the maps have the place it was just read from.  The segments hold older versions,
deleted documents and the copies of compactions as well; a place is one record, so each entry of
the maps is met once.
-/
import Riets.ReindexOpen
import Riets.StoreCompaction

open StoreDir BinaryDocumentStore SortedMap

def ReadError.message : ReadError → String
  | .unexpectedEof => "unexpected end of file"
  | .invalidData => "invalid data"

namespace BinaryDocumentStore

open List SegmentLog

/-- A callback on documents that may fail; its state is kept when it does. -/
abbrev Callback (σ : Type) := StoredDocument → ExceptT String (StateM σ) Unit

def isCurrent (s : BinaryDocumentStore) (segment offset : ℕ) (doc : StoredDocument) : Bool :=
  match s.locations.get? doc.externalId with
  | some loc => loc.segment = segment ∧ loc.offset = offset
  | none => false

variable {σ : Type}

/-- The loop of `for_each_document` over one segment, at the offset `pos`.  A record takes at least
one byte, so the number of bytes is fuel enough. -/
def visitRecords (s : BinaryDocumentStore) (f : Callback σ) (id : ℕ) :
    ℕ → ℕ → ByteSeq → ExceptT String (StateM σ) Unit
  | 0, _, _ => pure ()
  | _ + 1, _, [] => pure ()
  | fuel + 1, pos, op :: bytes =>
    if op = 1 then
      match readDocument bytes with
      | .error e => throw e.message
      | .ok (doc, rest) => do
        if s.isCurrent id (pos + 1) doc then f doc
        visitRecords s f id fuel (pos + 1 + (bytes.length - rest.length)) rest
    else if op = 2 then
      match readDelete bytes with
      | .error e => throw e.message
      | .ok (_, rest) => visitRecords s f id fuel (pos + 1 + (bytes.length - rest.length)) rest
    else throw s!"unknown document op {op}"

def forEachDocument (s : BinaryDocumentStore) (f : Callback σ) : ExceptT String (StateM σ) Unit :=
  s.dir.listSegmentIds.forM fun id =>
    match s.dir.segments.get? id with
    | none => throw "file not found"
    | some bytes =>
      if bytes.length < 8 then throw "unexpected end of file"
      else if bytes.take 8 ≠ magic ∧ bytes.take 8 ≠ compactedMagic then throw "bad document store magic"
      else visitRecords s f id bytes.length 8 (bytes.drop 8)

def currentAt (s : BinaryDocumentStore) (p : SegmentRecord) : Option StoredDocument :=
  match p.2.record with
  | .put doc => if s.isCurrent p.1 (p.2.start + 1) doc then some doc else none
  | .delete _ _ => none

def currentDocs (s : BinaryDocumentStore) (logs : Logs) : List StoredDocument :=
  (allPlaced logs).filterMap s.currentAt

variable {s : BinaryDocumentStore} {logs : Logs} {f : Callback σ}

theorem placedIn_cons (id pos : ℕ) (r : StoreRecord) (rs : List StoreRecord) :
    placedIn id pos (r :: rs) = (id, ⟨pos, r.encode.length, r⟩) :: placedIn id (pos + r.encode.length) rs := rfl

theorem visitRecords_encodeAll {id : ℕ} {rs : List StoreRecord} (hfits : ∀ r ∈ rs, r.Fits) (fuel pos : ℕ)
    (hfuel : (encodeAll rs).length ≤ fuel) :
    s.visitRecords f id fuel pos (encodeAll rs) = ((placedIn id pos rs).filterMap s.currentAt).forM f := by
  induction rs generalizing fuel pos with
  | nil =>
    cases fuel with
    | zero => rfl
    | succ fuel => rfl
  | cons r rs ih =>
    obtain ⟨hr, hrs⟩ := forall_mem_cons.mp hfits
    have hone := r.one_le_length
    rw [encodeAll_cons, length_append] at hfuel
    obtain ⟨fuel, rfl⟩ : ∃ n, fuel = n + 1 := ⟨fuel - 1, by omega⟩
    have hrest := ih hrs fuel (pos + r.encode.length) (by omega)
    cases r with
    | put doc =>
      have hread : readDocument (writeDocument doc ++ encodeAll rs) = .ok (doc, encodeAll rs) :=
        (decodes_document hr).whole _
      have hpos : pos + 1 + ((writeDocument doc ++ encodeAll rs).length - (encodeAll rs).length) =
          pos + (StoreRecord.put doc).encode.length := by
        simp only [StoreRecord.encode, length_append, length_cons]
        omega
      show s.visitRecords f id (fuel + 1) pos (1 :: (writeDocument doc ++ encodeAll rs)) = _
      rw [visitRecords, if_pos rfl, hread]
      simp only [hpos, hrest]
      rw [placedIn_cons]
      by_cases hcur : s.isCurrent id (pos + 1) doc = true
      · rw [if_pos hcur, filterMap_cons_some (by exact if_pos hcur)]
        rfl
      · rw [if_neg hcur, filterMap_cons_none (by exact if_neg hcur)]
    | delete x deleted =>
      have hread : readDelete (writeString x ++ leBytes 8 deleted ++ encodeAll rs) =
          .ok (.delete x deleted, encodeAll rs) :=
        ((decodes_string hr.1).bind ((decodes_u64 hr.2).bind_pure (StoreRecord.delete x))).whole _
      have hpos : pos + 1 + ((writeString x ++ leBytes 8 deleted ++ encodeAll rs).length - (encodeAll rs).length) =
          pos + (StoreRecord.delete x deleted).encode.length := by
        simp only [StoreRecord.encode, length_append, length_cons]
        omega
      show s.visitRecords f id (fuel + 1) pos (2 :: (writeString x ++ leBytes 8 deleted ++ encodeAll rs)) = _
      rw [visitRecords, if_neg (by decide), if_pos rfl, hread]
      simp only [hpos, hrest]
      rw [placedIn_cons, filterMap_cons_none rfl]

theorem forM_flatMap {ι α : Type} {m : Type → Type} [Monad m] [LawfulMonad m] {ids : List ι} {g : ι → List α}
    {step : ι → m Unit} {f : α → m Unit} (h : ∀ id ∈ ids, step id = (g id).forM f) :
    ids.forM step = (ids.flatMap g).forM f := by
  induction ids with
  | nil => rfl
  | cons id ids ih =>
    obtain ⟨hid, hids⟩ := forall_mem_cons.mp h
    have happend : forM (g id ++ ids.flatMap g) f = (do forM (g id) f; forM (ids.flatMap g) f) := forM_append
    rw [flatMap_cons, forM_eq_forM, forM_eq_forM, happend, ← forM_eq_forM, ← forM_eq_forM,
      ← hid, ← ih hids]
    rfl

theorem forEachDocument_eq (h : s.Ok logs) (f : Callback σ) : s.forEachDocument f = (s.currentDocs logs).forM f := by
  rw [forEachDocument, currentDocs, allPlaced, filterMap_flatMap, listSegmentIds_eq h.segments]
  refine forM_flatMap fun id hid => ?_
  obtain ⟨lg, hlg⟩ := mem_keys.mp hid
  have hlen : ¬ lg.bytes.length < 8 := by
    rw [length_bytes]
    omega
  have hmagic : ¬ (lg.bytes.take 8 ≠ magic ∧ lg.bytes.take 8 ≠ compactedMagic) := by
    rw [take_bytes, ne_eq, ne_eq, header_eq_magic, header_eq_compacted]
    cases lg.compacted <;> simp
  have hdrop : lg.bytes.drop 8 = encodeAll lg.records := @drop_bytes lg [] lg.records rfl
  rw [h.get?_segments, hlg, Option.map_some]
  simp only
  rw [if_neg hlen, if_neg hmagic, hdrop, recordsOf_eq hlg]
  refine visitRecords_encodeAll (h.fit id lg hlg) _ _ ?_
  rw [length_bytes]
  omega

/-! ### Each entry of the maps is met once -/

theorem isCurrent_iff {segment offset : ℕ} {doc : StoredDocument} : s.isCurrent segment offset doc = true ↔
    ∃ loc, s.locations.get? doc.externalId = some loc ∧ loc.segment = segment ∧ loc.offset = offset := by
  rw [isCurrent]
  cases s.locations.get? doc.externalId with
  | none => simp
  | some loc => simp

theorem currentAt_eq_some {p : SegmentRecord} {doc : StoredDocument} : s.currentAt p = some doc ↔
    p.2.record = .put doc ∧ ∃ loc, s.locations.get? doc.externalId = some loc ∧
      loc.segment = p.1 ∧ loc.offset = p.2.start + 1 := by
  rw [currentAt]
  cases p.2.record with
  | put doc' =>
    rw [Option.ite_none_right_eq_some, isCurrent_iff, StoreRecord.put.injEq, Option.some_inj]
    constructor
    · rintro ⟨hloc, rfl⟩
      exact ⟨rfl, hloc⟩
    · rintro ⟨rfl, hloc⟩
      exact ⟨hloc, rfl⟩
  | delete x deleted => simp

theorem place_starts (pos : ℕ) (rs : List StoreRecord) : (place pos rs).Pairwise fun p q => p.start < q.start := by
  induction rs generalizing pos with
  | nil => exact .nil
  | cons r rs ih =>
    refine pairwise_cons.mpr ⟨fun q hq => ?_, ih _⟩
    obtain ⟨pre, post, -, hstart, -⟩ := mem_place hq
    have hone := r.one_le_length
    show pos < q.start
    omega

theorem allPlaced_apart (logs : Logs) :
    (allPlaced logs).Pairwise fun p q => ¬ (p.1 = q.1 ∧ p.2.start = q.2.start) := by
  refine pairwise_flatMap.mpr ⟨fun id _ => ?_, logs.keys_ascending.imp fun {id id'} hlt p hp q hq => ?_⟩
  · refine pairwise_map.mpr ((place_starts 8 (recordsOf logs id)).imp fun {p q} hlt hsame => ?_)
    exact absurd hsame.2 (ne_of_lt hlt)
  · obtain ⟨_, -, rfl⟩ := mem_map.mp hp
    obtain ⟨_, -, rfl⟩ := mem_map.mp hq
    rintro ⟨hsame, -⟩
    exact absurd hsame (ne_of_lt hlt)

theorem nodup_currentDocs (s : BinaryDocumentStore) (logs : Logs) :
    ((s.currentDocs logs).map StoredDocument.externalId).Nodup := by
  refine pairwise_map.mpr (pairwise_filterMap.mpr ((allPlaced_apart logs).imp fun {p q} hne => ?_))
  intro doc hdoc doc' hdoc' hsame
  -- one external id has one place
  obtain ⟨-, loc, hloc, hsegment, hoffset⟩ := currentAt_eq_some.mp hdoc
  obtain ⟨-, loc', hloc', hsegment', hoffset'⟩ := currentAt_eq_some.mp hdoc'
  rw [hsame, hloc'] at hloc
  obtain rfl := Option.some_inj.mp hloc
  refine hne ⟨hsegment.symm.trans hsegment', ?_⟩
  omega

theorem mem_currentDocs (h : s.Ok logs) {doc : StoredDocument} :
    doc ∈ s.currentDocs logs ↔ ∃ loc, s.locations.get? doc.externalId = some loc ∧ At logs loc doc := by
  rw [currentDocs, mem_filterMap]
  constructor
  · rintro ⟨p, hp, hdoc⟩
    obtain ⟨hrecord, loc, hloc, hsegment, hoffset⟩ := currentAt_eq_some.mp hdoc
    obtain ⟨doc', -, hat'⟩ := h.located doc.externalId loc hloc
    have hat := at_of_mem_allPlaced hp hrecord
    -- what is read at the place is the document of the record and that of the maps
    have hread := hat.read h.fit h.segments
    simp only [← hsegment, ← hoffset] at hread
    rw [hat'.read h.fit h.segments] at hread
    obtain rfl : doc' = doc := by injection hread
    exact ⟨loc, hloc, hat'⟩
  · rintro ⟨loc, hloc, l, pre, post, hl, hrecords, hplace⟩
    refine ⟨(loc.segment, ⟨8 + (encodeAll pre).length, (StoreRecord.put doc).encode.length, .put doc⟩), ?_, ?_⟩
    · refine mem_flatMap.mpr ⟨loc.segment, mem_keys.mpr ⟨l, hl⟩, ?_⟩
      rw [placedIn, recordsOf_eq hl, hrecords, place_append]
      exact mem_map.mpr ⟨_, mem_append_right _ mem_cons_self, rfl⟩
    · exact currentAt_eq_some.mpr ⟨rfl, loc, hloc, rfl, congrArg DocLocation.offset hplace⟩

structure Visits (s : BinaryDocumentStore) (docs : List StoredDocument) : Prop where
  walk : ∀ {σ : Type} (f : Callback σ), s.forEachDocument f = docs.forM f
  once : (docs.map StoredDocument.externalId).Nodup
  ids : ∀ x, x ∈ docs.map StoredDocument.externalId ↔ x ∈ s.locations.keys
  fetched : ∀ doc ∈ docs, StoreRun.fetched s doc.externalId = .ok (some doc)

theorem visits_currentDocs (h : s.Ok logs) : s.Visits (s.currentDocs logs) := by
  refine ⟨fun f => forEachDocument_eq h f, nodup_currentDocs s logs, fun x => ?_, fun doc hdoc => ?_⟩
  · rw [mem_map, SortedMap.mem_keys]
    constructor
    · rintro ⟨doc, hdoc, rfl⟩
      obtain ⟨loc, hloc, -⟩ := (mem_currentDocs h).mp hdoc
      exact ⟨loc, hloc⟩
    · rintro ⟨loc, hloc⟩
      obtain ⟨doc, rfl, hat⟩ := h.located x loc hloc
      exact ⟨doc, (mem_currentDocs h).mpr ⟨loc, hloc, hat⟩, rfl⟩
  · obtain ⟨loc, hloc, hat⟩ := (mem_currentDocs h).mp hdoc
    exact StoreRun.fetched_some h hloc hat rfl

theorem loadSegments_ok {ids : List ℕ} {l l' : Loading} (h : (loadSegments ids l).2 = .ok l') :
    loadSegments ids l = (l'.segments, .ok l') := by
  induction ids generalizing l with
  | nil =>
    obtain rfl : l = l' := by injection h
    rfl
  | cons id ids ih =>
    rw [loadSegments] at h ⊢
    cases hscan : scanSegment l id none with
    | error e =>
      rw [hscan] at h
      cases h
    | ok found =>
      rw [hscan] at h
      exact ih h

theorem openStore_of_openWithMaps {dir : StoreDir}
    (h : openWithMaps ⟨dir.segments, none⟩ = .ok s) :
    (openStore dir).2 = .ok { s with dir := ⟨s.dir.segments, dir.maps⟩ } := by
  have hensure : ensureSegment ⟨dir.segments, none⟩ = ⟨(ensureSegment dir).segments, none⟩ ∧
      (ensureSegment dir).maps = dir.maps := by
    rw [ensureSegment, ensureSegment]
    split_ifs <;> exact ⟨rfl, rfl⟩
  rw [openWithMaps, hensure.1] at h
  obtain ⟨l, hl, h⟩ := Except.of_bind_ok h
  obtain ⟨⟨current, next, segments⟩, happend, h⟩ := Except.of_bind_ok h
  have hload : (loadSegments (ensureSegment dir).listSegmentIds ⟨(ensureSegment dir).segments, .empty, 0⟩).2 = .ok l :=
    (loadSegments_snd _ _).trans hl
  obtain rfl := Except.ok.inj h
  rw [openStore]
  simp only [loadSegments_ok hload, happend, hensure.2]

/-- In every reachable store, and in one opened over its files, the walk meets each document that
the maps have once, as the store gives it, and nothing else. -/
theorem visits_each_once (steps : List StoreStep) : ∃ r, StoreRun.new.run steps = .ok r ∧
    (∃ docs, r.store.Visits docs) ∧ ∃ s, (openStore r.store.dir).2 = .ok s ∧ ∃ docs, s.Visits docs := by
  obtain ⟨r, logs, hrun, hvalid⟩ := ok_run steps
  have hstore := hvalid.store
  refine ⟨r, hrun, ⟨_, visits_currentDocs hstore⟩, ?_⟩
  have hbare : StoreRun.Valid ⟨{ r.store with dir := ⟨r.store.dir.segments, none⟩ }, .idle⟩ logs :=
    { store := ⟨hstore.segments, hstore.fit, hstore.located, hstore.cached, hstore.current, hstore.below, hstore.above⟩
      compacting := trivial
      maps := fun m hm => by cases hm }
  obtain ⟨s, logs', hopen, hopened, -⟩ := hbare.reopened
  have hs := hopened.store
  have hok : BinaryDocumentStore.Ok { s with dir := ⟨s.dir.segments, r.store.dir.maps⟩ } logs' :=
    ⟨hs.segments, hs.fit, hs.located, hs.cached, hs.current, hs.below, hs.above⟩
  exact ⟨_, openStore_of_openWithMaps hopen, _, visits_currentDocs hok⟩

end BinaryDocumentStore

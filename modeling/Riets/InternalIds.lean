/-
The map from internal to external ids.

`internal_to_external` is the second map of the document store.
-/
import Riets.StoreMark

open StoreDir BinaryDocumentStore SortedMap

abbrev ExternalIds := SortedMap DocId String

namespace StoreDir

/-- The id that a put at the external id `x` replaces is dropped. -/
def dropReplaced (ids : ExternalIds) (old : Option DocLocation) (new : DocId) : ExternalIds :=
  match old with
  | some loc => if loc.internalId ≠ new then ids.erase loc.internalId else ids
  | none => ids

structure BothMaps where
  loading : Loading
  internalToExternal : ExternalIds

namespace BothMaps

def apply (segment : ℕ) (b : BothMaps) (p : PlacedRecord) : BothMaps where
  loading := b.loading.apply segment p
  internalToExternal :=
    match p.record with
    | .put doc =>
      (dropReplaced b.internalToExternal (b.loading.locations.get? doc.externalId)
        doc.internalId).insert doc.internalId doc.externalId
    | .delete x deleted =>
      match b.loading.locations.get? x with
      | some current =>
        if current.internalId ≤ deleted then b.internalToExternal.erase current.internalId
        else b.internalToExternal
      | none => b.internalToExternal

/-- The records `scan_segment` reads. -/
def recordsRead (l : Loading) (id : ℕ) («from» : Option ℕ) : List PlacedRecord :=
  match l.segments.get? id with
  | none => []
  | some bytes =>
    match scanStart bytes «from» with
    | .ok start => (scan start (bytes.drop start)).1
    | .error _ => []

/-- `scan_segment`, both maps. -/
def scanSegment (b : BothMaps) (id : ℕ) («from» : Option ℕ) : IoResult BothMaps := do
  let loading ← StoreDir.scanSegment b.loading id «from»
  .ok ⟨loading, ((recordsRead b.loading id «from»).foldl (apply id) b).internalToExternal⟩

def load (dir : StoreDir) : IoResult BothMaps :=
  dir.listSegmentIds.foldlM (fun b id => b.scanSegment id none)
    ⟨⟨dir.segments, .empty, 0⟩, .empty⟩

def scanUnknown (known : List ℕ) (b : BothMaps) (id : ℕ) : IoResult BothMaps := do
  if id ∈ known then .ok b
  else
    match b.loading.segments.get? id with
    | none => .error "file not found"
    | some bytes =>
      if bytes.length < 8 then .error "unexpected end of file"
      else if bytes.take 8 = compactedMagic then
        .ok { b with loading := { b.loading with segments := b.loading.segments.erase id } }
      else b.scanSegment id none

def savedMaps (dir : StoreDir) (saved : MapsFile) : BothMaps where
  loading := dir.savedMaps saved
  internalToExternal := saved.entries.foldl (fun ids e => ids.insert e.2.internalId e.1) .empty

def loadFromMaps (dir : StoreDir) : IoResult (Option BothMaps) := do
  match dir.maps with
  | none => .ok none
  | some saved =>
    match tails dir (saved.entries.map fun e => e.2.segment) saved.segmentEnds with
    | none => .ok none
    | some ends =>
      let b ← ends.foldlM (fun b e => b.scanSegment e.1 (some e.2)) (savedMaps dir saved)
      let b ← dir.listSegmentIds.foldlM (scanUnknown (saved.segmentEnds.map Prod.fst)) b
      .ok (some b)

def loadEither (dir : StoreDir) : IoResult BothMaps := do
  match ← loadFromMaps dir with
  | some b => .ok b
  | none => load dir

end BothMaps

end StoreDir

/-! ### A load is a replay of records -/

namespace StoreDir.BothMaps

def replay (b : BothMaps) (ps : List SegmentRecord) : BothMaps :=
  ps.foldl (fun b p => b.apply p.1 p.2) b

theorem replay_append (b : BothMaps) (ps ps' : List SegmentRecord) :
    b.replay (ps ++ ps') = (b.replay ps).replay ps' := List.foldl_append

@[simp] theorem replay_loading (b : BothMaps) (ps : List SegmentRecord) :
    (b.replay ps).loading = b.loading.replay ps := by
  induction ps generalizing b with
  | nil => rfl
  | cons p ps ih => exact ih (b.apply p.1 p.2)

theorem foldl_apply (b : BothMaps) (id pos : ℕ) (rs : List StoreRecord) :
    (place pos rs).foldl (apply id) b = b.replay (placedIn id pos rs) := by
  rw [replay, placedIn, List.foldl_map]

section Scan

variable {lg : SegmentLog} {pre post : List StoreRecord} {id : ℕ} {b : BothMaps}

theorem recordsRead_ok {l : Loading} (hget : l.segments.get? id = some lg.bytes)
    (hrec : lg.records = pre ++ post) (hfit : ∀ r ∈ lg.records, r.Fits) :
    recordsRead l id (some (8 + (encodeAll pre).length)) =
      place (8 + (encodeAll pre).length) post := by
  rw [recordsRead, hget]
  simp only [scanStart, SegmentLog.scan_drop hrec hfit]

theorem scanSegment_tail (hget : b.loading.segments.get? id = some lg.bytes)
    (hrec : lg.records = pre ++ post) (hfit : ∀ r ∈ lg.records, r.Fits) :
    b.scanSegment id (some (8 + (encodeAll pre).length)) =
      .ok (b.replay (placedIn id (8 + (encodeAll pre).length) post)) := by
  rw [scanSegment, scanSegment_ok hget hrec hfit, recordsRead_ok hget hrec hfit, foldl_apply]
  show Except.ok (BothMaps.mk _ _) = _
  rw [← replay_loading]

theorem scanSegment_all (hget : b.loading.segments.get? id = some lg.bytes)
    (hfit : ∀ r ∈ lg.records, r.Fits) :
    b.scanSegment id none = .ok (b.replay (placedIn id 8 lg.records)) := by
  have hread : recordsRead b.loading id none = recordsRead b.loading id (some 8) := by
    rw [recordsRead, recordsRead, hget]
    simp only [SegmentLog.scanStart_none]
  have hrec : lg.records = [] ++ lg.records := rfl
  have hplace : recordsRead b.loading id (some 8) = place 8 lg.records :=
    recordsRead_ok hget hrec hfit
  rw [scanSegment, hread, hplace, scanSegment_whole hget hfit, foldl_apply]
  show Except.ok (BothMaps.mk _ _) = _
  rw [← replay_loading]

theorem reads : Reads replay fun b => b.loading.segments :=
  ⟨fun _ => rfl, replay_append, fun b ps => by rw [replay_loading, Loading.replay_segments]⟩

end Scan

section Load

variable {logs base : Logs} {dir : StoreDir} {s : BinaryDocumentStore} {m : MapsFile}
  {locs : Locations}

theorem load_replay (hdir : dir.segments = logs.map SegmentLog.bytes) (hfit : logs.Fit) :
    load dir = .ok (replay ⟨⟨dir.segments, .empty, 0⟩, .empty⟩ (allPlaced logs)) := by
  exact reads.whole hdir rfl fun b id lg hlg hget => scanSegment_all hget (hfit id lg hlg)

theorem loadFromMaps_replay (h : s.Ok logs) (hmaps : s.dir.maps = some m)
    (hm : MapsOk m s logs base locs) :
    loadFromMaps s.dir = .ok (some ((savedMaps s.dir m).replay (pending base logs))) := by
  have hsince := reads.since (b := savedMaps s.dir m) h hm (scanUnknown base.keys) rfl
    (fun b id lg pre post hlg hget hrec => scanSegment_tail hget hrec (h.fit id lg hlg))
    (fun b id hid => by rw [scanUnknown, if_pos hid]) fun b id hid lg hlg hget hlen hmagic => by
      rw [scanUnknown, if_neg hid, hget]
      simp only
      rw [if_neg hlen, if_neg hmagic]
      exact scanSegment_all hget (h.fit id lg hlg)
  rw [loadFromMaps, hmaps]
  simp only [tails_eq _ (segmentEnds_ok h hm), hm.known]
  rw [← bind_assoc, hsince]
  rfl

end Load

end StoreDir.BothMaps

/-! ### One map inverts the other -/

/-- The internal ids lead back to exactly the external ids that hold them. -/
def Inverts (ids : ExternalIds) (locations : Locations) : Prop :=
  ∀ i x, ids.get? i = some x ↔ ∃ loc, locations.get? x = some loc ∧ loc.internalId = i

def Owned (owner : DocId → String) (locations : Locations) : Prop :=
  ∀ x loc, locations.get? x = some loc → owner loc.internalId = x

def OwnedRecord (owner : DocId → String) : StoreRecord → Prop
  | .put doc => owner doc.internalId = doc.externalId
  | .delete _ _ => True

namespace Inverts

open SortedMap

variable {owner : DocId → String} {ids : ExternalIds} {locations : Locations}

theorem replace (h : Inverts ids locations) (ho : Owned owner locations) {x : String}
    {loc : DocLocation} (hown : owner loc.internalId = x) :
    Inverts ((dropReplaced ids (locations.get? x) loc.internalId).insert loc.internalId x)
      (locations.insert x loc) := by
  intro i y
  rw [get?_insert]
  by_cases hi : i = loc.internalId
  · rw [if_pos hi]
    constructor
    · intro hxy
      cases hxy
      exact ⟨loc, by rw [get?_insert, if_pos rfl], hi.symm⟩
    · rintro ⟨loc', hloc', hid⟩
      rw [get?_insert] at hloc'
      split_ifs at hloc' with hy
      · rw [hy]
      · -- the id belongs to `x` only
        have hy' := ho y loc' hloc'
        rw [hid, hi, hown] at hy'
        rw [hy']
  · rw [if_neg hi]
    have hkeep : (dropReplaced ids (locations.get? x) loc.internalId).get? i = some y ↔
        y ≠ x ∧ ids.get? i = some y := by
      cases hx : locations.get? x with
      | none =>
        refine ⟨fun hy => ⟨?_, hy⟩, And.right⟩
        rintro rfl
        obtain ⟨loc', hloc', -⟩ := (h i y).1 hy
        rw [hx] at hloc'
        cases hloc'
      | some old =>
        have hold : ids.get? i = some x ↔ old.internalId = i := by
          rw [h i x, hx]
          simp
        rw [dropReplaced]
        by_cases hsame : old.internalId = loc.internalId
        · rw [if_neg (not_not.2 hsame)]
          refine ⟨fun hy => ⟨?_, hy⟩, And.right⟩
          rintro rfl
          exact hi ((hold.1 hy).symm.trans hsame)
        · rw [if_pos hsame, get?_erase]
          split_ifs with hio
          · refine ⟨by simp, ?_⟩
            rintro ⟨hne, hy⟩
            rw [hold.2 hio.symm] at hy
            exact absurd (Option.some_inj.1 hy).symm hne
          · refine ⟨fun hy => ⟨?_, hy⟩, And.right⟩
            rintro rfl
            exact hio (hold.1 hy).symm
    rw [hkeep, h i y]
    constructor
    · rintro ⟨hne, loc', hloc', hid⟩
      exact ⟨loc', by rw [get?_insert, if_neg hne, hloc'], hid⟩
    · rintro ⟨loc', hloc', hid⟩
      rw [get?_insert] at hloc'
      split_ifs at hloc' with hy
      · cases hloc'
        exact absurd hid.symm hi
      · exact ⟨hy, loc', hloc', hid⟩

theorem insert (h : Inverts ids locations) (ho : Owned owner locations) {x : String}
    {loc : DocLocation} (hown : owner loc.internalId = x) (hx : locations.get? x = none) :
    Inverts (ids.insert loc.internalId x) (locations.insert x loc) := by
  have hreplace := h.replace ho hown
  rw [hx] at hreplace
  exact hreplace

theorem erase (h : Inverts ids locations) {x : String} {loc : DocLocation}
    (hx : locations.get? x = some loc) (ho : Owned owner locations) :
    Inverts (ids.erase loc.internalId) (locations.erase x) := by
  intro i y
  rw [get?_erase]
  by_cases hi : i = loc.internalId
  · rw [if_pos hi]
    refine ⟨by simp, ?_⟩
    rintro ⟨loc', hloc', hid⟩
    rw [get?_erase] at hloc'
    split_ifs at hloc' with hy
    have h1 := ho y loc' hloc'
    have h2 := ho x loc hx
    rw [hid, hi, h2] at h1
    exact absurd h1.symm hy
  · rw [if_neg hi, h i y]
    constructor
    · rintro ⟨loc', hloc', hid⟩
      refine ⟨loc', ?_, hid⟩
      rw [get?_erase, if_neg ?_, hloc']
      rintro rfl
      rw [hx] at hloc'
      cases hloc'
      exact hi hid.symm
    · rintro ⟨loc', hloc', hid⟩
      rw [get?_erase] at hloc'
      split_ifs at hloc'
      exact ⟨loc', hloc', hid⟩

end Inverts

namespace Owned

variable {owner : DocId → String} {locations : Locations}

theorem insert (ho : Owned owner locations) {x : String} {loc : DocLocation}
    (hown : owner loc.internalId = x) : Owned owner (locations.insert x loc) := by
  intro y loc' hy
  rw [get?_insert] at hy
  split_ifs at hy with hyx
  · cases hy
    exact hown.trans hyx.symm
  · exact ho y loc' hy

theorem erase (ho : Owned owner locations) (x : String) : Owned owner (locations.erase x) := by
  intro y loc' hy
  rw [get?_erase] at hy
  split_ifs at hy
  exact ho y loc' hy

end Owned

namespace StoreDir.BothMaps

open List

variable {owner : DocId → String}

structure Mirrors (owner : DocId → String) (b : BothMaps) : Prop where
  inverts : Inverts b.internalToExternal b.loading.locations
  owned : Owned owner b.loading.locations

theorem Mirrors.apply {b : BothMaps} (h : Mirrors owner b) (p : SegmentRecord)
    (hp : OwnedRecord owner p.2.record) : Mirrors owner (b.apply p.1 p.2) := by
  unfold BothMaps.apply Loading.apply
  cases hrec : p.2.record with
  | put doc =>
    rw [hrec] at hp
    have hown : owner (DocLocation.mk doc.internalId (p.2.start + 1) p.1
        ((p.2.len - 1) % 2 ^ 32)).internalId = doc.externalId := hp
    exact ⟨h.inverts.replace h.owned hown, h.owned.insert hown⟩
  | delete x deleted =>
    cases hx : b.loading.locations.get? x with
    | none =>
      simp only [hx]
      exact ⟨h.inverts, h.owned⟩
    | some current =>
      simp only [hx]
      split_ifs
      · exact ⟨h.inverts.erase hx h.owned, h.owned.erase x⟩
      · exact ⟨h.inverts, h.owned⟩

theorem Mirrors.replay {b : BothMaps} (h : Mirrors owner b) (ps : List SegmentRecord)
    (hps : ∀ p ∈ ps, OwnedRecord owner p.2.record) : Mirrors owner (b.replay ps) := by
  induction ps generalizing b with
  | nil => exact h
  | cons p ps ih =>
    exact ih (h.apply p (hps p mem_cons_self)) fun q hq => hps q (mem_cons_of_mem p hq)

theorem mirrors_empty (segments : SortedMap ℕ ByteSeq) (highest : DocId) :
    Mirrors owner ⟨⟨segments, .empty, highest⟩, .empty⟩ := by
  constructor
  · intro i x
    simp
  · intro x loc hx
    cases hx

theorem mirrors_savedMaps (dir : StoreDir) {saved : MapsFile} {locs : Locations}
    (hentries : saved.entries = locs.entries)
    (hown : ∀ e ∈ saved.entries, owner e.2.internalId = e.1) :
    Mirrors owner (savedMaps dir saved) := by
  -- inserting the entries one by one, no key twice
  have hfold : ∀ (entries : List (String × DocLocation)) (ids : ExternalIds) (locations : Locations),
      Inverts ids locations → Owned owner locations →
      (∀ e ∈ entries, owner e.2.internalId = e.1 ∧ locations.get? e.1 = none) →
      (entries.map Prod.fst).Nodup →
      Inverts (entries.foldl (fun ids e => ids.insert e.2.internalId e.1) ids)
          (entries.foldl (fun m e => m.insert e.1 e.2) locations) ∧
        Owned owner (entries.foldl (fun m e => m.insert e.1 e.2) locations) := by
    intro entries
    induction entries with
    | nil => exact fun ids locations hinv ho _ _ => ⟨hinv, ho⟩
    | cons e entries ih =>
      intro ids locations hinv ho hall hnodup
      obtain ⟨hfirst, hrest⟩ := nodup_cons.1 hnodup
      obtain ⟨howner, hnone⟩ := hall e mem_cons_self
      refine ih _ _ (hinv.insert ho howner hnone) (ho.insert howner) (fun e' he' => ?_) hrest
      obtain ⟨howner', hnone'⟩ := hall e' (mem_cons_of_mem e he')
      refine ⟨howner', ?_⟩
      rw [get?_insert, if_neg ?_, hnone']
      intro hsame
      exact hfirst (hsame ▸ mem_map_of_mem he')
  have hnodup : (saved.entries.map Prod.fst).Nodup := by
    rw [hentries]
    exact (keys_ascending locs).imp ne_of_lt
  have hempty : Mirrors owner ⟨⟨dir.segments, .empty, 0⟩, .empty⟩ := mirrors_empty dir.segments 0
  obtain ⟨hinv, ho⟩ := hfold saved.entries .empty .empty hempty.inverts hempty.owned
    (fun e he => ⟨hown e he, rfl⟩) hnodup
  exact ⟨hinv, ho⟩

end StoreDir.BothMaps

structure MappedRun where
  run : StoreRun
  internalToExternal : ExternalIds

namespace MappedRun

/-- What a step does to `internal_to_external`. -/
def idsAfter (m : MappedRun) : StoreStep → IoResult ExternalIds
  | .put doc => .ok (m.internalToExternal.insert doc.1.internalId doc.1.externalId)
  | .putBatch docs => .ok (docs.foldl (fun ids doc => ids.insert doc.1.internalId doc.1.externalId)
      m.internalToExternal)
  | .delete x =>
    match m.run.store.locations.get? x with
    | none => .ok m.internalToExternal
    | some loc => .ok (m.internalToExternal.erase loc.internalId)
  | .reopen => (BothMaps.loadEither (ensureSegment m.run.store.dir)).map
      BothMaps.internalToExternal
  | _ => .ok m.internalToExternal

def step (m : MappedRun) (st : StoreStep) : IoResult MappedRun := do
  let run ← m.run.step st
  let ids ← m.idsAfter st
  .ok ⟨run, ids⟩

def steps (m : MappedRun) (sts : List StoreStep) : IoResult MappedRun := sts.foldlM step m

def new : MappedRun := ⟨StoreRun.new, .empty⟩

/-- A step puts only external ids that the store does not hold, each once. -/
def StepOk (m : MappedRun) : StoreStep → Prop
  | .put doc => m.run.store.locations.get? doc.1.externalId = none
  | .putBatch docs => (∀ doc ∈ docs, m.run.store.locations.get? doc.1.externalId = none) ∧
      (docs.map fun doc => doc.1.externalId).Nodup
  | _ => True

def Meets (m : MappedRun) : List StoreStep → Prop
  | [] => True
  | st :: sts => m.StepOk st ∧ ∀ m', m.step st = .ok m' → m'.Meets sts

end MappedRun

/-! ### The invariant of a run -/

section Run

variable {owner : DocId → String} {r : StoreRun} {logs : Logs} {l : SegmentLog}

def LogsOwned (owner : DocId → String) (logs : Logs) : Prop :=
  ∀ id l, logs.get? id = some l → ∀ rec ∈ l.records, OwnedRecord owner rec

section

variable (h : LogsOwned owner logs)
include h

theorem LogsOwned.of_at {loc : DocLocation} {doc : StoredDocument}
    (hat : At logs loc doc) : owner loc.internalId = doc.externalId := by
  rw [hat.internalId]
  obtain ⟨l, pre, post, hl, hrec, -⟩ := hat
  exact h _ l hl (.put doc) (by rw [hrec]; simp)

theorem LogsOwned.owned {s : BinaryDocumentStore} (hs : s.Ok logs) :
    Owned owner s.locations := by
  intro x loc hx
  obtain ⟨doc, rfl, hat⟩ := hs.located x loc hx
  exact h.of_at hat

theorem LogsOwned.of_placedIn {id pos n : ℕ} {p : SegmentRecord}
    (hp : p ∈ placedIn id pos ((recordsOf logs id).drop n)) : OwnedRecord owner p.2.record := by
  obtain ⟨q, hq, rfl⟩ := List.mem_map.1 hp
  obtain ⟨pre, post, hrec, -⟩ := mem_place hq
  have hmem : q.record ∈ recordsOf logs id := by
    refine List.mem_of_mem_drop (i := n) ?_
    rw [hrec]
    simp
  cases hl : logs.get? id with
  | none =>
    rw [recordsOf, hl] at hmem
    cases hmem
  | some l =>
    rw [recordsOf_eq hl] at hmem
    exact h id l hl _ hmem

theorem LogsOwned.of_allPlaced {p : SegmentRecord}
    (hp : p ∈ allPlaced logs) : OwnedRecord owner p.2.record := by
  obtain ⟨id, -, hmem⟩ := List.mem_flatMap.1 hp
  exact h.of_placedIn (n := 0) hmem

theorem LogsOwned.of_pending {base : Logs} {p : SegmentRecord}
    (hp : p ∈ pending base logs) : OwnedRecord owner p.2.record := by
  rcases List.mem_append.1 hp with hp | hp
  · obtain ⟨id, -, hmem⟩ := List.mem_flatMap.1 hp
    exact h.of_placedIn hmem
  · obtain ⟨id, -, hmem⟩ := List.mem_flatMap.1 hp
    exact h.of_placedIn (n := 0) hmem

end

/-- The documents in the files and the saved entries have ids that belong to
them. -/
structure FilesOwned (owner : DocId → String) (r : StoreRun) (logs : Logs) : Prop where
  records : LogsOwned owner logs
  maps : ∀ f, r.store.dir.maps = some f → ∀ e ∈ f.entries, owner e.2.internalId = e.1

namespace FilesOwned

open List SortedMap

section

variable (h : FilesOwned owner r logs)
include h

theorem congr {r' : StoreRun}
    (hmaps : r'.store.dir.maps = r.store.dir.maps) : FilesOwned owner r' logs :=
  ⟨h.records, fun f hf => h.maps f (hmaps ▸ hf)⟩

theorem push {id : ℕ} (hl : logs.get? id = some l) {rec : StoreRecord}
    (hrec : OwnedRecord owner rec) {r' : StoreRun} (hmaps : r'.store.dir.maps = r.store.dir.maps) :
    FilesOwned owner r' (logs.push id l rec) where
  records id' l' hl' rec' hrec' := by
    rw [Logs.push, get?_insert] at hl'
    split_ifs at hl'
    · cases hl'
      rcases mem_append.1 hrec' with hin | hin
      · exact h.records id l hl rec' hin
      · rw [mem_singleton.1 hin]
        exact hrec
    · exact h.records id' l' hl' rec' hrec'
  maps f hf := h.maps f (hmaps ▸ hf)

theorem insert_empty (id : ℕ) {r' : StoreRun}
    (hmaps : r'.store.dir.maps = r.store.dir.maps) :
    FilesOwned owner r' (logs.insert id ⟨false, []⟩) where
  records id' l' hl' rec' hrec' := by
    rw [get?_insert] at hl'
    split_ifs at hl'
    · cases hl'
      cases hrec'
    · exact h.records id' l' hl' rec' hrec'
  maps f hf := h.maps f (hmaps ▸ hf)

theorem saveMaps (hv : r.Valid logs) (highest : DocId) :
    FilesOwned owner { r with store := r.store.saveMaps highest } logs where
  records := h.records
  maps f hf e he := by
    cases hf
    exact h.records.owned hv.store e.1 e.2 (mem_entries.1 he)

theorem installed (hv : r.Valid logs) {c : CompletedSegmentCompaction}
    {docs : List StoredDocument} (hc : c.Ok r.store logs docs) :
    FilesOwned owner ⟨(r.store.installSegmentCompaction c).2, .idle⟩ (installedLogs logs c docs) := by
  have hrecords : LogsOwned owner (installedLogs logs c docs) := by
    intro id l hl rec hrec
    rw [get?_installedLogs] at hl
    split_ifs at hl
    · cases hl
      obtain ⟨doc, hdoc, rfl⟩ := mem_map.1 hrec
      obtain ⟨loc, -, hat⟩ := hc.origin doc hdoc
      have hown := h.records.of_at hat
      rw [hat.internalId] at hown
      exact hown
    · exact h.records id l hl rec hrec
  refine ⟨hrecords, fun f hf e he => ?_⟩
  cases hf
  exact hrecords.owned (hv.store.install hc) e.1 e.2 (mem_entries.1 he)

theorem putOne (hv : r.Valid logs) {ids : ExternalIds}
    (hinv : Inverts ids r.store.locations) (hl : logs.get? r.store.currentSegment = some l)
    {doc : StoredDocument} (hown : owner doc.internalId = doc.externalId)
    (hnew : r.store.locations.get? doc.externalId = none) :
    FilesOwned owner { r with store := r.store.putOne doc }
        (logs.push r.store.currentSegment l (.put doc)) ∧
      Inverts (ids.insert doc.internalId doc.externalId) (r.store.putOne doc).locations := by
  have hrec : OwnedRecord owner (.put doc) := hown
  have hloc : owner (locationAt r.store.currentSegment
      ((r.store.dir.segments.get? r.store.currentSegment).getD []).length doc).internalId =
      doc.externalId := hown
  exact ⟨h.push hl hrec rfl, hinv.insert (h.records.owned hv.store) hloc hnew⟩

theorem foldl_putOne (hv : r.Valid logs) {ids : ExternalIds}
    (hinv : Inverts ids r.store.locations) {docs : List StoredDocument}
    (hfits : ∀ doc ∈ docs, doc.Fits) (hown : ∀ doc ∈ docs, owner doc.internalId = doc.externalId)
    (hnew : ∀ doc ∈ docs, r.store.locations.get? doc.externalId = none)
    (hnodup : (docs.map StoredDocument.externalId).Nodup) :
    ∃ logs', StoreRun.Valid { r with store := docs.foldl BinaryDocumentStore.putOne r.store } logs' ∧
      FilesOwned owner { r with store := docs.foldl BinaryDocumentStore.putOne r.store } logs' ∧
      Inverts (docs.foldl (fun ids doc => ids.insert doc.internalId doc.externalId) ids)
        (docs.foldl BinaryDocumentStore.putOne r.store).locations := by
  induction docs generalizing r logs ids with
  | nil => exact ⟨logs, hv, h, hinv⟩
  | cons doc docs ih =>
    obtain ⟨l, hl, -⟩ := hv.store.current
    obtain ⟨hfirst, hrest⟩ := nodup_cons.1 hnodup
    obtain ⟨hfiles, hinserted⟩ := h.putOne hv hinv hl (hown doc mem_cons_self)
      (hnew doc mem_cons_self)
    refine ih hfiles (hv.putOne hl (hfits doc mem_cons_self)) hinserted
      (fun d hd => hfits d (mem_cons_of_mem doc hd))
      (fun d hd => hown d (mem_cons_of_mem doc hd)) (fun d hd => ?_) hrest
    show (r.store.locations.insert _ _).get? d.externalId = none
    rw [get?_insert, if_neg ?_, hnew d (mem_cons_of_mem doc hd)]
    intro hsame
    exact hfirst (hsame ▸ mem_map_of_mem hd)

theorem loaded (hv : r.Valid logs) :
    ∃ b, BothMaps.loadEither r.store.dir = .ok b ∧ BothMaps.Mirrors owner b ∧
      loadEither r.store.dir = .ok b.loading := by
  cases hmaps : r.store.dir.maps with
  | none =>
    have hempty : BothMaps.Mirrors owner ⟨⟨r.store.dir.segments, .empty, 0⟩, .empty⟩ :=
      BothMaps.mirrors_empty _ _
    refine ⟨_, ?_, hempty.replay (allPlaced logs) fun p hp => h.records.of_allPlaced hp, ?_⟩
    · rw [BothMaps.loadEither, BothMaps.loadFromMaps, hmaps]
      exact BothMaps.load_replay hv.store.segments hv.store.fit
    · rw [loadEither, loadFromMaps, hmaps, BothMaps.replay_loading]
      exact load_ok hv.store.segments hv.store.fit
  | some f =>
    obtain ⟨base, locs, hok⟩ := hv.maps f hmaps
    have hmirrors := BothMaps.mirrors_savedMaps r.store.dir hok.entries (h.maps f hmaps)
    refine ⟨_, ?_, hmirrors.replay (pending base logs) fun p hp => ?_, ?_⟩
    · rw [BothMaps.loadEither, BothMaps.loadFromMaps_replay hv.store hmaps hok]
      rfl
    · exact h.records.of_pending hp
    · obtain ⟨l, hl, -, -, rfl⟩ := loadFromMaps_ok hv.store hmaps hok
      rw [loadEither, hl, BothMaps.replay_loading]
      rfl

end

end FilesOwned

theorem Inverts.installed {ids : ExternalIds} (hinv : Inverts ids r.store.locations)
    {c : CompletedSegmentCompaction} {docs : List StoredDocument} (hc : c.Ok r.store logs docs) :
    Inverts ids (r.store.installSegmentCompaction c).2.locations := by
  intro i x
  rw [hinv i x]
  obtain ⟨hnone, hsome⟩ := install_locations hc x
  cases hx : r.store.locations.get? x with
  | none =>
    rw [hnone hx]
  | some loc =>
    by_cases hseg : loc.segment ∈ c.oldSegmentIds
    · obtain ⟨loc', doc, hloc', -, -, -, hat, hat'⟩ := (hsome loc hx).2 hseg
      have hsame : loc.internalId = loc'.internalId := hat.internalId.trans hat'.internalId.symm
      rw [hloc']
      simp [hsame]
    · rw [(hsome loc hx).1 hseg]

theorem locations_openWithMaps {dir : StoreDir} {loaded : Loading} {s' : BinaryDocumentStore}
    (hload : loadEither (ensureSegment dir) = .ok loaded) (hopen : openWithMaps dir = .ok s') :
    s'.locations = loaded.locations := by
  rw [openWithMaps] at hopen
  simp only [hload] at hopen
  have hopen' : Except.bind (appendTo loaded.segments (nextId (ensureSegment dir).segments)) _ =
      .ok s' := hopen
  cases happ : appendTo loaded.segments (nextId (ensureSegment dir).segments) with
  | error e =>
    rw [happ] at hopen'
    cases hopen'
  | ok chosen =>
    rw [happ] at hopen'
    cases hopen'
    rfl

structure MappedRun.Valid (owner : DocId → String) (m : MappedRun) (logs : Logs) : Prop where
  valid : m.run.Valid logs
  files : FilesOwned owner m.run logs
  inverts : Inverts m.internalToExternal m.run.store.locations

theorem rotate_both {ids : ExternalIds} (h : r.Valid logs) (hf : FilesOwned owner r logs)
    (hinv : Inverts ids r.store.locations) :
    ∃ s' logs', r.store.maybeRotateSegment = .ok s' ∧ StoreRun.Valid { r with store := s' } logs' ∧
      FilesOwned owner { r with store := s' } logs' ∧ Inverts ids s'.locations := by
  obtain ⟨l, hl, hget⟩ := h.current_bytes
  rw [maybeRotateSegment_ok hget]
  split_ifs
  · exact ⟨_, logs, rfl, h, hf, hinv⟩
  · exact ⟨_, _, rfl, h.rotated, hf.insert_empty _ rfl, hinv⟩

namespace MappedRun

open List

variable {m : MappedRun}

def docsOf : StoreStep → List StoredDocument
  | .put doc => [doc.1]
  | .putBatch docs => docs.map Subtype.val
  | _ => []

theorem valid_kept {run' : StoreRun} {logs' : Logs} {st : StoreStep}
    (hstep : m.run.step st = .ok run') (hids : m.idsAfter st = .ok m.internalToExternal)
    (hv : run'.Valid logs') (hf : FilesOwned owner run' logs')
    (hinv : Inverts m.internalToExternal run'.store.locations) :
    ∃ m' logs', m.step st = .ok m' ∧ m'.Valid owner logs' := by
  refine ⟨⟨run', m.internalToExternal⟩, logs', ?_, hv, hf, hinv⟩
  rw [step, hstep, hids]
  rfl

theorem Valid.step (h : m.Valid owner logs) {st : StoreStep}
    (hown : ∀ doc ∈ docsOf st, owner doc.internalId = doc.externalId) (hst : m.StepOk st) :
    ∃ m' logs', m.step st = .ok m' ∧ m'.Valid owner logs' := by
  obtain ⟨run, ids⟩ := m
  obtain ⟨hv, hf, hinv⟩ := h
  by_cases hquiet : StoreRun.Valid.Quiet run st
  · obtain ⟨run', hstep, hvalid, hdir, hloc, -⟩ := hv.quiet hquiet
    have hids : idsAfter ⟨run, ids⟩ st = .ok ids := by
      cases st with
      | delete x => rw [idsAfter, show run.store.locations.get? x = none from hquiet]
      | put doc => exact hquiet.elim
      | putBatch docs => exact hquiet.elim
      | reopen => exact hquiet.elim
      | _ => rfl
    exact valid_kept hstep hids hvalid (hf.congr (by rw [hdir])) (hloc ▸ hinv)
  obtain ⟨l, hl, hget⟩ := hv.current_bytes
  cases st with
  | put doc =>
    obtain ⟨hfiles, hinserted⟩ := hf.putOne hv hinv hl (hown doc.1 (by simp [docsOf])) hst
    have hraised := (hv.putOne hl doc.2).raise doc.1.internalId
    have hfraised : FilesOwned owner
        { run with store := (run.store.putOne doc.1).raise doc.1.internalId }
        (logs.push run.store.currentSegment l (.put doc.1)) := hfiles.congr rfl
    rw [step, StoreRun.step, put_eq hget]
    split_ifs
    · exact ⟨_, _, rfl, hraised, hfraised, hinserted⟩
    · exact ⟨_, _, rfl, hraised.rotated, hfraised.insert_empty _ rfl, hinserted⟩
  | putBatch docs =>
    have hfits := StoreRun.Valid.fits_of_batch docs
    have hnew : ∀ doc ∈ docs.map Subtype.val, run.store.locations.get? doc.externalId = none := by
      intro doc hdoc
      obtain ⟨d, hd, rfl⟩ := mem_map.1 hdoc
      exact hst.1 d hd
    have hnodup : ((docs.map Subtype.val).map StoredDocument.externalId).Nodup := by
      rw [map_map]
      exact hst.2
    obtain ⟨logs', hvalid, hfiles, hinserted⟩ := hf.foldl_putOne hv hinv hfits hown hnew hnodup
    obtain ⟨s', logs'', hrotate, hvalid', hfiles', hinv'⟩ := rotate_both hvalid hfiles hinserted
    refine ⟨⟨{ run with store := s' }, _⟩, logs'', ?_, hvalid', hfiles', hinv'⟩
    have hstep : run.step (.putBatch docs) = .ok { run with store := s' } := by
      show run.withStore (maybeRotateSegment ((docs.map Subtype.val).foldl putOne run.store)) = _
      rw [hrotate]
      rfl
    rw [step, hstep, foldl_map]
    rfl
  | delete x =>
    obtain ⟨loc, hx⟩ := Option.ne_none_iff_exists'.1 hquiet
    have hvalid := hv.removeOne hl hx
    have hfiles : FilesOwned owner { run with store := run.store.removeOne x loc.internalId }
        (logs.push run.store.currentSegment l (.delete x loc.internalId)) := by
      have hrec : OwnedRecord owner (.delete x loc.internalId) := trivial
      exact hf.push hl hrec rfl
    have herased := hinv.erase hx (hf.records.owned hv.store)
    have hids : idsAfter ⟨run, ids⟩ (.delete x) = .ok (ids.erase loc.internalId) := by
      rw [idsAfter, hx]
    rw [step, StoreRun.step, delete_eq hget hx, hids]
    split_ifs
    · exact ⟨_, _, rfl, hvalid, hfiles, herased⟩
    · exact ⟨_, _, rfl, hvalid.rotated, hfiles.insert_empty _ rfl, herased⟩
  | saveMaps => exact valid_kept rfl rfl (hv.saveMaps _) (hf.saveMaps hv _) hinv
  | installCompaction =>
    obtain ⟨c, hc⟩ := not_not.1 hquiet
    obtain ⟨docs, hok⟩ := hv.completed_ok hc
    have hstep : run.step .installCompaction =
        .ok ⟨(run.store.installSegmentCompaction c).2, .idle⟩ := by
      rw [StoreRun.step, hc]
    exact valid_kept hstep rfl (hv.installed hok) (hf.installed hv hok) (hinv.installed hok)
  | reopen =>
    obtain ⟨b, hboth, hmirrors, hload⟩ := hf.loaded hv
    obtain ⟨s', logs', hopen, hvalid, hlogs, -, -, hmaps, -⟩ := hv.reopened
    have hensure : ensureSegment run.store.dir = run.store.dir := by
      rw [ensureSegment, if_neg]
      intro hnil
      apply hv.keys_ne_nil
      rw [← keys_map logs SegmentLog.bytes, ← hv.store.segments, SortedMap.keys, hnil]
      rfl
    have hlocations : s'.locations = b.loading.locations :=
      locations_openWithMaps (hensure.symm ▸ hload) hopen
    have hids : idsAfter ⟨run, ids⟩ .reopen = .ok b.internalToExternal := by
      rw [idsAfter, hensure, hboth]
      rfl
    refine ⟨⟨⟨s', .idle⟩, b.internalToExternal⟩, logs', ?_, hvalid, ?_, ?_⟩
    · rw [step, StoreRun.step, hopen, hids]
      rfl
    · rcases hlogs with rfl | ⟨id, -, rfl⟩
      · exact hf.congr hmaps
      · exact hf.insert_empty id hmaps
    · show Inverts b.internalToExternal s'.locations
      rw [hlocations]
      exact hmirrors.inverts
  | _ => exact absurd trivial hquiet

theorem Valid.run (h : m.Valid owner logs) {sts : List StoreStep}
    (hown : ∀ st ∈ sts, ∀ doc ∈ docsOf st, owner doc.internalId = doc.externalId)
    (hmeets : m.Meets sts) : ∃ m' logs', m.steps sts = .ok m' ∧ m'.Valid owner logs' := by
  induction sts generalizing m logs with
  | nil => exact ⟨m, logs, rfl, h⟩
  | cons st sts ih =>
    obtain ⟨m', logs', hstep, hvalid⟩ := h.step (hown st mem_cons_self) hmeets.1
    obtain ⟨m'', logs'', hrun, hvalid'⟩ := ih hvalid
      (fun st' hst' => hown st' (mem_cons_of_mem st hst')) (hmeets.2 m' hstep)
    refine ⟨m'', logs'', ?_, hvalid'⟩
    rw [steps, foldlM_cons, hstep]
    exact hrun

end MappedRun

end Run

namespace MappedRun

open StoreRun StoredDocument List

theorem valid_newRun (owner : DocId → String) : new.Valid owner newLogs where
  valid := valid_new
  files := by
    refine ⟨fun id l hl rec hrec => ?_, by simp [new, StoreRun.new]⟩
    obtain ⟨-, rfl⟩ := newLogs_get? hl
    cases hrec
  inverts i x := by simp [new, StoreRun.new]

/-- The document each id belongs to, in a run that gives no id twice. -/
def ownerIn (docs : List StoredDocument) (id : DocId) : String :=
  ((docs.find? fun doc => doc.internalId = id).map externalId).getD ""

theorem ownerIn_eq {docs : List StoredDocument} (hids : (docs.map internalId).Nodup)
    {doc : StoredDocument} (hdoc : doc ∈ docs) : ownerIn docs doc.internalId = doc.externalId := by
  have hfind : docs.find? (fun d => d.internalId = doc.internalId) = some doc := by
    induction docs with
    | nil => cases hdoc
    | cons d docs ih =>
      obtain ⟨hfirst, hrest⟩ := nodup_cons.1 hids
      rw [find?_cons]
      rcases mem_cons.1 hdoc with rfl | hin
      · simp
      · have hne : d.internalId ≠ doc.internalId := by
          intro hsame
          exact hfirst (hsame ▸ mem_map_of_mem hin)
        simp only [hne, decide_false]
        exact ih hrest hin
  rw [ownerIn, hfind]
  rfl

/-- **`internal_to_external` inverts `locations`** in every state reached by steps
that put only external ids which are not there, with pairwise distinct internal
ids, and a full scan of the files then builds two such maps as well. -/
theorem inverts_run (sts : List StoreStep)
    (hids : ((sts.flatMap docsOf).map internalId).Nodup) (hmeets : new.Meets sts) :
    ∃ m, new.steps sts = .ok m ∧
      (∀ i x, m.internalToExternal.get? i = some x ↔
        ∃ loc, m.run.store.locations.get? x = some loc ∧ loc.internalId = i) ∧
      ∃ b, BothMaps.load m.run.store.dir = .ok b ∧
        ∀ i x, b.internalToExternal.get? i = some x ↔
          ∃ loc, b.loading.locations.get? x = some loc ∧ loc.internalId = i := by
  have hown : ∀ st ∈ sts, ∀ doc ∈ docsOf st,
      ownerIn (sts.flatMap docsOf) doc.internalId = doc.externalId :=
    fun st hst doc hdoc => ownerIn_eq hids (mem_flatMap.2 ⟨st, hst, hdoc⟩)
  obtain ⟨m, logs, hrun, hvalid⟩ := (valid_newRun _).run hown hmeets
  refine ⟨m, hrun, hvalid.inverts, _, BothMaps.load_replay hvalid.valid.store.segments
    hvalid.valid.store.fit, ?_⟩
  have hempty : BothMaps.Mirrors (ownerIn (sts.flatMap docsOf))
      ⟨⟨m.run.store.dir.segments, .empty, 0⟩, .empty⟩ := BothMaps.mirrors_empty _ _
  exact (hempty.replay _ fun p hp => hvalid.files.records.of_allPlaced hp).inverts

def firstSample : FittingDocument :=
  ⟨sample 1 [0], sample_fits (by decide) (by decide)⟩

/-- A document deleted and put again under a new id. -/
theorem inverts_run_renewed :
    new.Meets [.put firstSample, .delete "a", .put newSample] ∧
    ∃ m, new.steps [.put firstSample, .delete "a", .put newSample] = .ok m ∧
      ∀ i x, m.internalToExternal.get? i = some x ↔
        ∃ loc, m.run.store.locations.get? x = some loc ∧ loc.internalId = i := by
  have hmeets : new.Meets [.put firstSample, .delete "a", .put newSample] := by
    refine ⟨rfl, fun m hm => ⟨trivial, fun m' hm' => ⟨?_, fun _ _ => trivial⟩⟩⟩
    have hrun : new.steps [.put firstSample, .delete "a"] = .ok m' := by
      rw [steps, foldlM_cons, hm]
      show m.step (.delete "a") >>= pure = .ok m'
      rw [hm']
      rfl
    have hnone : (new.steps [.put firstSample, .delete "a"]).toOption.bind
        (fun m => m.run.store.locations.get? "a") = none := by decide +kernel
    rw [hrun] at hnone
    exact hnone
  obtain ⟨m, hrun, hinv, -⟩ := inverts_run _ (by decide) hmeets
  exact ⟨hmeets, m, hrun, hinv⟩

/-- A put over an existing document leaves its old id in the map. -/
theorem put_leaves_replaced :
    ∃ sts m, ((sts.flatMap docsOf).map internalId).Nodup ∧ new.steps sts = .ok m ∧
      ¬∀ i x, m.internalToExternal.get? i = some x ↔
        ∃ loc, m.run.store.locations.get? x = some loc ∧ loc.internalId = i := by
  have hids : (new.steps [.put firstSample, .put newSample]).toOption.bind
      (fun m => m.internalToExternal.get? 1) = some "a" := by decide +kernel
  have hplace : (new.steps [.put firstSample, .put newSample]).toOption.bind
      (fun m => (m.run.store.locations.get? "a").map DocLocation.internalId) = some 2 := by
    decide +kernel
  cases hrun : new.steps [.put firstSample, .put newSample] with
  | error e =>
    rw [hrun] at hids
    cases hids
  | ok m =>
    rw [hrun] at hids hplace
    refine ⟨_, m, by decide, hrun, fun hinv => ?_⟩
    obtain ⟨loc, hloc, hid⟩ := (hinv 1 "a").1 hids
    have hplace' : (m.run.store.locations.get? "a").map DocLocation.internalId = some 2 := hplace
    rw [hloc, Option.map_some, hid] at hplace'
    cases hplace'

end MappedRun

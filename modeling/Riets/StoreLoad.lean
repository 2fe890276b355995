/-
Opening a store from its logs.

Both ways to open a store read records in the order of the files and apply them
to the maps: `load` reads every segment from its start, `load_from_maps` starts
from the saved maps and reads what was written after them (`pending`).
-/
import Riets.StoreLog

open StoreDir BinaryDocumentStore SegmentLog SortedMap

abbrev SegmentRecord := ℕ × PlacedRecord

def placedIn (id pos : ℕ) (rs : List StoreRecord) : List SegmentRecord :=
  (place pos rs).map fun p => (id, p)

namespace StoreDir.Loading

def replay (l : Loading) (ps : List SegmentRecord) : Loading :=
  ps.foldl (fun l p => l.apply p.1 p.2) l

@[simp] theorem replay_nil (l : Loading) : l.replay [] = l := rfl

theorem replay_append (l : Loading) (ps ps' : List SegmentRecord) :
    l.replay (ps ++ ps') = (l.replay ps).replay ps' := List.foldl_append

@[simp] theorem apply_segments (l : Loading) (id : ℕ) (p : PlacedRecord) :
    (l.apply id p).segments = l.segments := by
  rw [apply]
  split <;> rfl

@[simp] theorem replay_segments (l : Loading) (ps : List SegmentRecord) :
    (l.replay ps).segments = l.segments := by
  induction ps generalizing l with
  | nil => rfl
  | cons p ps ih => exact (ih _).trans (apply_segments l p.1 p.2)

theorem foldl_apply (l : Loading) (id pos : ℕ) (rs : List StoreRecord) :
    (place pos rs).foldl (Loading.apply id) l = l.replay (placedIn id pos rs) := by
  rw [replay, placedIn, List.foldl_map]

end StoreDir.Loading

section Scan

variable {logs : Logs} {lg : SegmentLog} {pre post : List StoreRecord} {id : ℕ} {l : Loading}

theorem SegmentLog.scan_drop (hrec : lg.records = pre ++ post) (hfit : ∀ r ∈ lg.records, r.Fits) :
    scan (8 + (encodeAll pre).length) (lg.bytes.drop (8 + (encodeAll pre).length)) =
      (place (8 + (encodeAll pre).length) post, .clean) := by
  rw [drop_bytes hrec]
  exact scan_encodeAll (fun r hr => hfit r (by rw [hrec]; exact List.mem_append_right _ hr)) _

theorem SegmentLog.scanStart_none : scanStart lg.bytes none = scanStart lg.bytes (some 8) := by
  rw [scanStart, scanStart, take_bytes, if_pos]
  rw [header_eq_magic, header_eq_compacted]
  cases lg.compacted <;> simp

theorem scanSegment_ok (hget : l.segments.get? id = some lg.bytes) (hrec : lg.records = pre ++ post)
    (hfit : ∀ r ∈ lg.records, r.Fits) :
    scanSegment l id (some (8 + (encodeAll pre).length)) =
      .ok (l.replay (placedIn id (8 + (encodeAll pre).length) post)) := by
  have hlen : ¬lg.bytes.length < 8 := by
    rw [length_bytes]
    omega
  rw [scanSegment, hget]
  simp only
  rw [if_neg hlen]
  show Except.bind (.ok _) _ = _
  simp only [Except.bind, scan_drop hrec hfit, Loading.foldl_apply]

theorem scanSegment_whole (hget : l.segments.get? id = some lg.bytes)
    (hfit : ∀ r ∈ lg.records, r.Fits) :
    scanSegment l id none = .ok (l.replay (placedIn id 8 lg.records)) := by
  have hsome : scanSegment l id none = scanSegment l id (some 8) := by
    rw [scanSegment, scanSegment, hget]
    simp only [scanStart_none]
  rw [hsome]
  have hrec : lg.records = [] ++ lg.records := rfl
  exact scanSegment_ok hget hrec hfit

end Scan

def recordsOf (logs : Logs) (id : ℕ) : List StoreRecord :=
  ((logs.get? id).map records).getD []

def allPlaced (logs : Logs) : List SegmentRecord :=
  logs.keys.flatMap fun id => placedIn id 8 (recordsOf logs id)

section Load

variable {logs : Logs} {dir : StoreDir}

theorem recordsOf_eq {id : ℕ} {lg : SegmentLog} (h : logs.get? id = some lg) :
    recordsOf logs id = lg.records := by
  rw [recordsOf, h]
  rfl

theorem listSegmentIds_eq (hdir : dir.segments = logs.map bytes) :
    dir.listSegmentIds = logs.keys := by
  show dir.segments.keys = logs.keys
  rw [hdir, keys_map]

structure Reads {B : Type} (replay : B → List SegmentRecord → B) (segments : B → SortedMap ℕ ByteSeq) :
    Prop where
  nil : ∀ b, replay b [] = b
  append : ∀ b ps ps', replay b (ps ++ ps') = replay (replay b ps) ps'
  segments : ∀ b ps, segments (replay b ps) = segments b

namespace Reads

open List SortedMap

variable {B ι : Type} {replay : B → List SegmentRecord → B} {segments : B → SortedMap ℕ ByteSeq}

theorem foldlM (h : Reads replay segments) {f : B → ι → IoResult B} {g : ι → List SegmentRecord}
    (ids : List ι) (b : B)
    (hf : ∀ id ∈ ids, ∀ b', segments b' = segments b → f b' id = .ok (replay b' (g id))) :
    ids.foldlM f b = .ok (replay b (ids.flatMap g)) := by
  induction ids generalizing b with
  | nil =>
    rw [flatMap_nil, h.nil]
    rfl
  | cons id ids ih =>
    rw [foldlM_cons, hf id mem_cons_self b rfl, flatMap_cons, h.append]
    refine ih _ fun id' hid' b' hb' => hf id' (mem_cons_of_mem id hid') b' ?_
    rw [hb', h.segments]

theorem whole (h : Reads replay segments) (hdir : dir.segments = logs.map bytes)
    {scan : B → ℕ → IoResult B} {b : B} (hb : segments b = dir.segments)
    (hscan : ∀ b id lg, logs.get? id = some lg → (segments b).get? id = some lg.bytes →
      scan b id = .ok (replay b (placedIn id 8 lg.records))) :
    dir.listSegmentIds.foldlM scan b = .ok (replay b (allPlaced logs)) := by
  rw [listSegmentIds_eq hdir, allPlaced]
  refine h.foldlM _ _ fun id hid b' hb' => ?_
  obtain ⟨lg, hlg⟩ := mem_keys.1 hid
  rw [recordsOf_eq hlg]
  refine hscan b' id lg hlg ?_
  rw [hb', hb, hdir, get?_map, hlg]
  rfl

end Reads

theorem Loading.reads : Reads Loading.replay Loading.segments :=
  ⟨fun _ => rfl, Loading.replay_append, Loading.replay_segments⟩

theorem load_ok (hdir : dir.segments = logs.map bytes) (hfit : logs.Fit) :
    load dir = .ok (Loading.replay ⟨dir.segments, .empty, 0⟩ (allPlaced logs)) := by
  exact Loading.reads.whole hdir rfl fun b id lg hlg hget => scanSegment_whole hget (hfit id lg hlg)

end Load

/-! ### The saved maps -/

/-- What was written to a segment after the logs `base`. -/
def tailOf (base logs : Logs) (id : ℕ) : List SegmentRecord :=
  placedIn id (8 + (encodeAll (recordsOf base id)).length)
    ((recordsOf logs id).drop (recordsOf base id).length)

/-- What was written after the logs `base`, in the order it is read: the ends of
the segments known then, and the segments added since. -/
def pending (base logs : Logs) : List SegmentRecord :=
  base.keys.flatMap (tailOf base logs) ++
    (logs.keys.filter fun id => id ∉ base.keys).flatMap fun id => placedIn id 8 (recordsOf logs id)

/-- The saved maps, taken when the logs were `base` and the maps `locs`. -/
structure MapsOk (m : MapsFile) (s : BinaryDocumentStore) (logs base : Logs) (locs : Locations) :
    Prop where
  ends : m.segmentEnds = base.keys.map fun id => (id, 8 + (encodeAll (recordsOf base id)).length)
  entries : m.entries = locs.entries
  grows : base.Grows logs
  newer : ∀ id l, logs.get? id = some l → id ∉ base.keys →
    l.compacted = false ∧ id ≤ s.currentSegment ∧ (∀ id' ∈ base.keys, id' < id) ∧
      s.currentSegment ∉ base.keys
  still : ∀ id ∈ base.keys, s.currentSegment < id → recordsOf logs id = recordsOf base id
  replays : ∀ segments highest,
    (Loading.replay ⟨segments, locs, highest⟩ (pending base logs)).locations = s.locations

theorem Logs.Grows.recordsOf {base logs : Logs} (h : base.Grows logs) {id : ℕ}
    (hid : id ∈ base.keys) : ∃ rs, recordsOf logs id = recordsOf base id ++ rs := by
  obtain ⟨l, hl⟩ := mem_keys.1 hid
  obtain ⟨rs, hl'⟩ := h id l hl
  refine ⟨rs, ?_⟩
  rw [recordsOf_eq hl, recordsOf_eq hl']
  rfl

theorem Logs.Grows.mem_keys {base logs : Logs} (h : base.Grows logs) {id : ℕ}
    (hid : id ∈ base.keys) : id ∈ logs.keys := by
  obtain ⟨l, hl⟩ := SortedMap.mem_keys.1 hid
  obtain ⟨rs, hl'⟩ := h id l hl
  exact SortedMap.mem_keys.2 ⟨_, hl'⟩

theorem foldl_insert_entries (locs : Locations) :
    locs.entries.foldl (fun (m : Locations) e => m.insert e.1 e.2) .empty = locs := by
  have heq : locs.entries.foldl (fun (m : Locations) e => m.insert e.1 e.2) .empty =
      mergeWith (fun _ v => v) .empty locs := rfl
  rw [heq]
  refine ext_get? fun k => ?_
  rw [get?_mergeWith]
  cases locs.get? k <;> rfl

theorem StoreDir.Loading.replay_locations {l l' : Loading} (h : l.locations = l'.locations)
    (ps : List SegmentRecord) : (l.replay ps).locations = (l'.replay ps).locations := by
  induction ps generalizing l l' with
  | nil => exact h
  | cons p ps ih =>
    refine ih ?_
    show (l.apply p.1 p.2).locations = (l'.apply p.1 p.2).locations
    unfold Loading.apply
    cases p.2.record with
    | put doc => simp only [h]
    | delete x deleted => simp only [h]

section FromMaps

variable {m : MapsFile} {s : BinaryDocumentStore} {logs base : Logs} {locs : Locations}

theorem tails_eq {dir : StoreDir} (inUse : List ℕ) {ends : List (ℕ × ℕ)}
    (hends : ∀ e ∈ ends, ∃ bytes, dir.segments.get? e.1 = some bytes ∧ e.2 ≤ bytes.length) :
    tails dir inUse ends = some ends := by
  induction ends with
  | nil => rfl
  | cons e ends ih =>
    obtain ⟨bytes, hget, hle⟩ := hends e List.mem_cons_self
    obtain ⟨id, stop⟩ := e
    have hget' : dir.segments.get? id = some bytes := hget
    have hle' : stop ≤ bytes.length := hle
    rw [tails, hget']
    simp only
    rw [if_pos hle', ih fun e he => hends e (List.mem_cons_of_mem _ he)]
    rfl

theorem tail_split (h : s.Ok logs) (hm : MapsOk m s logs base locs) {id : ℕ} (hid : id ∈ base.keys) :
    ∃ lg rs, logs.get? id = some lg ∧ lg.records = recordsOf base id ++ rs ∧
      s.dir.segments.get? id = some lg.bytes ∧
      tailOf base logs id = placedIn id (8 + (encodeAll (recordsOf base id)).length) rs := by
  obtain ⟨lg, hlg⟩ := mem_keys.1 (hm.grows.mem_keys hid)
  obtain ⟨rs, hrs⟩ := hm.grows.recordsOf hid
  refine ⟨lg, rs, hlg, (recordsOf_eq hlg).symm.trans hrs, ?_, ?_⟩
  · rw [h.get?_segments, hlg]
    rfl
  · rw [tailOf, hrs, List.drop_left]

theorem segmentEnds_ok (h : s.Ok logs) (hm : MapsOk m s logs base locs) :
    ∀ e ∈ m.segmentEnds, ∃ bytes, s.dir.segments.get? e.1 = some bytes ∧ e.2 ≤ bytes.length := by
  intro e he
  rw [hm.ends, List.mem_map] at he
  obtain ⟨id, hid, rfl⟩ := he
  obtain ⟨lg, rs, -, hrec, hget, -⟩ := tail_split h hm hid
  refine ⟨lg.bytes, hget, ?_⟩
  rw [length_bytes, hrec, encodeAll_append, List.length_append]
  omega

theorem MapsOk.known (hm : MapsOk m s logs base locs) :
    m.segmentEnds.map Prod.fst = base.keys := by
  rw [hm.ends, List.map_map]
  exact List.map_id _

theorem flatMap_unknown (known ids : List ℕ) (g : ℕ → List SegmentRecord) :
    (ids.filter fun id => id ∉ known).flatMap g =
      ids.flatMap fun id => if id ∈ known then [] else g id := by
  induction ids with
  | nil => rfl
  | cons id ids ih =>
    rw [List.flatMap_cons, ← ih, List.filter_cons]
    by_cases hid : id ∈ known <;> simp [hid]

theorem unknown_split (h : s.Ok logs) (hm : MapsOk m s logs base locs) {id : ℕ}
    (hid : id ∈ logs.keys) (hb : id ∉ base.keys) :
    ∃ lg, logs.get? id = some lg ∧ s.dir.segments.get? id = some lg.bytes ∧
      ¬lg.bytes.length < 8 ∧ ¬lg.bytes.take 8 = compactedMagic := by
  obtain ⟨lg, hlg⟩ := SortedMap.mem_keys.1 hid
  refine ⟨lg, hlg, ?_, ?_, ?_⟩
  · rw [h.get?_segments, hlg]
    rfl
  · rw [length_bytes]
    omega
  · rw [take_bytes, header_eq_compacted, (hm.newer id lg hlg hb).1]
    simp

theorem Reads.since {B : Type} {replay : B → List SegmentRecord → B}
    {segments : B → SortedMap ℕ ByteSeq} (hreads : Reads replay segments) (h : s.Ok logs)
    (hm : MapsOk m s logs base locs) {scan : B → ℕ → Option ℕ → IoResult B}
    (unknown : B → ℕ → IoResult B) {b : B} (hb : segments b = s.dir.segments)
    (htail : ∀ b id lg pre post, logs.get? id = some lg → (segments b).get? id = some lg.bytes →
      lg.records = pre ++ post → scan b id (some (8 + (encodeAll pre).length)) =
        .ok (replay b (placedIn id (8 + (encodeAll pre).length) post)))
    (hknown : ∀ b, ∀ id ∈ base.keys, unknown b id = .ok b)
    (hunknown : ∀ b, ∀ id ∉ base.keys, ∀ lg, logs.get? id = some lg →
      (segments b).get? id = some lg.bytes → ¬lg.bytes.length < 8 →
      ¬lg.bytes.take 8 = compactedMagic → unknown b id = .ok (replay b (placedIn id 8 lg.records))) :
    (m.segmentEnds.foldlM (fun b e => scan b e.1 (some e.2)) b >>= fun b =>
      s.dir.listSegmentIds.foldlM unknown b) = .ok (replay b (pending base logs)) := by
  have htails : m.segmentEnds.foldlM (fun b e => scan b e.1 (some e.2)) b =
      .ok (replay b (base.keys.flatMap (tailOf base logs))) := by
    have hmap : base.keys.flatMap (tailOf base logs) =
        m.segmentEnds.flatMap fun e => tailOf base logs e.1 := by
      rw [hm.ends, List.flatMap_map]
    rw [hmap]
    refine hreads.foldlM _ _ fun e he b' hb' => ?_
    rw [hm.ends, List.mem_map] at he
    obtain ⟨id, hid, rfl⟩ := he
    obtain ⟨lg, rs, hlg, hrec, hget, heq⟩ := tail_split h hm hid
    rw [heq]
    exact htail b' id lg _ rs hlg (by rw [hb', hb]; exact hget) hrec
  rw [htails, pending, hreads.append, flatMap_unknown, listSegmentIds_eq h.segments]
  refine hreads.foldlM _ _ fun id hid b' hb' => ?_
  by_cases hin : id ∈ base.keys
  · rw [if_pos hin, hreads.nil, hknown b' id hin]
  · obtain ⟨lg, hlg, hget, hlen, hmagic⟩ := unknown_split h hm hid hin
    rw [← hb, ← hreads.segments, ← hb'] at hget
    rw [if_neg hin, recordsOf_eq hlg]
    exact hunknown b' id hin lg hlg hget hlen hmagic

theorem loadFromMaps_ok (h : s.Ok logs) (hmaps : s.dir.maps = some m)
    (hm : MapsOk m s logs base locs) :
    ∃ l, loadFromMaps s.dir = .ok (some l) ∧ l.segments = s.dir.segments ∧
      l.locations = s.locations ∧
      l = (s.dir.savedMaps m).replay (pending base logs) := by
  refine ⟨(s.dir.savedMaps m).replay (pending base logs), ?_, ?_, ?_, rfl⟩
  · have hsince := Loading.reads.since (b := s.dir.savedMaps m) h hm (scanUnknown base.keys) rfl
      (fun b id lg pre post hlg hget hrec => scanSegment_ok hget hrec (h.fit id lg hlg))
      (fun b id hid => by rw [scanUnknown, if_pos hid]) fun b id hid lg hlg hget hlen hmagic => by
        rw [scanUnknown, if_neg hid, hget]
        simp only
        rw [if_neg hlen, if_neg hmagic]
        exact scanSegment_whole hget (h.fit id lg hlg)
    rw [loadFromMaps, hmaps]
    simp only [tails_eq _ (segmentEnds_ok h hm), hm.known]
    rw [← bind_assoc, hsince]
    rfl
  · exact Loading.replay_segments _ _
  · rw [← hm.replays s.dir.segments 0]
    refine Loading.replay_locations ?_ _
    show m.entries.foldl _ _ = locs
    rw [hm.entries]
    exact foldl_insert_entries locs

end FromMaps

/-! ### The saved maps while the store is written to -/

theorem flatMap_last {β : Type} {ids : List ℕ} (hasc : ids.Pairwise (· < ·)) {cur : ℕ}
    (hcur : cur ∈ ids) {f f' : ℕ → List β} {p : β} (hother : ∀ id ∈ ids, id ≠ cur → f' id = f id)
    (hat : f' cur = f cur ++ [p]) (hafter : ∀ id ∈ ids, cur < id → f id = []) :
    ids.flatMap f' = ids.flatMap f ++ [p] := by
  obtain ⟨before, after, rfl⟩ := List.append_of_mem hcur
  obtain ⟨-, hrest, hcross⟩ := List.pairwise_append.1 hasc
  have hbefore : before.flatMap f' = before.flatMap f :=
    List.flatMap_congr fun id hid => hother id (List.mem_append_left _ hid)
      (ne_of_lt (hcross id hid cur List.mem_cons_self))
  have hlt : ∀ id ∈ after, cur < id := (List.pairwise_cons.1 hrest).1
  have hin : ∀ id ∈ after, id ∈ before ++ cur :: after := fun id hid =>
    List.mem_append_right _ (List.mem_cons_of_mem _ hid)
  have hnil : after.flatMap f = [] :=
    List.flatMap_eq_nil_iff.2 fun id hid => hafter id (hin id hid) (hlt id hid)
  have hnil' : after.flatMap f' = [] := by
    refine List.flatMap_eq_nil_iff.2 fun id hid => ?_
    rw [hother id (hin id hid) (ne_of_gt (hlt id hid))]
    exact hafter id (hin id hid) (hlt id hid)
  rw [List.flatMap_append, List.flatMap_append, List.flatMap_cons, List.flatMap_cons, hbefore, hat,
    hnil, hnil', List.append_nil, List.append_nil, List.append_assoc]

theorem recordsOf_push (logs : Logs) (id : ℕ) (l : SegmentLog) (r : StoreRecord) (id' : ℕ) :
    recordsOf (logs.push id l r) id' = if id' = id then l.records ++ [r] else recordsOf logs id' := by
  rw [recordsOf, Logs.push, get?_insert]
  split_ifs <;> rfl

variable {logs : Logs}

theorem keys_push {id : ℕ} {l : SegmentLog} (hl : logs.get? id = some l)
    (r : StoreRecord) : (logs.push id l r).keys = logs.keys :=
  keys_insert_of_mem logs (mem_keys.2 ⟨l, hl⟩) _

namespace MapsOk

open SortedMap List SegmentLog Logs

variable {m : MapsFile} {s s' : BinaryDocumentStore} {logs logs' base : Logs} {locs : Locations}
  {l : SegmentLog}

theorem pending_push (hm : MapsOk m s logs base locs) (hl : logs.get? s.currentSegment = some l)
    (r : StoreRecord) :
    pending base (logs.push s.currentSegment l r) = pending base logs ++
      [(s.currentSegment, ⟨l.bytes.length, r.encode.length, r⟩)] := by
  have hmem : s.currentSegment ∈ logs.keys := mem_keys.2 ⟨l, hl⟩
  rw [pending, pending, keys_push hl]
  by_cases hcur : s.currentSegment ∈ base.keys
  · -- no segment was added since the maps were saved
    have hnone : logs.keys.filter (fun id => id ∉ base.keys) = [] := by
      rw [filter_eq_nil_iff]
      intro id hid hnot
      obtain ⟨lg, hlg⟩ := mem_keys.1 hid
      exact (hm.newer id lg hlg (of_decide_eq_true hnot)).2.2.2 hcur
    rw [hnone, flatMap_nil, flatMap_nil, append_nil, append_nil]
    obtain ⟨rs, hrs⟩ := hm.grows.recordsOf hcur
    refine flatMap_last base.keys_ascending hcur (fun id _ hne => ?_) ?_ fun id hid hlt => ?_
    · rw [tailOf, tailOf, recordsOf_push, if_neg hne]
    · rw [tailOf, tailOf, recordsOf_push, if_pos rfl, hrs, drop_left, ← recordsOf_eq hl, hrs,
        append_assoc, drop_left, placedIn, placedIn, place_append, map_append,
        length_bytes, ← recordsOf_eq hl, hrs, encodeAll_append, length_append,
        Nat.add_assoc]
      rfl
    · rw [tailOf, hm.still id hid hlt, drop_length]
      rfl
  · have hfirst : base.keys.flatMap (tailOf base (logs.push s.currentSegment l r)) =
        base.keys.flatMap (tailOf base logs) := by
      refine flatMap_congr fun id hid => ?_
      rw [tailOf, tailOf, recordsOf_push, if_neg]
      rintro rfl
      exact hcur hid
    rw [hfirst, append_assoc]
    congr 1
    have hin : s.currentSegment ∈ logs.keys.filter fun id => id ∉ base.keys := by
      rw [mem_filter]
      exact ⟨hmem, decide_eq_true hcur⟩
    refine flatMap_last (logs.keys_ascending.filter _) hin (fun id _ hne => ?_) ?_
      fun id hid hlt => ?_
    · rw [recordsOf_push, if_neg hne]
    · rw [recordsOf_push, if_pos rfl, recordsOf_eq hl, placedIn, placedIn, place_append,
        map_append, length_bytes]
      rfl
    · obtain ⟨hid', hnot⟩ := mem_filter.1 hid
      obtain ⟨lg, hlg⟩ := mem_keys.1 hid'
      have := (hm.newer id lg hlg (of_decide_eq_true hnot)).2.1
      omega

theorem push (hm : MapsOk m s logs base locs) (hl : logs.get? s.currentSegment = some l)
    (r : StoreRecord) (hcur : s'.currentSegment = s.currentSegment)
    (hloc : ∀ segments highest, (Loading.apply s.currentSegment ⟨segments, s.locations, highest⟩
      ⟨l.bytes.length, r.encode.length, r⟩).locations = s'.locations) :
    MapsOk m s' (logs.push s.currentSegment l r) base locs where
  ends := hm.ends
  entries := hm.entries
  grows := hm.grows.trans (push_grows hl r)
  newer id l' hl' hid := by
    obtain ⟨l₀, hl₀, hcomp⟩ := of_get?_push hl hl'
    rw [hcur, hcomp]
    exact hm.newer id l₀ hl₀ hid
  still id hid hlt := by
    rw [hcur] at hlt
    rw [recordsOf_push, if_neg (ne_of_gt hlt)]
    exact hm.still id hid hlt
  replays segments highest := by
    rw [hm.pending_push hl r, Loading.replay_append, ← hloc segments highest]
    have hbefore : (Loading.replay _ (pending base logs)).locations =
        (⟨segments, s.locations, highest⟩ : Loading).locations := hm.replays segments highest
    exact Loading.replay_locations hbefore
      [(s.currentSegment, ⟨l.bytes.length, r.encode.length, r⟩)]

theorem congr (hm : MapsOk m s logs base locs) (hcur : s'.currentSegment = s.currentSegment)
    (hloc : s'.locations = s.locations) : MapsOk m s' logs base locs where
  ends := hm.ends
  entries := hm.entries
  grows := hm.grows
  newer := by
    rw [hcur]
    exact hm.newer
  still := by
    rw [hcur]
    exact hm.still
  replays := by
    rw [hloc]
    exact hm.replays

theorem pending_insert_empty {id : ℕ} (hgt : ∀ id' ∈ logs.keys, id' < id) :
    pending base (logs.insert id ⟨false, []⟩) = pending base logs := by
  have hrec : ∀ id', recordsOf (insert logs id ⟨false, []⟩) id' = recordsOf logs id' := by
    intro id'
    rw [recordsOf, recordsOf, get?_insert]
    by_cases hid : id' = id
    · rw [if_pos hid]
      cases hget : logs.get? id' with
      | none => rfl
      | some lg => exact absurd (hgt id' (mem_keys.2 ⟨lg, hget⟩)) (by omega)
    · rw [if_neg hid]
  have hnil : placedIn id 8 (recordsOf logs id) = [] := by
    rw [← hrec, recordsOf, get?_insert, if_pos rfl]
    rfl
  rw [pending, pending, keys_insert_of_gt logs hgt, filter_append,
    flatMap_append]
  have htail : ∀ id', tailOf base (insert logs id ⟨false, []⟩) id' =
      tailOf base logs id' := by
    intro id'
    rw [tailOf, tailOf, hrec]
  have hlast : (([id] : List ℕ).filter fun id => id ∉ base.keys).flatMap
      (fun id => placedIn id 8 (recordsOf logs id)) = [] := by
    rw [flatMap_eq_nil_iff]
    intro id' hid'
    rw [mem_singleton.1 (mem_filter.1 hid').1]
    exact hnil
  simp only [hrec, hlast, append_nil, funext htail]

section

variable (hm : MapsOk m s logs base locs)
include hm

theorem insert_empty {id : ℕ} (hgt : ∀ id' ∈ logs.keys, id' < id)
    (hcur : s'.currentSegment = id) (hloc : s'.locations = s.locations) :
    MapsOk m s' (logs.insert id ⟨false, []⟩) base locs := by
  have hbase : ∀ id' ∈ base.keys, id' < id := fun id' hid' => hgt id' (hm.grows.mem_keys hid')
  have hnone : logs.get? id = none := by
    cases hget : logs.get? id with
    | none => rfl
    | some lg => exact absurd (hgt id (mem_keys.2 ⟨lg, hget⟩)) (lt_irrefl _)
  refine ⟨hm.ends, hm.entries, hm.grows.trans (insert_grows hnone _), ?_, ?_, ?_⟩
  · intro id' l' hl' hid'
    have hnot : s'.currentSegment ∉ base.keys := by
      rw [hcur]
      intro hmem
      exact lt_irrefl _ (hbase id hmem)
    rw [get?_insert] at hl'
    by_cases heq : id' = id
    · rw [if_pos heq] at hl'
      cases hl'
      exact ⟨rfl, by rw [heq, hcur], fun id'' h'' => heq ▸ hbase id'' h'', hnot⟩
    · rw [if_neg heq] at hl'
      obtain ⟨hcomp, hle, hlt, -⟩ := hm.newer id' l' hl' hid'
      have := hgt id' (mem_keys.2 ⟨l', hl'⟩)
      exact ⟨hcomp, by omega, hlt, hnot⟩
  · intro id' hid' hlt
    have := hbase id' hid'
    omega
  · intro segments highest
    rw [pending_insert_empty hgt, hloc]
    exact hm.replays segments highest

theorem putOne (h : s.Ok logs)
    (hl : logs.get? s.currentSegment = some l) (doc : StoredDocument) :
    MapsOk m (s.putOne doc) (logs.push s.currentSegment l (.put doc)) base locs := by
  refine hm.push hl (.put doc) rfl fun _ _ => ?_
  have hstart : ((s.dir.segments.get? s.currentSegment).getD []).length = l.bytes.length := by
    rw [h.get?_segments, hl]
    rfl
  show s.locations.insert _ _ = s.locations.insert _ _
  rw [hstart]
  rfl

theorem removeOne (hl : logs.get? s.currentSegment = some l)
    {x : String} {loc : DocLocation} (hx : s.locations.get? x = some loc) :
    MapsOk m (s.removeOne x loc.internalId)
      (logs.push s.currentSegment l (.delete x loc.internalId)) base locs := by
  refine hm.push hl _ rfl fun _ _ => ?_
  simp only [Loading.apply, hx, le_refl, if_true]
  rfl

theorem rotated (h : s.Ok logs) :
    MapsOk m s.rotated (logs.insert s.nextSegmentId ⟨false, []⟩) base locs := by
  refine hm.insert_empty (fun id hid => ?_) rfl rfl
  obtain ⟨lg, hlg⟩ := mem_keys.1 hid
  exact h.below id lg hlg

end

end MapsOk

theorem mapsOk_current {s : BinaryDocumentStore} (h : s.Ok logs) (highest : DocId) :
    MapsOk (s.currentMaps highest) s logs logs s.locations := by
  have hrec : ∀ id ∈ logs.keys, tailOf logs logs id = [] := by
    intro id _
    rw [tailOf, List.drop_length]
    rfl
  have hpending : pending logs logs = [] := by
    rw [pending, List.flatMap_eq_nil_iff.2 hrec, List.nil_append]
    have hnone : logs.keys.filter (fun id => id ∉ logs.keys) = [] := by
      rw [List.filter_eq_nil_iff]
      intro id hid hnot
      exact of_decide_eq_true hnot hid
    rw [hnone]
    rfl
  refine ⟨?_, rfl, Logs.Grows.refl logs, fun id l hl hid => ?_, fun _ _ _ => rfl, fun _ _ => ?_⟩
  · show s.dir.segments.entries.map (fun e => (e.1, e.2.length)) = _
    rw [h.segments]
    show (logs.entries.map _).map _ = (logs.entries.map Prod.fst).map _
    rw [List.map_map, List.map_map]
    refine List.map_congr_left fun e he => ?_
    have hget : logs.get? e.1 = some e.2 := mem_entries.1 he
    simp only [Function.comp, recordsOf_eq hget, length_bytes]
  · exact absurd (mem_keys.2 ⟨l, hl⟩) hid
  · rw [hpending]
    rfl

/-! ### Runs keep the invariants -/

structure StoreRun.Valid (r : StoreRun) (logs : Logs) : Prop extends r.Ok logs where
  maps : ∀ m, r.store.dir.maps = some m → ∃ base locs, MapsOk m r.store logs base locs

section Moves

variable {s : BinaryDocumentStore} {logs : Logs} {l : SegmentLog}

theorem undisturbed_push (hl : logs.get? s.currentSegment = some l) (r : StoreRecord)
    {s' : BinaryDocumentStore} (hcur : s'.currentSegment = s.currentSegment)
    (hnext : s'.nextSegmentId = s.nextSegmentId)
    (hloc : ∀ x loc, s'.locations.get? x = some loc → loc.segment < s.currentSegment →
      s.locations.get? x = some loc) :
    Undisturbed s s' logs (logs.push s.currentSegment l r) where
  grows := Logs.push_grows hl r
  current_le := le_of_eq hcur.symm
  next_le := le_of_eq hnext.symm
  new_segments id hnone hsome := by
    obtain ⟨l', hl'⟩ := Option.ne_none_iff_exists'.1 hsome
    obtain ⟨l₀, hl₀, -⟩ := Logs.of_get?_push hl hl'
    rw [hnone] at hl₀
    cases hl₀
  locations := hloc

theorem undisturbed_putOne (hl : logs.get? s.currentSegment = some l) (doc : StoredDocument) :
    Undisturbed s (s.putOne doc) logs (logs.push s.currentSegment l (.put doc)) := by
  refine undisturbed_push hl (.put doc) rfl rfl fun x loc hx hlt => ?_
  rw [putOne, get?_insert] at hx
  by_cases hxd : x = doc.externalId
  · rw [if_pos hxd] at hx
    cases hx
    exact absurd hlt (lt_irrefl _)
  · rw [if_neg hxd] at hx
    exact hx

theorem undisturbed_removeOne (hl : logs.get? s.currentSegment = some l) (x : String) (id : DocId) :
    Undisturbed s (s.removeOne x id) logs (logs.push s.currentSegment l (.delete x id)) := by
  refine undisturbed_push hl (.delete x id) rfl rfl fun y loc hy _ => ?_
  rw [removeOne, get?_erase] at hy
  split_ifs at hy
  exact hy

theorem undisturbed_rotated (h : s.Ok logs) :
    Undisturbed s s.rotated logs (logs.insert s.nextSegmentId ⟨false, []⟩) where
  grows := Logs.insert_grows h.next_free _
  current_le := by
    obtain ⟨l, hl, -⟩ := h.current
    exact le_of_lt (h.below _ l hl)
  next_le := Nat.le_succ _
  new_segments id hnone hsome := by
    rw [get?_insert] at hsome
    split_ifs at hsome with hid
    · exact le_of_eq hid.symm
    · exact absurd hnone hsome
  locations _ _ hx _ := hx

theorem undisturbed_same {s' : BinaryDocumentStore} (hcur : s'.currentSegment = s.currentSegment)
    (hnext : s.nextSegmentId ≤ s'.nextSegmentId) (hloc : s'.locations = s.locations) :
    Undisturbed s s' logs logs where
  grows := Logs.Grows.refl logs
  current_le := le_of_eq hcur.symm
  next_le := hnext
  new_segments _ hnone hsome := absurd hnone hsome
  locations x loc hx _ := by rwa [hloc] at hx

end Moves

namespace StoreRun.Valid

variable {r : StoreRun} {logs : Logs} {l : SegmentLog}

theorem current_bytes (h : r.Valid logs) : ∃ l, logs.get? r.store.currentSegment = some l ∧
    r.store.dir.segments.get? r.store.currentSegment = some l.bytes := by
  obtain ⟨l, hl, -⟩ := h.store.current
  refine ⟨l, hl, ?_⟩
  rw [h.store.get?_segments, hl]
  rfl

theorem fits_of_batch (docs : List FittingDocument) : ∀ doc ∈ docs.map Subtype.val, doc.Fits := by
  intro doc hdoc
  obtain ⟨d, -, rfl⟩ := List.mem_map.1 hdoc
  exact d.2

section

variable (h : r.Valid logs)
include h

theorem putOne (hl : logs.get? r.store.currentSegment = some l)
    {doc : StoredDocument} (hdoc : doc.Fits) :
    Valid { r with store := r.store.putOne doc }
      (logs.push r.store.currentSegment l (.put doc)) where
  store := h.store.putOne hl hdoc
  compacting := h.compacting.undisturbed (undisturbed_putOne hl doc)
  maps m hm := by
    obtain ⟨base, locs, hmaps⟩ := h.maps m hm
    exact ⟨base, locs, hmaps.putOne h.store hl doc⟩

theorem removeOne (hl : logs.get? r.store.currentSegment = some l) {x : String}
    {loc : DocLocation} (hx : r.store.locations.get? x = some loc) :
    Valid { r with store := r.store.removeOne x loc.internalId }
      (logs.push r.store.currentSegment l (.delete x loc.internalId)) where
  store := h.store.removeOne hl hx
  compacting := h.compacting.undisturbed (undisturbed_removeOne hl x loc.internalId)
  maps m hm := by
    obtain ⟨base, locs, hmaps⟩ := h.maps m hm
    exact ⟨base, locs, hmaps.removeOne hl hx⟩

theorem raise (id : DocId) :
    Valid { r with store := r.store.raise id } logs where
  store := h.store.raise id
  compacting := h.compacting.undisturbed (undisturbed_same rfl le_rfl rfl)
  maps m hm := by
    obtain ⟨base, locs, hmaps⟩ := h.maps m hm
    exact ⟨base, locs, hmaps.congr rfl rfl⟩

theorem rotated :
    Valid { r with store := r.store.rotated }
      (logs.insert r.store.nextSegmentId ⟨false, []⟩) where
  store := h.store.rotated
  compacting := h.compacting.undisturbed (undisturbed_rotated h.store)
  maps m hm := by
    obtain ⟨base, locs, hmaps⟩ := h.maps m hm
    exact ⟨base, locs, hmaps.rotated h.store⟩

theorem recached {s' : BinaryDocumentStore} (hs' : s'.Ok logs)
    (hdir : s'.dir = r.store.dir) (hloc : s'.locations = r.store.locations)
    (hcur : s'.currentSegment = r.store.currentSegment)
    (hnext : s'.nextSegmentId = r.store.nextSegmentId) : Valid { r with store := s' } logs where
  store := hs'
  compacting := h.compacting.undisturbed (undisturbed_same hcur (le_of_eq hnext.symm) hloc)
  maps m hm := by
    rw [hdir] at hm
    obtain ⟨base, locs, hmaps⟩ := h.maps m hm
    exact ⟨base, locs, hmaps.congr hcur hloc⟩

theorem saveMaps (highest : DocId) :
    Valid { r with store := r.store.saveMaps highest } logs where
  store := h.store.saveMaps highest
  compacting := h.compacting.undisturbed (undisturbed_same rfl le_rfl rfl)
  maps m hm := by
    cases hm
    exact ⟨logs, r.store.locations, (mapsOk_current h.store highest).congr rfl rfl⟩

theorem planned {deadEnough : ℕ → ℕ → Bool} {tie : ℕ → ℕ} {targetSize : ℕ}
    {job : SegmentCompactionJob} {s' : BinaryDocumentStore}
    (hplan : r.store.planCompaction deadEnough tie targetSize = (some job, s')) :
    Valid ⟨s', .planned job⟩ logs := by
  obtain ⟨hs', hjob, rfl⟩ := h.store.planCompaction hplan
  refine ⟨⟨hs', hjob⟩, fun m hm => ?_⟩
  obtain ⟨base, locs, hmaps⟩ := h.maps m hm
  exact ⟨base, locs, hmaps.congr rfl rfl⟩

theorem completed {c : CompletedSegmentCompaction} {docs : List StoredDocument}
    (hc : c.Ok r.store logs docs) : Valid { r with compacting := .completed c } logs :=
  ⟨⟨h.store, docs, hc⟩, h.maps⟩

theorem idle : Valid { r with compacting := .idle } logs :=
  ⟨⟨h.store, trivial⟩, h.maps⟩

theorem installed {c : CompletedSegmentCompaction} {docs : List StoredDocument}
    (hc : c.Ok r.store logs docs) :
    Valid ⟨(r.store.installSegmentCompaction c).2, .idle⟩ (installedLogs logs c docs) where
  store := h.store.install hc
  compacting := trivial
  maps m hm := by
    have hcurrent := mapsOk_current (h.store.install hc) r.store.highestId
    cases hm
    exact ⟨_, _, hcurrent⟩

end

end StoreRun.Valid

/-! ### Opening again -/

theorem mem_place {pos : ℕ} {rs : List StoreRecord} {p : PlacedRecord} (h : p ∈ place pos rs) :
    ∃ pre post, rs = pre ++ p.record :: post ∧ p.start = pos + (encodeAll pre).length ∧
      p.len = p.record.encode.length := by
  induction rs generalizing pos with
  | nil => cases h
  | cons r rs ih =>
    rw [place, List.mem_cons] at h
    rcases h with rfl | h
    · exact ⟨[], rs, rfl, rfl, rfl⟩
    · obtain ⟨pre, post, hrs, hstart, hlen⟩ := ih h
      refine ⟨r :: pre, post, by rw [hrs]; rfl, ?_, hlen⟩
      rw [hstart, encodeAll_cons, List.length_append, Nat.add_assoc]

theorem at_of_mem_allPlaced {p : SegmentRecord} (h : p ∈ allPlaced logs)
    {doc : StoredDocument} (hdoc : p.2.record = .put doc) :
    At logs ⟨doc.internalId, p.2.start + 1, p.1, (p.2.len - 1) % 2 ^ 32⟩ doc := by
  obtain ⟨id, hid, hmem⟩ := List.mem_flatMap.1 h
  obtain ⟨q, hq, rfl⟩ := List.mem_map.1 hmem
  obtain ⟨lg, hlg⟩ := SortedMap.mem_keys.1 hid
  obtain ⟨pre, post, hrs, hstart, hlen⟩ := mem_place hq
  rw [recordsOf_eq hlg] at hrs
  have hdoc' : q.record = .put doc := hdoc
  refine ⟨lg, pre, post, hlg, by rw [hrs, hdoc'], ?_⟩
  show (⟨_, q.start + 1, _, (q.len - 1) % 2 ^ 32⟩ : DocLocation) = _
  rw [hlen, hdoc', hstart]
  rfl

theorem located_replay (l : Loading) (ps : List SegmentRecord)
    (hps : ∀ p ∈ ps, p ∈ allPlaced logs)
    (hl : ∀ x loc, l.locations.get? x = some loc → ∃ doc, doc.externalId = x ∧ At logs loc doc) :
    ∀ x loc, (l.replay ps).locations.get? x = some loc →
      ∃ doc, doc.externalId = x ∧ At logs loc doc := by
  induction ps generalizing l with
  | nil => exact hl
  | cons p ps ih =>
    refine ih (l.apply p.1 p.2) (fun q hq => hps q (List.mem_cons_of_mem p hq)) fun x loc hx => ?_
    have hmem := hps p List.mem_cons_self
    unfold Loading.apply at hx
    cases hrec : p.2.record with
    | put doc =>
      simp only [hrec, get?_insert] at hx
      split_ifs at hx with hxd
      · cases hx
        exact ⟨doc, hxd.symm, at_of_mem_allPlaced hmem hrec⟩
      · exact hl x loc hx
    | delete y deleted =>
      simp only [hrec] at hx
      refine hl x loc ?_
      split at hx
      · split_ifs at hx
        · rw [get?_erase] at hx
          split_ifs at hx
          exact hx
        · exact hx
      · exact hx

theorem lt_nextId {segments : SortedMap ℕ ByteSeq} {id : ℕ} (h : id ∈ segments.keys) :
    id < nextId segments := by
  exact Nat.lt_succ_of_le ((Keyed.le_foldl_max _ 0).2 id h)

theorem appendTo_ok (hne : logs.keys ≠ []) {segments : SortedMap ℕ ByteSeq}
    (hseg : segments = logs.map bytes) (next : ℕ) :
    (∃ id l, logs.get? id = some l ∧ l.compacted = false ∧ (∀ id' ∈ logs.keys, id' ≤ id) ∧
      appendTo segments next = .ok (id, next, segments)) ∨
    appendTo segments next =
      .ok (next, next + 1, (logs.insert next ⟨false, []⟩).map bytes) := by
  have hne' : logs.entries ≠ [] := fun h => hne (by rw [keys, h]; rfl)
  obtain ⟨e, he⟩ : ∃ e, logs.entries.getLast? = some e :=
    ⟨_, List.getLast?_eq_some_getLast hne'⟩
  have hlast : segments.entries.getLast? = some (e.1, e.2.bytes) := by
    rw [hseg]
    show (logs.entries.map _).getLast? = _
    rw [List.getLast?_map, he]
    rfl
  have hget : logs.get? e.1 = some e.2 := mem_entries.1 (List.mem_of_getLast? he)
  have hlen : ¬e.2.bytes.length < 8 := by
    rw [length_bytes]
    omega
  have hmax : ∀ id ∈ logs.keys, id ≤ e.1 := by
    intro id hid
    obtain ⟨entries, hsplit⟩ := List.getLast?_eq_some_iff.1 he
    have hasc := logs.keys_ascending
    rw [keys, hsplit, List.map_append] at hasc hid
    rcases List.mem_append.1 hid with hin | hin
    · exact le_of_lt ((List.pairwise_append.1 hasc).2.2 id hin e.1 (by simp))
    · exact le_of_eq (List.mem_singleton.1 hin)
  rw [appendTo, hlast]
  simp only
  rw [if_neg hlen, take_bytes]
  by_cases hcomp : e.2.compacted = false
  · rw [if_pos (header_eq_magic.2 hcomp)]
    exact .inl ⟨e.1, e.2, hget, hcomp, hmax, rfl⟩
  · rw [if_neg fun h => hcomp (header_eq_magic.1 h), Logs.map_insert, hseg]
    exact .inr rfl

namespace StoreRun.Valid

open SortedMap List

variable {r : StoreRun} {logs : Logs}

theorem keys_ne_nil (h : r.Valid logs) : logs.keys ≠ [] := by
  obtain ⟨l, hl, -⟩ := h.store.current
  exact ne_nil_of_mem (mem_keys.2 ⟨l, hl⟩)

theorem loaded (h : r.Valid logs) :
    ∃ l, loadEither r.store.dir = .ok l ∧ l.segments = r.store.dir.segments ∧
      (∀ x loc, l.locations.get? x = some loc → ∃ doc, doc.externalId = x ∧ At logs loc doc) ∧
      (r.store.dir.maps ≠ none → l.locations = r.store.locations) ∧
      (r.store.dir.maps = none →
        l = Loading.replay ⟨r.store.dir.segments, .empty, 0⟩ (allPlaced logs)) := by
  cases hm : r.store.dir.maps with
  | none =>
    refine ⟨_, ?_, Loading.replay_segments _ _, ?_, by simp, fun _ => rfl⟩
    · rw [loadEither, loadFromMaps, hm]
      exact load_ok h.store.segments h.store.fit
    · exact located_replay _ _ (fun _ hp => hp) (by simp)
  | some m =>
    obtain ⟨base, locs, hmaps⟩ := h.maps m hm
    obtain ⟨l, hl, hseg, hloc, -⟩ := loadFromMaps_ok h.store hm hmaps
    refine ⟨l, ?_, hseg, ?_, fun _ => hloc, by simp⟩
    · rw [loadEither, hl]
      rfl
    · rw [hloc]
      exact h.store.located

theorem reopened (h : r.Valid logs) :
    ∃ s' logs', openWithMaps r.store.dir = .ok s' ∧ Valid ⟨s', .idle⟩ logs' ∧
      (logs' = logs ∨ ∃ id, (∀ id' ∈ logs.keys, id' < id) ∧
        logs' = logs.insert id ⟨false, []⟩) ∧
      (r.store.dir.maps ≠ none → s'.locations = r.store.locations) ∧
      (r.store.dir.maps = none → s'.locations =
        (Loading.replay ⟨r.store.dir.segments, .empty, 0⟩ (allPlaced logs)).locations) ∧
      s'.dir.maps = r.store.dir.maps ∧
      (∀ m base locs, r.store.dir.maps = some m → MapsOk m r.store logs base locs →
        MapsOk m s' logs' base locs) ∧
      ∃ l, loadEither r.store.dir = .ok l ∧ s'.highestId = l.highestId := by
  obtain ⟨l, hl, hseg, hlocated, hsaved, hscan⟩ := h.loaded
  have hkeys : r.store.dir.segments.keys = logs.keys := by
    rw [h.store.segments, keys_map]
  have hsegs : ¬r.store.dir.segments.entries = [] := by
    intro hnil
    apply h.keys_ne_nil
    rw [← hkeys, SortedMap.keys, hnil]
    rfl
  have hnext : ∀ id ∈ logs.keys, id < nextId r.store.dir.segments := by
    intro id hid
    exact lt_nextId (hkeys ▸ hid)
  have hopen : ∀ current next segments,
      appendTo l.segments (nextId r.store.dir.segments) = .ok (current, next, segments) →
      openWithMaps r.store.dir =
        .ok ⟨⟨segments, r.store.dir.maps⟩, .empty, l.locations, current, next, l.highestId⟩ := by
    intro current next segments happ
    rw [openWithMaps, ensureSegment, if_neg hsegs]
    simp only [hl]
    show Except.bind (appendTo _ _) _ = _
    rw [happ]
    rfl
  have hmaps : ∀ {s' logs'}, s'.dir.maps = r.store.dir.maps →
      (∀ m base locs, r.store.dir.maps = some m → MapsOk m r.store logs base locs →
        MapsOk m s' logs' base locs) →
      ∀ m, s'.dir.maps = some m → ∃ base locs, MapsOk m s' logs' base locs := by
    intro s' logs' hsame hkeep m hm
    rw [hsame] at hm
    obtain ⟨base, locs, hok⟩ := h.maps m hm
    exact ⟨base, locs, hkeep m base locs hm hok⟩
  rcases appendTo_ok h.keys_ne_nil (hseg.trans h.store.segments) _ with
    ⟨id, lg, hlg, hcomp, hmax, happ⟩ | happ
  · have hkeep : ∀ m base locs, r.store.dir.maps = some m → MapsOk m r.store logs base locs →
        MapsOk m ⟨⟨l.segments, r.store.dir.maps⟩, .empty, l.locations, id,
          nextId r.store.dir.segments, l.highestId⟩ logs base locs := by
      intro m base locs hm hok
      have hloc := hsaved (by simp [hm])
      refine ⟨hok.ends, hok.entries, hok.grows, fun id' l' hl' hid' => ?_, fun id' hid' hlt => ?_,
        fun segments highest => (hok.replays segments highest).trans hloc.symm⟩
      · obtain ⟨hcomp', -, hgt, -⟩ := hok.newer id' l' hl' hid'
        have hle := hmax id' (mem_keys.2 ⟨l', hl'⟩)
        refine ⟨hcomp', hle, hgt, fun hmem => ?_⟩
        exact absurd (hgt id hmem) (not_lt.2 hle)
      · have hlt' : id < id' := hlt
        have := hmax id' (hok.grows.mem_keys hid')
        omega
    refine ⟨_, logs, hopen _ _ _ happ, ⟨⟨⟨?_, h.store.fit, hlocated, by simp, ⟨lg, hlg, hcomp⟩,
      fun id' l' hl' => ?_, fun id' l' hl' hlt => ?_⟩, trivial⟩, hmaps rfl hkeep⟩, .inl rfl, hsaved,
      fun hm => by rw [hscan hm], rfl, hkeep, l, hl, rfl⟩
    · exact hseg.trans h.store.segments
    · exact hnext id' (mem_keys.2 ⟨l', hl'⟩)
    · have hlt' : id < id' := hlt
      have := hmax id' (mem_keys.2 ⟨l', hl'⟩)
      omega
  · have hnone : logs.get? (nextId r.store.dir.segments) = none := by
      by_contra hne
      obtain ⟨l', hl'⟩ := Option.ne_none_iff_exists'.1 hne
      exact lt_irrefl _ (hnext _ (mem_keys.2 ⟨l', hl'⟩))
    have hgrows := Logs.insert_grows hnone ⟨false, []⟩
    have hkeep : ∀ m base locs, r.store.dir.maps = some m → MapsOk m r.store logs base locs →
        MapsOk m ⟨⟨(logs.insert (nextId r.store.dir.segments) ⟨false, []⟩).map bytes,
          r.store.dir.maps⟩, .empty, l.locations, nextId r.store.dir.segments,
          nextId r.store.dir.segments + 1, l.highestId⟩
          (logs.insert (nextId r.store.dir.segments) ⟨false, []⟩) base locs :=
      fun m base locs hm hok => hok.insert_empty hnext rfl (hsaved (by simp [hm]))
    refine ⟨_, _, hopen _ _ _ happ, ⟨⟨⟨rfl, h.store.fit.insert (by simp), fun x loc hx => ?_, by simp,
      ⟨_, by rw [get?_insert, if_pos rfl], rfl⟩, fun id' l' hl' => ?_,
      fun id' l' hl' hlt => ?_⟩, trivial⟩, hmaps rfl hkeep⟩, .inr ⟨_, hnext, rfl⟩, hsaved,
      fun hm => by rw [hscan hm], rfl, hkeep, l, hl, rfl⟩
    · obtain ⟨doc, hdoc, hat⟩ := hlocated x loc hx
      exact ⟨doc, hdoc, hat.grows hgrows⟩
    · rw [get?_insert] at hl'
      split_ifs at hl' with hid
      · exact hid ▸ Nat.lt_succ_self _
      · exact (hnext id' (mem_keys.2 ⟨l', hl'⟩)).trans (Nat.lt_succ_self _)
    · have hlt' : nextId r.store.dir.segments < id' := hlt
      rw [get?_insert, if_neg (ne_of_gt hlt')] at hl'
      have := hnext id' (mem_keys.2 ⟨l', hl'⟩)
      omega

theorem foldl_putOne (h : r.Valid logs) {docs : List StoredDocument} (hdocs : ∀ doc ∈ docs, doc.Fits) :
    ∃ logs', Valid { r with store := docs.foldl BinaryDocumentStore.putOne r.store } logs' := by
  induction docs generalizing r logs with
  | nil => exact ⟨logs, h⟩
  | cons doc docs ih =>
    obtain ⟨l, hl, -⟩ := h.store.current
    exact ih (h.putOne hl (hdocs doc mem_cons_self))
      fun d hd => hdocs d (mem_cons_of_mem doc hd)

theorem maybeRotateSegment (h : r.Valid logs) :
    ∃ s' logs', r.store.maybeRotateSegment = .ok s' ∧ Valid { r with store := s' } logs' := by
  obtain ⟨l, hl, hget⟩ := h.current_bytes
  rw [maybeRotateSegment_ok hget]
  split_ifs
  · exact ⟨_, logs, rfl, h⟩
  · exact ⟨_, _, rfl, h.rotated⟩

/-- The steps that leave the files, the places and the append segment. -/
def Quiet (r : StoreRun) : StoreStep → Prop
  | .delete x => r.store.locations.get? x = none
  | .get _ | .evict _ | .planCompaction _ _ _ | .runCompaction | .abandonCompaction => True
  | .installCompaction => ¬∃ c, r.compacting = .completed c
  | _ => False

theorem quiet (h : r.Valid logs) {st : StoreStep} (hst : Quiet r st) :
    ∃ r', r.step st = .ok r' ∧ r'.Valid logs ∧ r'.store.dir = r.store.dir ∧
      r'.store.locations = r.store.locations ∧
      r'.store.currentSegment = r.store.currentSegment := by
  cases st with
  | delete x =>
    refine ⟨r, ?_, h, rfl, rfl, rfl⟩
    rw [StoreRun.step, delete, show r.store.locations.get? x = none from hst]
    rfl
  | get x =>
    cases hx : r.store.locations.get? x with
    | none =>
      refine ⟨r, ?_, h, rfl, rfl, rfl⟩
      rw [StoreRun.step, h.store.get_none hx]
      rfl
    | some loc =>
      obtain ⟨doc, hdoc, hat⟩ := h.store.located x loc hx
      obtain ⟨s', hs', hok, hloc, hdir, hcur, hnext, -⟩ := h.store.get_some hx hat hdoc
      refine ⟨_, ?_, h.recached hok hdir hloc hcur hnext, hdir, hloc, hcur⟩
      rw [StoreRun.step, hs']
      rfl
  | evict x =>
    exact ⟨_, rfl, h.recached (h.store.evict x) rfl rfl rfl rfl, rfl, rfl, rfl⟩
  | planCompaction deadEnough tie targetSize =>
    rw [StoreRun.step]
    split
    · next job store _ hplan =>
      obtain ⟨-, -, rfl⟩ := h.store.planCompaction hplan
      exact ⟨_, rfl, h.planned hplan, rfl, rfl, rfl⟩
    · exact ⟨r, rfl, h, rfl, rfl, rfl⟩
  | runCompaction =>
    rw [StoreRun.step]
    split
    · next job hjob =>
      have hok : job.Ok r.store logs := by
        have := h.compacting
        rwa [hjob] at this
      obtain ⟨c, docs, hrun, hc⟩ := h.store.runSegmentCompaction hok
      rw [hrun]
      exact ⟨_, rfl, h.completed hc, rfl, rfl, rfl⟩
    · exact ⟨r, rfl, h, rfl, rfl, rfl⟩
  | abandonCompaction => exact ⟨_, rfl, h.idle, rfl, rfl, rfl⟩
  | installCompaction =>
    rw [StoreRun.step]
    split
    · next c hc => exact absurd ⟨c, hc⟩ hst
    · exact ⟨r, rfl, h, rfl, rfl, rfl⟩
  | _ => exact hst.elim

theorem completed_ok (h : r.Valid logs) {c : CompletedSegmentCompaction}
    (hc : r.compacting = .completed c) : ∃ docs, c.Ok r.store logs docs := by
  have := h.compacting
  rwa [hc] at this

theorem step (h : r.Valid logs) (st : StoreStep) :
    ∃ r' logs', r.step st = .ok r' ∧ r'.Valid logs' := by
  by_cases hquiet : Quiet r st
  · obtain ⟨r', hstep, hvalid, -⟩ := h.quiet hquiet
    exact ⟨r', logs, hstep, hvalid⟩
  obtain ⟨l, hl, hget⟩ := h.current_bytes
  cases st with
  | put doc =>
    have hput := (h.putOne hl doc.2).raise doc.1.internalId
    rw [StoreRun.step, put_eq hget]
    split_ifs
    · exact ⟨_, _, rfl, hput⟩
    · exact ⟨_, _, rfl, hput.rotated⟩
  | putBatch docs =>
    have hfits := StoreRun.Valid.fits_of_batch docs
    obtain ⟨logs', hbatch⟩ := h.foldl_putOne hfits
    obtain ⟨s', logs'', hrotate, hvalid⟩ := hbatch.maybeRotateSegment
    refine ⟨_, logs'', ?_, hvalid⟩
    show r.withStore (BinaryDocumentStore.maybeRotateSegment
      ((docs.map Subtype.val).foldl BinaryDocumentStore.putOne r.store)) = _
    rw [hrotate]
    rfl
  | delete x =>
    obtain ⟨loc, hx⟩ := Option.ne_none_iff_exists'.1 hquiet
    have hdelete := h.removeOne hl hx
    rw [StoreRun.step, delete_eq hget hx]
    split_ifs
    · exact ⟨_, _, rfl, hdelete⟩
    · exact ⟨_, _, rfl, hdelete.rotated⟩
  | saveMaps => exact ⟨_, logs, rfl, h.saveMaps _⟩
  | installCompaction =>
    obtain ⟨c, hc⟩ := not_not.1 hquiet
    obtain ⟨docs, hok⟩ := h.completed_ok hc
    rw [StoreRun.step, hc]
    exact ⟨_, _, rfl, h.installed hok⟩
  | reopen =>
    obtain ⟨s', logs', hopen, hvalid, -⟩ := h.reopened
    refine ⟨_, logs', ?_, hvalid⟩
    rw [StoreRun.step, hopen]
    rfl
  | _ => exact absurd trivial hquiet

theorem run (h : r.Valid logs) (steps : List StoreStep) :
    ∃ r' logs', r.run steps = .ok r' ∧ r'.Valid logs' := by
  induction steps generalizing r logs with
  | nil => exact ⟨r, logs, rfl, h⟩
  | cons st steps ih =>
    obtain ⟨r', logs', hstep, hvalid⟩ := h.step st
    obtain ⟨r'', logs'', hrun, hvalid'⟩ := ih hvalid
    refine ⟨r'', logs'', ?_, hvalid'⟩
    rw [StoreRun.run, foldlM_cons, hstep]
    exact hrun

end StoreRun.Valid

def newLogs : Logs := SortedMap.empty.insert 0 ⟨false, []⟩

theorem newLogs_get? {id : ℕ} {l : SegmentLog} (h : newLogs.get? id = some l) :
    id = 0 ∧ l = ⟨false, []⟩ := by
  rw [newLogs, get?_insert] at h
  split_ifs at h with hid
  · cases h
    exact ⟨hid, rfl⟩
  · cases h

theorem valid_new : StoreRun.new.Valid newLogs := by
  refine ⟨⟨⟨?_, fun id l hl r hr => ?_, by simp [StoreRun.new], by simp [StoreRun.new],
    ⟨⟨false, []⟩, rfl, rfl⟩, fun id l hl => ?_, fun id l hl hlt => ?_⟩, trivial⟩,
    by simp [StoreRun.new]⟩
  · rfl
  · obtain ⟨-, rfl⟩ := newLogs_get? hl
    cases hr
  · obtain ⟨rfl, -⟩ := newLogs_get? hl
    exact Nat.zero_lt_one
  · obtain ⟨rfl, -⟩ := newLogs_get? hl
    exact absurd hlt (lt_irrefl _)

theorem ok_run (steps : List StoreStep) :
    ∃ r logs, StoreRun.new.run steps = .ok r ∧ r.Valid logs := valid_new.run steps

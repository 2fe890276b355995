/-
Opening the document store of a running shard, as a reindex does.

A reindex opens the directory the live writer appends to, with the same `open`
that recovers a store after a crash: it cuts a torn record at the end of an
append segment, and starts a new segment when the newest file is an output of a
compaction.
-/
import Riets.StoreLoad

open StoreDir BinaryDocumentStore List SegmentLog

abbrev FittingRecord := { r : StoreRecord // r.Fits }

namespace StoreDir

/-- The loop of `load`, with the files it leaves behind also when it fails. -/
def loadSegments : List ℕ → Loading → SortedMap ℕ ByteSeq × IoResult Loading
  | [], l => (l.segments, .ok l)
  | id :: ids, l =>
    match scanSegment l id none with
    | .error e => (l.segments, .error e)
    | .ok l' => loadSegments ids l'

/-- `open`, with the files it leaves behind. -/
def openStore (dir : StoreDir) : StoreDir × IoResult BinaryDocumentStore :=
  let dir := ensureSegment dir
  match loadSegments dir.listSegmentIds ⟨dir.segments, .empty, 0⟩ with
  | (segments, .error e) => ({ dir with segments }, .error e)
  | (segments, .ok l) =>
    match appendTo segments (nextId dir.segments) with
    | .error e => ({ dir with segments }, .error e)
    | .ok (current, next, segments) =>
      ({ dir with segments },
        .ok ⟨{ dir with segments }, .empty, l.locations, current, next, l.highestId⟩)

end StoreDir

/-- How far the live writer has got: some bytes of the records it appends, or all
of them and some bytes of the header of the next segment. -/
inductive LivePoint where
  | append (records : List FittingRecord) (written : ℕ)
  | rotate (records : List FittingRecord) (written : ℕ)

namespace BinaryDocumentStore

def liveDir (s : BinaryDocumentStore) : LivePoint → StoreDir
  | .append records written =>
    (s.appendBytes ((encodeAll (records.map Subtype.val)).take written)).dir
  | .rotate records written =>
    let s := s.appendBytes (encodeAll (records.map Subtype.val))
    (s.setSegments (s.dir.segments.insert s.nextSegmentId (magic.take written))).dir

def Between (records : List FittingRecord) (written : ℕ) : Prop :=
  ∃ k, (encodeAll (records.map Subtype.val)).take written = encodeAll ((records.take k).map Subtype.val)

def Newest (s : BinaryDocumentStore) : Prop :=
  ∀ id ∈ s.dir.listSegmentIds, id ≤ s.currentSegment

/-- The writer is not inside a record, and the segment it writes to is the newest one. -/
def Quiet (s : BinaryDocumentStore) : LivePoint → Prop
  | .append records written => Between records written ∧ s.Newest
  -- the segment a rotation makes is the newest, and one without a header is not opened
  | .rotate _ _ => True

end BinaryDocumentStore

theorem take_encodeAll (rs : List StoreRecord) (n : ℕ) :
    (∃ k, (encodeAll rs).take n = encodeAll (rs.take k)) ∨
      ∃ before r after piece, rs = before ++ r :: after ∧
        (encodeAll rs).take n = encodeAll before ++ piece ∧
        piece <+: r.encode ∧ piece ≠ r.encode ∧ piece ≠ [] := by
  induction rs generalizing n with
  | nil => exact .inl ⟨0, by simp⟩
  | cons r rs ih =>
    rcases Nat.lt_or_ge n r.encode.length with hlt | hge
    · rcases Nat.eq_zero_or_pos n with rfl | hpos
      · exact .inl ⟨0, by simp⟩
      · right
        refine ⟨[], r, rs, r.encode.take n, rfl, ?_, take_prefix _ _, ?_, ?_⟩
        · rw [encodeAll_cons, take_append_of_le_length hlt.le]
          rfl
        · intro heq
          have hlen := congrArg length heq
          rw [length_take] at hlen
          omega
        · intro hnil
          have hlen := congrArg length hnil
          rw [length_take, length_nil] at hlen
          omega
    · obtain ⟨m, rfl⟩ : ∃ m, n = r.encode.length + m := ⟨n - r.encode.length, by omega⟩
      have htake : (encodeAll (r :: rs)).take (r.encode.length + m) =
          r.encode ++ (encodeAll rs).take m := by
        rw [encodeAll_cons, take_length_add_append]
      rw [htake]
      rcases ih m with ⟨k, hk⟩ | ⟨before, r', after, piece, rfl, hsplit, hpiece⟩
      · refine .inl ⟨k + 1, ?_⟩
        rw [hk, take_succ_cons, encodeAll_cons]
      · refine .inr ⟨r :: before, r', after, piece, rfl, ?_, hpiece⟩
        rw [hsplit, encodeAll_cons, append_assoc]

theorem not_between_of_torn {before after : List StoreRecord} {r : StoreRecord} {piece : ByteSeq}
    (hpiece : piece <+: r.encode) (hne : piece ≠ r.encode) (hnil : piece ≠ []) (k : ℕ) :
    encodeAll before ++ piece ≠ encodeAll ((before ++ r :: after).take k) := by
  intro heq
  have hpos := length_pos_iff.2 hnil
  have hshort : piece.length < r.encode.length := by
    have hle := hpiece.length_le
    have hlen : piece.length ≠ r.encode.length := fun h => hne (hpiece.eq_of_length h)
    omega
  have hlen := congrArg length heq
  rw [length_append] at hlen
  rcases Nat.lt_or_ge before.length k with hlt | hge
  · -- the records taken include the one that is cut
    obtain ⟨m, rfl⟩ : ∃ m, k = before.length + (m + 1) := ⟨k - before.length - 1, by omega⟩
    rw [take_length_add_append, take_succ_cons, encodeAll_append, encodeAll_cons,
      length_append, length_append] at hlen
    omega
  · rw [take_append_of_le_length hge] at hlen
    have hsplit := congrArg (fun rs => (encodeAll rs).length) (take_append_drop k before)
    simp only [encodeAll_append, length_append] at hsplit
    omega

/-! ### Reading the segments -/

namespace StoreDir

open List

theorem loadSegments_snd (ids : List ℕ) (l : Loading) :
    (loadSegments ids l).2 = ids.foldlM (fun l id => scanSegment l id none) l := by
  induction ids generalizing l with
  | nil => rfl
  | cons id ids ih =>
    rw [loadSegments, foldlM_cons]
    cases hscan : scanSegment l id none with
    | error e => rfl
    | ok l' => exact ih l'

theorem loadSegments_append {g : ℕ → List SegmentRecord} (ids rest : List ℕ) (l : Loading)
    (hscan : ∀ id ∈ ids, ∀ l', l'.segments = l.segments →
      scanSegment l' id none = .ok (l'.replay (g id))) :
    loadSegments (ids ++ rest) l = loadSegments rest (l.replay (ids.flatMap g)) := by
  induction ids generalizing l with
  | nil => rfl
  | cons id ids ih =>
    rw [cons_append, loadSegments, hscan id mem_cons_self l rfl]
    simp only
    rw [ih, flatMap_cons, Loading.replay_append]
    intro id' hid' l' hl'
    rw [Loading.replay_segments] at hl'
    exact hscan id' (mem_cons_of_mem id hid') l' hl'

def NoLonger (segments segments' : SortedMap ℕ ByteSeq) : Prop :=
  ∀ (id : ℕ) bytes', segments'.get? id = some bytes' →
    ∃ bytes, segments.get? id = some bytes ∧ bytes'.length ≤ bytes.length

theorem NoLonger.refl (segments : SortedMap ℕ ByteSeq) : NoLonger segments segments :=
  fun _ bytes' h => ⟨bytes', h, le_rfl⟩

theorem NoLonger.trans {a b c : SortedMap ℕ ByteSeq} (h : NoLonger a b) (h' : NoLonger b c) :
    NoLonger a c := by
  intro id bytes'' hc
  obtain ⟨bytes', hb, hle'⟩ := h' id bytes'' hc
  obtain ⟨bytes, ha, hle⟩ := h id bytes' hb
  exact ⟨bytes, ha, le_trans hle' hle⟩

theorem NoLonger.cut {segments : SortedMap ℕ ByteSeq} {id : ℕ} {bytes : ByteSeq}
    (h : segments.get? id = some bytes) (n : ℕ) :
    NoLonger segments (segments.insert id (bytes.take n)) := by
  intro id' bytes' h'
  rw [SortedMap.get?_insert] at h'
  by_cases hid : id' = id
  · rw [if_pos hid] at h'
    cases h'
    refine ⟨bytes, ?_, ?_⟩
    · rw [hid]
      exact h
    · rw [length_take]
      omega
  · rw [if_neg hid] at h'
    exact ⟨bytes', h', le_rfl⟩

theorem foldl_apply_segments (id : ℕ) (ps : List PlacedRecord) (l : Loading) :
    (ps.foldl (Loading.apply id) l).segments = l.segments := by
  induction ps generalizing l with
  | nil => rfl
  | cons p ps ih => exact (ih _).trans (Loading.apply_segments l id p)

theorem scanSegment_noLonger {l l' : Loading} {id : ℕ} (h : scanSegment l id none = .ok l') :
    NoLonger l.segments l'.segments := by
  unfold scanSegment at h
  cases hget : l.segments.get? id with
  | none =>
    rw [hget] at h
    cases h
  | some bytes =>
    rw [hget] at h
    by_cases hlen : bytes.length < 8
    · simp only [if_pos hlen] at h
      cases h
    simp only [if_neg hlen] at h
    cases hstart : scanStart bytes none with
    | error e =>
      rw [hstart] at h
      cases h
    | ok start =>
      rw [hstart] at h
      simp only [bind, Except.bind] at h
      cases hend : (scan start (bytes.drop start)).2 with
      | clean =>
        rw [hend] at h
        cases h
        rw [foldl_apply_segments]
        exact NoLonger.refl _
      | torn cut =>
        rw [hend] at h
        simp only at h
        split_ifs at h
        cases h
        show NoLonger _ (SortedMap.insert _ _ _)
        rw [foldl_apply_segments]
        exact NoLonger.cut hget cut
      | invalid =>
        rw [hend] at h
        cases h

theorem loadSegments_noLonger (ids : List ℕ) (l : Loading) :
    NoLonger l.segments (loadSegments ids l).1 := by
  induction ids generalizing l with
  | nil => exact NoLonger.refl _
  | cons id ids ih =>
    rw [loadSegments]
    cases hscan : scanSegment l id none with
    | error e => exact NoLonger.refl _
    | ok l' => exact (scanSegment_noLonger hscan).trans (ih l')

end StoreDir

section Logs

variable {logs : Logs} {dir : StoreDir} {cur : ℕ} {lg : SegmentLog}

theorem loadSegments_logs {ids : List ℕ} (rest : List ℕ) {l : Loading} (hfit : logs.Fit)
    (hids : ∀ id ∈ ids, ∃ lg, logs.get? id = some lg ∧ l.segments.get? id = some lg.bytes) :
    loadSegments (ids ++ rest) l =
      loadSegments rest (l.replay (ids.flatMap fun id => placedIn id 8 (recordsOf logs id))) := by
  refine loadSegments_append ids rest l fun id hid l' hl' => ?_
  obtain ⟨lg, hlg, hget⟩ := hids id hid
  rw [← hl'] at hget
  rw [recordsOf_eq hlg]
  exact scanSegment_whole hget (hfit id lg hlg)

theorem ensureSegment_eq (h : dir.segments.keys ≠ []) : ensureSegment dir = dir := by
  rw [ensureSegment, if_neg]
  intro hnil
  refine h ?_
  rw [SortedMap.keys, hnil]
  rfl

theorem insert_nextId_ne (segments : SortedMap ℕ ByteSeq) (bytes : ByteSeq) :
    segments.insert (nextId segments) bytes ≠ segments := by
  intro heq
  have hget : segments.get? (nextId segments) = some bytes := by
    rw [← heq, SortedMap.get?_insert, if_pos (by rw [heq])]
  exact absurd (lt_nextId (SortedMap.mem_keys.2 ⟨bytes, hget⟩)) (lt_irrefl _)

theorem appendTo_get? {segments : SortedMap ℕ ByteSeq} {next id : ℕ} (hid : id ≠ next)
    {res : ℕ × ℕ × SortedMap ℕ ByteSeq} (h : appendTo segments next = .ok res) :
    res.2.2.get? id = segments.get? id := by
  have hnew : (segments.insert next magic).get? id = segments.get? id := by
    rw [SortedMap.get?_insert, if_neg hid]
  unfold appendTo at h
  split at h
  · cases h
    exact hnew
  · split_ifs at h
    · cases h
      rfl
    · cases h
      exact hnew

theorem openStore_get? {id : ℕ} (hid : id ∈ dir.listSegmentIds) :
    (openStore dir).1.segments.get? id =
      (loadSegments dir.listSegmentIds ⟨dir.segments, .empty, 0⟩).1.get? id := by
  have hne : dir.segments.keys ≠ [] := ne_nil_of_mem hid
  have hlt : id < nextId dir.segments := lt_nextId hid
  rw [openStore, ensureSegment_eq hne]
  obtain ⟨segments, loaded⟩ := loadSegments dir.listSegmentIds ⟨dir.segments, .empty, 0⟩
  cases loaded with
  | error e => rfl
  | ok l =>
    simp only
    cases happend : appendTo segments (nextId dir.segments) with
    | error e => rfl
    | ok res => exact appendTo_get? (by omega) happend

theorem openStore_whole (hdir : dir.segments = logs.map bytes) (hfit : logs.Fit)
    (hcur : logs.get? cur = some lg) (hmagic : lg.compacted = false)
    (habove : ∀ id l, logs.get? id = some l → cur < id → l.compacted = true) :
    (openStore dir).1 = dir ↔ ∀ id ∈ dir.listSegmentIds, id ≤ cur := by
  have hcurdir : dir.segments.get? cur = some lg.bytes := by
    rw [hdir, SortedMap.get?_map, hcur]
    rfl
  have hne : dir.segments.keys ≠ [] := ne_nil_of_mem (SortedMap.mem_keys.2 ⟨_, hcurdir⟩)
  have hload := @loadSegments_logs _ dir.listSegmentIds []
    (l := ⟨dir.segments, .empty, 0⟩) hfit (by
      intro id hid
      rw [listSegmentIds_eq hdir] at hid
      obtain ⟨lg, hlg⟩ := SortedMap.mem_keys.1 hid
      refine ⟨lg, hlg, ?_⟩
      show dir.segments.get? id = _
      rw [hdir, SortedMap.get?_map, hlg]
      rfl)
  rw [append_nil, loadSegments] at hload
  rw [openStore, ensureSegment_eq hne]
  simp only [hload, Loading.replay_segments]
  constructor
  · intro hopen id hid
    rcases appendTo_ok (by rw [← listSegmentIds_eq hdir]; exact hne) hdir
      (nextId dir.segments) with ⟨last, l, hl, hlast, hmax, happend⟩ | happend
    · -- the newest segment is an append segment, and the writer has only one
      rw [listSegmentIds_eq hdir] at hid
      have hle : last ≤ cur := by
        by_contra hlt
        rw [habove last l hl (by omega)] at hlast
        cases hlast
      have := hmax id hid
      omega
    · rw [happend] at hopen
      have hseg := congrArg segments hopen
      simp only at hseg
      rw [Logs.map_insert, ← hdir] at hseg
      exact absurd hseg (insert_nextId_ne _ _)
  · intro hnewest
    have hlen : ¬lg.bytes.length < 8 := by
      rw [length_bytes]
      omega
    rw [appendTo, SortedMap.getLast?_entries hcurdir hnewest]
    simp only
    rw [if_neg hlen, take_bytes, if_pos (header_eq_magic.2 hmagic)]

theorem scanSegment_torn {l : Loading} {r : StoreRecord} {piece : ByteSeq}
    (hget : l.segments.get? cur = some (lg.bytes ++ piece)) (hmagic : lg.compacted = false)
    (hfit : ∀ r ∈ lg.records, r.Fits) (hr : r.Fits) (hpiece : piece <+: r.encode)
    (hne : piece ≠ r.encode) (hnil : piece ≠ []) :
    ∃ l', scanSegment l cur none = .ok l' ∧ l'.segments.get? cur = some lg.bytes := by
  have hlen : ¬(lg.bytes ++ piece).length < 8 := by
    rw [length_append, length_bytes]
    omega
  have htake : (lg.bytes ++ piece).take 8 = magic := by
    rw [take_append_of_le_length (by rw [length_bytes]; omega), take_bytes,
      header_eq_magic.2 hmagic]
  have hstart : scanStart (lg.bytes ++ piece) none = .ok 8 := by
    rw [scanStart, htake, if_pos (Or.inl rfl)]
  have hdrop : (lg.bytes ++ piece).drop 8 = encodeAll lg.records ++ piece := by
    rw [bytes, append_assoc]
    exact drop_left' lg.length_header
  have hcut : (lg.bytes ++ piece).take (8 + (encodeAll lg.records).length) = lg.bytes := by
    rw [← length_bytes]
    exact take_left
  refine ⟨{ (place 8 lg.records).foldl (Loading.apply cur) l with
    segments := l.segments.insert cur lg.bytes }, ?_, ?_⟩
  · rw [scanSegment, hget]
    simp only [if_neg hlen, hstart, hdrop, scan_torn hfit hr hpiece hne hnil, htake, if_true, hcut,
      foldl_apply_segments, bind, Except.bind]
  · show (SortedMap.insert _ _ _).get? cur = _
    rw [SortedMap.get?_insert, if_pos rfl]

theorem openStore_torn {r : StoreRecord} {piece : ByteSeq}
    (hdir : dir.segments = SortedMap.insert (logs.map bytes) cur (lg.bytes ++ piece))
    (hfit : logs.Fit) (hcur : logs.get? cur = some lg) (hmagic : lg.compacted = false)
    (hr : r.Fits) (hpiece : piece <+: r.encode) (hne : piece ≠ r.encode) (hnil : piece ≠ []) :
    (openStore dir).1 ≠ dir := by
  have hcurdir : dir.segments.get? cur = some (lg.bytes ++ piece) := by
    rw [hdir, SortedMap.get?_insert, if_pos rfl]
  have hmem : cur ∈ dir.listSegmentIds := SortedMap.mem_keys.2 ⟨_, hcurdir⟩
  obtain ⟨before, after, hsplit⟩ := append_of_mem hmem
  have hasc : dir.listSegmentIds.Pairwise (· < ·) := dir.segments.keys_ascending
  rw [hsplit] at hasc
  have hbefore : ∀ id ∈ before, ∃ l, logs.get? id = some l ∧ dir.segments.get? id = some l.bytes := by
    intro id hid
    have hlt : id < cur := (pairwise_append.1 hasc).2.2 id hid cur mem_cons_self
    have hin : id ∈ dir.segments.keys := by
      show id ∈ dir.listSegmentIds
      rw [hsplit]
      exact mem_append_left _ hid
    obtain ⟨bytes, hbytes⟩ := SortedMap.mem_keys.1 hin
    rw [hdir, SortedMap.get?_insert, if_neg (by omega), SortedMap.get?_map] at hbytes
    cases hlg : logs.get? id with
    | none =>
      rw [hlg] at hbytes
      cases hbytes
    | some l =>
      refine ⟨l, rfl, ?_⟩
      rw [hdir, SortedMap.get?_insert, if_neg (by omega), SortedMap.get?_map, hlg]
      rfl
  have hload := loadSegments_logs (cur :: after) (l := ⟨dir.segments, .empty, 0⟩) hfit hbefore
  obtain ⟨l', hscan, hget⟩ := scanSegment_torn
    (l := Loading.replay ⟨dir.segments, .empty, 0⟩
      (before.flatMap fun id => placedIn id 8 (recordsOf logs id)))
    (by rw [Loading.replay_segments]; exact hcurdir) hmagic (hfit cur lg hcur) hr hpiece hne hnil
  rw [loadSegments, hscan, ← hsplit] at hload
  simp only at hload
  -- from here on no file gets longer again
  have hshort : ∀ bytes, (loadSegments after l').1.get? cur = some bytes →
      bytes.length ≤ lg.bytes.length := by
    intro bytes hbytes
    obtain ⟨bytes', hbytes', hle⟩ := loadSegments_noLonger after l' cur bytes hbytes
    rw [hget] at hbytes'
    cases hbytes'
    exact hle
  intro heq
  have hend := openStore_get? hmem
  rw [heq, hcurdir, hload] at hend
  have hle := hshort _ hend.symm
  have hpos := length_pos_iff.2 hnil
  rw [length_append] at hle
  omega

end Logs

namespace BinaryDocumentStore

open SortedMap List Logs SegmentLog

variable {s : BinaryDocumentStore} {logs : Logs} {lg : SegmentLog}

theorem segments_appendBytes (h : s.Ok logs) (hcur : logs.get? s.currentSegment = some lg)
    (more : ByteSeq) :
    (s.appendBytes more).dir.segments =
      insert (logs.map bytes) s.currentSegment (lg.bytes ++ more) := by
  refine ext_get? fun id => ?_
  rw [get?_insert, appendBytes, setSegments, get?_upsert, h.segments, get?_map, get?_map, hcur]
  rfl

theorem segments_appendAll (h : s.Ok logs) (hcur : logs.get? s.currentSegment = some lg)
    (rs : List StoreRecord) :
    (s.appendBytes (encodeAll rs)).dir.segments =
      map (logs.insert s.currentSegment (lg.append rs)) bytes := by
  rw [segments_appendBytes h hcur, map_insert, bytes_append]

theorem fit_append (h : s.Ok logs) (hcur : logs.get? s.currentSegment = some lg)
    {rs : List StoreRecord} (hrs : ∀ r ∈ rs, r.Fits) :
    Fit (logs.insert s.currentSegment (lg.append rs)) := by
  refine h.fit.insert fun r hr => ?_
  rcases mem_append.1 hr with hold | hnew
  · exact h.fit _ lg hcur r hold
  · exact hrs r hnew

theorem above_append (h : s.Ok logs) (rs : List StoreRecord) {id : ℕ} {l : SegmentLog}
    (hl : (logs.insert s.currentSegment (lg.append rs)).get? id = some l)
    (hlt : s.currentSegment < id) : l.compacted = true := by
  rw [get?_insert, if_neg (by omega)] at hl
  exact h.above id l hl hlt

theorem listSegmentIds_append (h : s.Ok logs) (hcur : logs.get? s.currentSegment = some lg)
    (more : ByteSeq) : (s.appendBytes more).dir.listSegmentIds = s.dir.listSegmentIds := by
  show SortedMap.keys _ = SortedMap.keys _
  rw [segments_appendBytes h hcur, h.segments]
  refine keys_insert_of_mem _ (mem_keys.2 ⟨lg.bytes, ?_⟩) _
  rw [get?_map, hcur]
  rfl

theorem fits_records (records : List FittingRecord) :
    ∀ r ∈ records.map Subtype.val, r.Fits := by
  intro r hr
  obtain ⟨r', -, rfl⟩ := mem_map.1 hr
  exact r'.2

theorem open_append_iff (h : s.Ok logs) (records : List FittingRecord) (written : ℕ) :
    (openStore (s.liveDir (.append records written))).1 = s.liveDir (.append records written) ↔
      Between records written ∧ s.Newest := by
  obtain ⟨lg, hcur, hmagic⟩ := h.current
  rcases take_encodeAll (records.map Subtype.val) written with
    ⟨k, hk⟩ | ⟨before, r, after, piece, hrs, hsplit, hpiece, hne, hnil⟩
  · have hbetween : Between records written := by
      refine ⟨k, ?_⟩
      rw [hk, map_take]
    have hfits : ∀ r ∈ (records.map Subtype.val).take k, r.Fits :=
      fun r hr => fits_records records r (mem_of_mem_take hr)
    rw [liveDir, hk]
    have hgrown : (logs.insert s.currentSegment (lg.append ((records.map Subtype.val).take k))).get?
        s.currentSegment = some (lg.append ((records.map Subtype.val).take k)) := by
      rw [get?_insert, if_pos rfl]
    rw [openStore_whole (segments_appendAll h hcur _) (fit_append h hcur hfits) hgrown hmagic (fun id l => above_append h _),
      listSegmentIds_append h hcur]
    exact ⟨fun hall => ⟨hbetween, hall⟩, fun hall => hall.2⟩
  · constructor
    · intro hopen
      have hfits : ∀ r' ∈ before ++ r :: after, r'.Fits := by
        rw [← hrs]
        exact fits_records records
      have hfit := fit_append h hcur
        (fun r' hr' => hfits r' (mem_append_left _ hr'))
      refine absurd hopen (@openStore_torn _ _ s.currentSegment (lg.append before) _ _ ?_ hfit ?_
        hmagic (hfits r (by simp)) hpiece hne hnil)
      · rw [liveDir, hsplit, segments_appendBytes h hcur, map_insert, bytes_append, append_assoc]
        refine ext_get? fun id => ?_
        rw [get?_insert, get?_insert, get?_insert]
        split_ifs <;> rfl
      · rw [get?_insert, if_pos rfl]
    · rintro ⟨⟨k, hk⟩, -⟩
      rw [hsplit, map_take, hrs] at hk
      exact absurd hk (not_between_of_torn hpiece hne hnil k)

theorem openStore_headerless {dir : StoreDir} {next written : ℕ}
    (hdir : dir.segments = insert (logs.map bytes) next (magic.take written))
    (hfit : logs.Fit) (hnext : ∀ id ∈ logs.keys, id < next) (hshort : written < 8) :
    (openStore dir).1 = dir := by
  have hkeys : dir.listSegmentIds = logs.keys ++ [next] := by
    show dir.segments.keys = _
    rw [hdir, keys_insert_of_gt, keys_map]
    rw [keys_map]
    exact hnext
  have hne : dir.segments.keys ≠ [] := by
    show dir.listSegmentIds ≠ []
    rw [hkeys]
    simp
  have hnew : dir.segments.get? next = some (magic.take written) := by
    rw [hdir, get?_insert, if_pos rfl]
  have hload := loadSegments_logs [next]
    (l := ⟨dir.segments, .empty, 0⟩) hfit (by
      intro id hid
      obtain ⟨lg, hlg⟩ := SortedMap.mem_keys.1 hid
      refine ⟨lg, hlg, ?_⟩
      have hlt := hnext id hid
      show dir.segments.get? id = _
      rw [hdir, get?_insert, if_neg (by omega), get?_map, hlg]
      rfl)
  have hlen : (magic.take written).length < 8 := by
    rw [length_take]
    omega
  rw [loadSegments, scanSegment, Loading.replay_segments, hnew] at hload
  simp only [if_pos hlen] at hload
  rw [openStore, ensureSegment_eq hne]
  simp only [hkeys, hload]

theorem open_rotate (h : s.Ok logs) (records : List FittingRecord) (written : ℕ) :
    (openStore (s.liveDir (.rotate records written))).1 = s.liveDir (.rotate records written) := by
  obtain ⟨lg, hcur, hmagic⟩ := h.current
  have hfit := fit_append h hcur (fits_records records)
  have hbelow : ∀ id ∈ keys (logs.insert s.currentSegment
      (lg.append (records.map Subtype.val))), id < s.nextSegmentId := by
    intro id hid
    rw [keys_insert_of_mem logs (mem_keys.2 ⟨lg, hcur⟩)] at hid
    obtain ⟨l, hl⟩ := mem_keys.1 hid
    exact h.below id l hl
  have hdir : (s.liveDir (.rotate records written)).segments =
      insert (map (logs.insert s.currentSegment
        (lg.append (records.map Subtype.val))) bytes) s.nextSegmentId
        (magic.take written) := by
    rw [← segments_appendAll h hcur]
    rfl
  rcases Nat.lt_or_ge written 8 with hshort | hfull
  · exact openStore_headerless hdir hfit hbelow hshort
  · -- the new segment is an empty append segment above all others
    have hheader : magic.take written = (⟨false, []⟩ : SegmentLog).bytes :=
      take_of_length_le hfull
    rw [hheader, ← map_insert] at hdir
    have hfit' := @Fit.insert _ hfit s.nextSegmentId ⟨false, []⟩ (by simp)
    refine (openStore_whole hdir hfit' (by rw [get?_insert, if_pos rfl]) rfl ?_).2 ?_
    · intro id l hl hlt
      rw [get?_insert, if_neg (by omega)] at hl
      have := hbelow id (mem_keys.2 ⟨l, hl⟩)
      omega
    · intro id hid
      rw [listSegmentIds_eq hdir, keys_insert_of_gt _ hbelow] at hid
      rcases mem_append.1 hid with hold | hnew
      · have := hbelow id hold
        omega
      · rw [mem_singleton.1 hnew]

/-- After every run of a store, opening it at a point of the next append leaves its files alone
just when the point is quiet. -/
theorem open_live_iff (steps : List StoreStep) (u : LivePoint) :
    ∃ r, StoreRun.new.run steps = .ok r ∧
      ((openStore (r.store.liveDir u)).1 = r.store.liveDir u ↔ r.store.Quiet u) := by
  obtain ⟨r, logs, hrun, hvalid⟩ := ok_run steps
  refine ⟨r, hrun, ?_⟩
  cases u with
  | append records written => exact open_append_iff hvalid.store records written
  | rotate records written =>
    constructor
    · intro _
      trivial
    · intro _
      exact open_rotate hvalid.store records written

/-- The record that deletes the document `a` with the id 1. -/
def deleteOfA : FittingRecord := ⟨.delete "a" 1, by decide, by decide⟩

/-- One byte of the record is written to a new store, and the open cuts it off. -/
theorem open_live_cut :
    (StoreRun.new.store.liveDir (.append [deleteOfA] 1)).segments.get? 0 = some (magic ++ [2]) ∧
      (openStore (StoreRun.new.store.liveDir (.append [deleteOfA] 1))).1.segments.get? 0 = some magic := by
  constructor
  · decide
  · decide

end BinaryDocumentStore

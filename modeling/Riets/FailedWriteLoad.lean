/-
Opening a store whose segments contain the remains of failed writes.

A scan may take remains for records, and the records behind them for something else.
Whatever it finds, it puts only places into the maps that can be read.
-/
import Riets.FailedWrite

open StoreDir BinaryDocumentStore List SortedMap

/-! ### Loading segments with remains in them -/

theorem readsAt_of_scan {bytes : ByteSeq} {start : ℕ} {p : PlacedRecord} {doc : StoredDocument}
    (hp : p ∈ (scan start (bytes.drop start)).1) (hrec : p.record = .put doc) :
    ∃ stop, ReadsAt (bytes.take stop) (p.start + 1) doc ∧
      ∀ cut, (scan start (bytes.drop start)).2 = .torn cut → stop ≤ cut := by
  obtain ⟨pre, used, rest, hsplit, hstart, hread, hcut⟩ := mem_scanRecords hp
  rw [hrec] at hread
  cases used with
  | nil =>
    have := hread []
    cases this
  | cons b body =>
    have hbody : readDocument (body ++ []) = .ok (doc, []) := by
      have hop : readOp b (body ++ []) = .ok (.put doc, []) := hread []
      rw [readOp] at hop
      split_ifs at hop with h1 h2
      · obtain ⟨⟨doc', rest'⟩, hdoc, heq⟩ := Except.of_bind_ok hop
        cases heq
        exact hdoc
      · obtain ⟨⟨x, rest'⟩, -, hdelete⟩ := Except.of_bind_ok hop
        obtain ⟨⟨id, rest''⟩, -, hdelete⟩ := Except.of_bind_ok hdelete
        cases hdelete
      · cases hop
    have hlt : start < bytes.length := by
      have := congrArg length hsplit
      simp only [length_drop, length_append, length_cons] at this
      omega
    have htake : bytes.take (p.start + (b :: body).length) = bytes.take start ++ (pre ++ b :: body) := by
      have hbytes : bytes = bytes.take start ++ ((pre ++ b :: body) ++ rest) := by
        conv_lhs => rw [← take_append_drop start bytes, hsplit]
        rw [append_assoc]
      have hlen : (bytes.take start).length = start := by
        rw [length_take]
        omega
      conv_lhs => rw [hbytes]
      rw [← append_assoc, take_left']
      rw [length_append, length_append, hlen, hstart, Nat.add_assoc]
    refine ⟨p.start + (b :: body).length, ⟨[], ?_⟩, hcut⟩
    rw [htake, ← hbody]
    congr 1
    have hlen : (bytes.take start ++ (pre ++ [b])).length = p.start + 1 := by
      rw [hstart]
      simp only [length_append, length_take, length_singleton]
      omega
    have hshape : bytes.take start ++ (pre ++ b :: body) = bytes.take start ++ (pre ++ [b]) ++ body := by
      simp only [append_assoc, singleton_append]
    rw [hshape, drop_left' hlen, append_nil]

theorem located_foldl_apply {id : ℕ} {ps : List PlacedRecord} {l : Loading} {x : String}
    {loc : DocLocation} (h : (ps.foldl (Loading.apply id) l).locations.get? x = some loc) :
    l.locations.get? x = some loc ∨ loc.segment = id ∧
      ∃ p ∈ ps, ∃ doc, p.record = .put doc ∧ loc.offset = p.start + 1 := by
  induction ps generalizing l with
  | nil => exact .inl h
  | cons p ps ih =>
    rcases ih h with h | ⟨hseg, q, hq, hdoc⟩
    · rw [Loading.apply] at h
      split at h
      · next doc hdoc =>
        rw [get?_insert] at h
        split_ifs at h
        · cases h
          exact .inr ⟨rfl, p, mem_cons_self, doc, hdoc, rfl⟩
        · exact .inl h
      · simp only at h
        split at h
        · split_ifs at h
          · rw [get?_erase] at h
            split_ifs at h
            exact .inl h
          · exact .inl h
        · exact .inl h
    · exact .inr ⟨hseg, q, mem_cons_of_mem p hq, hdoc⟩

theorem scanSegment_kept {l l' : Loading} {id : ℕ} {«from» : Option ℕ}
    (h : scanSegment l id «from» = .ok l') :
    ∃ bytes start kept, l.segments.get? id = some bytes ∧ scanStart bytes «from» = .ok start ∧
      kept <+: bytes ∧ bytes.take start <+: kept ∧
      (∀ k, l'.segments.get? k = if k = id then some kept else l.segments.get? k) ∧
      ∀ x loc, l'.locations.get? x = some loc → l.locations.get? x = some loc ∨
        loc.segment = id ∧ ∃ doc, ReadsAt kept loc.offset doc := by
  rw [scanSegment] at h
  split at h
  · cases h
  next bytes hbytes =>
    by_cases hshort : bytes.length < 8
    · rw [if_pos hshort] at h
      cases h
    rw [if_neg hshort] at h
    obtain ⟨start, hstart, h⟩ := Except.of_bind_ok h
    have hsegments : ((scan start (bytes.drop start)).1.foldl (Loading.apply id) l).segments =
        l.segments := by
      have := l.replay_segments ((scan start (bytes.drop start)).1.map fun p => (id, p))
      rwa [Loading.replay, foldl_map] at this
    simp only at h
    split at h
    · cases h
      refine ⟨bytes, start, bytes, hbytes, hstart, prefix_rfl, take_prefix _ _, ?_, ?_⟩
      · intro k
        rw [hsegments]
        split_ifs with hk
        · rw [hk, hbytes]
        · rfl
      · intro x loc hx
        rcases located_foldl_apply hx with hx | ⟨hseg, p, hp, doc, hrec, hoff⟩
        · exact .inl hx
        · obtain ⟨stop, hreads, -⟩ := readsAt_of_scan hp hrec
          exact .inr ⟨hseg, doc, hoff ▸ hreads.mono ( take_prefix _ _)⟩
    · next cut hcut =>
      split_ifs at h
      cases h
      refine ⟨bytes, start, bytes.take cut, hbytes, hstart, take_prefix _ _, ?_, ?_, ?_⟩
      · exact take_prefix_take_left (le_of_scanRecords_torn hcut)
      · intro k
        show (insert _ id (bytes.take cut)).get? k = _
        rw [get?_insert, hsegments]
      · intro x loc hx
        rcases located_foldl_apply hx with hx | ⟨hseg, p, hp, doc, hrec, hoff⟩
        · exact .inl hx
        · obtain ⟨stop, hreads, hle⟩ := readsAt_of_scan hp hrec
          refine .inr ⟨hseg, doc, hoff ▸ hreads.mono ?_⟩
          exact take_prefix_take_left (hle cut hcut)
    · cases h

theorem SavedOk.kept {m : MapsFile} {segments segments' : SortedMap ℕ ByteSeq} (h : SavedOk m segments)
    {id : ℕ} {bytes kept : ByteSeq} (hget : segments.get? id = some bytes) (hpre : kept <+: bytes)
    (hends : ∀ e ∈ m.segmentEnds, e.1 = id → bytes.take e.2 <+: kept)
    (hget' : ∀ k, segments'.get? k = if k = id then some kept else segments.get? k) :
    SavedOk m segments' where
  nodup := h.nodup
  ends e he := by
    obtain ⟨bytes', hold, hle⟩ := h.ends e he
    rw [hget']
    split_ifs with heq
    · rw [heq, hget] at hold
      cases hold
      have := (hends e he heq).length_le
      rw [length_take] at this
      exact ⟨kept, rfl, by omega⟩
    · exact ⟨bytes', hold, hle⟩
  bounded := h.bounded
  readable e he bytes' hold hmagic := by
    rw [hget'] at hold
    split_ifs at hold with heq
    · cases hold
      obtain ⟨stop, doc, hstop, hreads⟩ :=
        h.readable e he bytes (heq ▸ hget) (take_eq_of_beginning hpre hmagic)
      refine ⟨stop, doc, hstop, hreads.mono ?_⟩
      have := (hends _ hstop heq).take stop
      rwa [take_take, Nat.min_self] at this
    · exact h.readable e he bytes' hold hmagic

theorem SavedOk.erase {m : MapsFile} {segments : SortedMap ℕ ByteSeq} (h : SavedOk m segments) {id : ℕ}
    (hid : id ∉ m.segmentEnds.map Prod.fst) : SavedOk m (segments.erase id) where
  nodup := h.nodup
  ends e he := by
    have hne : e.1 ≠ id := fun heq => hid (heq ▸ mem_map_of_mem he)
    rw [get?_erase, if_neg hne]
    exact h.ends e he
  bounded := h.bounded
  readable e he bytes hget hmagic := by
    rw [get?_erase] at hget
    split_ifs at hget
    exact h.readable e he bytes hget hmagic

/-- A load under way.  The segments `todo` are still to be scanned from the given offsets, and those of
them in `unknown` may turn out to be outputs of compactions and go. -/
structure Scanning (maps : Option MapsFile) (l : Loading) (todo : List (ℕ × ℕ)) (unknown : List ℕ) :
    Prop where
  nodup : (todo.map Prod.fst).Nodup
  saved : ∀ m, maps = some m → SavedOk m l.segments
  ends : ∀ m, maps = some m → ∀ e ∈ m.segmentEnds, ∀ stop, (e.1, stop) ∈ todo → stop = e.2
  bounded : ∀ x loc, l.locations.get? x = some loc →
    ∃ k ∈ l.segments.keys, k ∉ unknown ∧ loc.segment ≤ k
  readable : ∀ x loc bytes, l.locations.get? x = some loc → l.segments.get? loc.segment = some bytes →
    bytes.take 8 = magic → ∃ doc, ReadsAt bytes loc.offset doc ∧
      ∀ stop, (loc.segment, stop) ∈ todo → ReadsAt (bytes.take stop) loc.offset doc

namespace Scanning

open List SortedMap Except

variable {maps : Option MapsFile} {l l' : Loading} {id stop : ℕ} {todo : List (ℕ × ℕ)} {unknown : List ℕ}

theorem scan (h : Scanning maps l ((id, stop) :: todo) unknown) {«from» : Option ℕ}
    (hscan : scanSegment l id «from» = .ok l')
    (hfrom : ∀ bytes start, scanStart bytes «from» = .ok start → start = stop)
    {unknown' : List ℕ} (hsub : ∀ k ∈ unknown', k ∈ unknown) (hid : id ∉ unknown') :
    Scanning maps l' todo unknown' ∧ ∀ k, k ∈ l'.segments.keys ↔ k ∈ l.segments.keys := by
  obtain ⟨bytes, start, kept, hget, hstart, hpre, htake, hget', hplaces⟩ := scanSegment_kept hscan
  obtain rfl := hfrom bytes start hstart
  obtain ⟨hnot, hnodup⟩ := nodup_cons.mp h.nodup
  have hnot : ∀ stop', (id, stop') ∉ todo := fun stop' hin => hnot (mem_map.mpr ⟨_, hin, rfl⟩)
  have hkeys : ∀ k, k ∈ l'.segments.keys ↔ k ∈ l.segments.keys := by
    intro k
    rw [SortedMap.mem_keys, SortedMap.mem_keys, hget']
    split_ifs with hk
    · exact ⟨fun _ => ⟨bytes, hk ▸ hget⟩, fun _ => ⟨kept, rfl⟩⟩
    · rfl
  refine ⟨⟨hnodup, ?_, ?_, ?_, ?_⟩, hkeys⟩
  · intro m hm
    refine (h.saved m hm).kept hget hpre ?_ hget'
    intro e he heq
    rw [← h.ends m hm e he start (heq ▸ mem_cons_self)]
    exact htake
  · intro m hm e he stop' hin
    exact h.ends m hm e he stop' (mem_cons_of_mem _ hin)
  · intro x loc hx
    rcases hplaces x loc hx with hx | ⟨hseg, -⟩
    · obtain ⟨k, hk, hknown, hle⟩ := h.bounded x loc hx
      exact ⟨k, (hkeys k).mpr hk, fun hin => hknown (hsub k hin), hle⟩
    · exact ⟨id, (hkeys id).mpr (mem_keys.mpr ⟨bytes, hget⟩), hid, hseg.le⟩
  · intro x loc bytes' hx hbytes' hmagic
    rw [hget'] at hbytes'
    by_cases hseg : loc.segment = id
    · rw [if_pos hseg] at hbytes'
      cases hbytes'
      have hreads : ∃ doc, ReadsAt kept loc.offset doc := by
        rcases hplaces x loc hx with hx | ⟨-, hreads⟩
        · obtain ⟨doc, -, hreads⟩ := h.readable x loc bytes hx (hseg ▸ hget) (take_eq_of_beginning hpre hmagic)
          exact ⟨doc, (hreads start (hseg ▸ mem_cons_self)).mono htake⟩
        · exact hreads
      obtain ⟨doc, hreads⟩ := hreads
      exact ⟨doc, hreads, fun stop' hin => absurd (hseg ▸ hin) (hnot stop')⟩
    · rw [if_neg hseg] at hbytes'
      have hx := (hplaces x loc hx).resolve_right fun hnew => hseg hnew.1
      obtain ⟨doc, hreads, hall⟩ := h.readable x loc bytes' hx hbytes' hmagic
      exact ⟨doc, hreads, fun stop' hin => hall stop' (mem_cons_of_mem _ hin)⟩

theorem erase (h : Scanning maps l ((id, stop) :: todo) (id :: unknown))
    (hid : ∀ m, maps = some m → id ∉ m.segmentEnds.map Prod.fst) :
    Scanning maps { l with segments := l.segments.erase id } todo unknown where
  nodup := (nodup_cons.mp h.nodup).2
  saved m hm := (h.saved m hm).erase (hid m hm)
  ends m hm e he stop' hin := h.ends m hm e he stop' (mem_cons_of_mem _ hin)
  bounded x loc hx := by
    obtain ⟨k, hk, hknown, hle⟩ := h.bounded x loc hx
    rw [mem_cons, not_or] at hknown
    obtain ⟨bytes, hget⟩ := mem_keys.mp hk
    refine ⟨k, mem_keys.mpr ⟨bytes, ?_⟩, hknown.2, hle⟩
    rw [get?_erase, if_neg hknown.1]
    exact hget
  readable x loc bytes hx hget hmagic := by
    have hget : (l.segments.erase id).get? loc.segment = some bytes := hget
    rw [get?_erase] at hget
    split_ifs at hget
    obtain ⟨doc, hreads, hall⟩ := h.readable x loc bytes hx hget hmagic
    exact ⟨doc, hreads, fun stop' hin => hall stop' (mem_cons_of_mem _ hin)⟩

theorem scanStart_none {bytes : ByteSeq} {start : ℕ} (h : scanStart bytes none = .ok start) :
    start = 8 := by
  rw [scanStart] at h
  split_ifs at h
  exact (ok.inj h).symm

theorem load {ids : List ℕ} (h : Scanning maps l (ids.map fun id => (id, 8)) [])
    (hrun : ids.foldlM (fun l id => scanSegment l id none) l = .ok l') :
    Scanning maps l' [] [] ∧ ∀ k ∈ l'.segments.keys, k ∈ l.segments.keys := by
  induction ids generalizing l with
  | nil =>
    cases hrun
    exact ⟨h, fun k hk => hk⟩
  | cons id ids ih =>
    rw [foldlM_cons] at hrun
    obtain ⟨next, hscan, hrun⟩ := of_bind_ok hrun
    obtain ⟨hnext, hkeys⟩ := h.scan hscan (fun _ _ => scanStart_none)
      (fun k hk => hk) not_mem_nil
    obtain ⟨hlast, hkeys'⟩ := ih hnext hrun
    exact ⟨hlast, fun k hk => (hkeys k).mp (hkeys' k hk)⟩

theorem tails {ends rest : List (ℕ × ℕ)} (h : Scanning maps l (ends ++ rest) unknown)
    (hknown : ∀ e ∈ ends, e.1 ∉ unknown)
    (hrun : ends.foldlM (fun l e => scanSegment l e.1 (some e.2)) l = .ok l') :
    Scanning maps l' rest unknown ∧ ∀ k ∈ l'.segments.keys, k ∈ l.segments.keys := by
  induction ends generalizing l with
  | nil =>
    cases hrun
    exact ⟨h, fun k hk => hk⟩
  | cons e ends ih =>
    obtain ⟨he, hknown⟩ := forall_mem_cons.mp hknown
    rw [foldlM_cons] at hrun
    obtain ⟨next, hscan, hrun⟩ := of_bind_ok hrun
    obtain ⟨hnext, hkeys⟩ := h.scan hscan (fun _ _ hstart => (ok.inj hstart).symm)
      (fun k hk => hk) he
    obtain ⟨hlast, hkeys'⟩ := ih hnext hknown hrun
    exact ⟨hlast, fun k hk => (hkeys k).mp (hkeys' k hk)⟩

theorem unknowns {ids known : List ℕ}
    (h : Scanning maps l ((ids.filter (· ∉ known)).map fun id => (id, 8)) (ids.filter (· ∉ known)))
    (hknown : ∀ m, maps = some m → ∀ k ∈ m.segmentEnds.map Prod.fst, k ∈ known)
    (hrun : ids.foldlM (scanUnknown known) l = .ok l') :
    Scanning maps l' [] [] ∧ ∀ k ∈ l'.segments.keys, k ∈ l.segments.keys := by
  induction ids generalizing l with
  | nil =>
    cases hrun
    exact ⟨h, fun k hk => hk⟩
  | cons id ids ih =>
    rw [foldlM_cons] at hrun
    obtain ⟨next, hone, hrun⟩ := of_bind_ok hrun
    rw [scanUnknown] at hone
    by_cases hid : id ∈ known
    · rw [if_pos hid] at hone
      cases hone
      rw [filter_cons_of_neg (by simpa using hid)] at h
      exact ih h hrun
    · rw [if_neg hid] at hone
      rw [filter_cons_of_pos (by simpa using hid)] at h
      have hnodup := h.nodup
      rw [map_map] at hnodup
      have hnot : id ∉ ids.filter (· ∉ known) := by
        intro hin
        exact (nodup_cons.mp hnodup).1 (mem_map.mpr ⟨id, hin, rfl⟩)
      split at hone
      · cases hone
      · split_ifs at hone
        · cases hone
          obtain ⟨hlast, hkeys⟩ := ih (h.erase fun m hm hin => hid (hknown m hm id hin)) hrun
          refine ⟨hlast, ?_⟩
          intro k hk
          obtain ⟨v, hv⟩ := mem_keys.mp (hkeys k hk)
          have hv : (l.segments.erase id).get? k = some v := hv
          rw [get?_erase] at hv
          split_ifs at hv
          exact mem_keys.mpr ⟨v, hv⟩
        · obtain ⟨hnext, hkeys⟩ := h.scan hone (fun _ _ => scanStart_none)
            (fun k hk => mem_cons_of_mem id hk) hnot
          obtain ⟨hlast, hkeys'⟩ := ih hnext hrun
          exact ⟨hlast, fun k hk => (hkeys k).mp (hkeys' k hk)⟩

end Scanning

theorem located_savedMaps {dir : StoreDir} {m : MapsFile} {x : String} {loc : DocLocation}
    (h : (dir.savedMaps m).locations.get? x = some loc) : (x, loc) ∈ m.entries := by
  refine @foldl_upsert_induction _ _ _ _ Prod.fst (fun _ e => e.2) (fun x loc => (x, loc) ∈ m.entries)
    m.entries .empty ?_ ?_ _ _ h
  · intro x loc hx
    cases hx
  · intro e he _ _
    exact he

theorem loaded_places {dir : StoreDir} (hmaps : ∀ m, dir.maps = some m → SavedOk m dir.segments)
    {l : Loading} (h : loadEither dir = .ok l) :
    Scanning dir.maps l [] [] ∧ ∀ k ∈ l.segments.keys, k ∈ dir.segments.keys := by
  have hids : dir.listSegmentIds.Nodup := dir.segments.keys_ascending.imp fun h => ne_of_lt h
  obtain ⟨maps, hload, h⟩ := Except.of_bind_ok h
  rw [loadFromMaps] at hload
  cases hm : dir.maps with
  | none =>
    simp only [hm] at hload
    cases hload
    have hstart : Scanning none ⟨dir.segments, .empty, 0⟩ (dir.listSegmentIds.map fun id => (id, 8)) [] := by
      refine ⟨?_, by simp, by simp, ?_, ?_⟩
      · rw [map_map]
        exact (map_id _).symm ▸ hids
      · intro x loc hx
        cases hx
      · intro x loc bytes hx
        cases hx
    exact hstart.load h
  | some m =>
    have hsaved := hmaps m hm
    simp only [hm, tails_eq _ hsaved.ends] at hload
    obtain ⟨middle, htails, hload⟩ := Except.of_bind_ok hload
    obtain ⟨last, hlast, hload⟩ := Except.of_bind_ok hload
    cases hload
    cases h
    set known := m.segmentEnds.map Prod.fst with hknown
    have hunknown : ∀ k ∈ dir.listSegmentIds.filter (· ∉ known), k ∉ known := by
      intro k hk
      exact of_decide_eq_true (mem_filter.mp hk).2
    -- every segment the maps know has one end
    have hunique : ∀ e ∈ m.segmentEnds, ∀ stop, (e.1, stop) ∈ m.segmentEnds ++
        (dir.listSegmentIds.filter (· ∉ known)).map (fun id => (id, 8)) → stop = e.2 := by
      intro e he stop hin
      rcases mem_append.mp hin with hin | hin
      · exact congrArg Prod.snd (inj_on_of_nodup_map hsaved.nodup hin he rfl)
      · obtain ⟨k, hk, heq⟩ := mem_map.mp hin
        have hk' : k = e.1 := congrArg Prod.fst heq
        exact absurd (mem_map_of_mem he) (hk' ▸ hunknown k hk)
    have hstart : Scanning (some m) (dir.savedMaps m)
        (m.segmentEnds ++ (dir.listSegmentIds.filter (· ∉ known)).map fun id => (id, 8))
        (dir.listSegmentIds.filter (· ∉ known)) := by
      refine ⟨?_, ?_, ?_, ?_, ?_⟩
      · rw [map_append, map_map]
        refine nodup_append.mpr ⟨hsaved.nodup, ?_, ?_⟩
        · exact (map_id _).symm ▸ hids.filter _
        · intro k hk k' hk' heq
          obtain ⟨k'', hk'', rfl⟩ := mem_map.mp hk'
          exact hunknown k'' hk'' ((show k = k'' from heq) ▸ hk)
      · intro m' hm'
        cases hm'
        exact hsaved
      · intro m' hm' e he stop hin
        cases hm'
        exact hunique e he stop hin
      · intro x loc hx
        obtain ⟨k, hk, hle⟩ := hsaved.bounded _ (located_savedMaps hx)
        obtain ⟨e, he, rfl⟩ := mem_map.mp hk
        obtain ⟨bytes, hget, -⟩ := hsaved.ends e he
        exact ⟨e.1, mem_keys.mpr ⟨bytes, hget⟩, fun hin => hunknown e.1 hin hk, hle⟩
      · intro x loc bytes hx hget hmagic
        obtain ⟨stop, doc, hstop, hreads⟩ := hsaved.readable _ (located_savedMaps hx) bytes hget hmagic
        refine ⟨doc, hreads.mono ( take_prefix _ _), ?_⟩
        intro stop' hin
        rw [hunique _ hstop stop' hin]
        exact hreads
    obtain ⟨hmiddle, hkeys⟩ := hstart.tails (by
      intro e he hin
      exact hunknown e.1 hin (mem_map_of_mem he)) htails
    obtain ⟨hlast, hkeys'⟩ := hmiddle.unknowns (by
      intro m' hm' k hk
      cases hm'
      exact hk) hlast
    exact ⟨hlast, fun k hk => hkeys k (hkeys' k hk)⟩

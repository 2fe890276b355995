/-
The two ways to open a document store.

A full scan reads the segments in the order of their numbers, and the output of
a compaction has a higher number than the segment documents are appended to
while it is made.  So a version written after the compaction can lie before its
older copy, and the delete records of a removed segment are gone.  This file
finds the condition under which a full scan still gives the documents of the
store.
-/
import Riets.StoreCompaction

open StoreDir BinaryDocumentStore List Option

/-! ### The order of the files -/

def placeOf (p : SegmentRecord) (doc : StoredDocument) : DocLocation :=
  ⟨doc.internalId, p.2.start + 1, p.1, (p.2.len - 1) % 2 ^ 32⟩

def Before (p q : SegmentRecord) : Prop := p.1 < q.1 ∨ p.1 = q.1 ∧ p.2.start < q.2.start

variable {p q : SegmentRecord}

theorem Before.asymm (h : Before p q) : ¬Before q p := by
  rw [Before] at h ⊢
  omega

theorem Before.irrefl (p : SegmentRecord) : ¬Before p p := fun h => h.asymm h

theorem le_start_of_mem_place {pos : ℕ} {rs : List StoreRecord} {p : PlacedRecord}
    (h : p ∈ place pos rs) : pos ≤ p.start := by
  obtain ⟨pre, post, -, hstart, -⟩ := mem_place h
  omega

theorem start_lt_of_mem_place {pos : ℕ} {rs : List StoreRecord} {p : PlacedRecord}
    (h : p ∈ place pos rs) : p.start < pos + (encodeAll rs).length := by
  obtain ⟨pre, post, hrs, hstart, -⟩ := mem_place h
  have := p.record.one_le_length
  rw [hstart, hrs, encodeAll_append, encodeAll_cons, length_append, length_append]
  omega

theorem place_pairwise (pos : ℕ) (rs : List StoreRecord) :
    (place pos rs).Pairwise fun p q => p.start < q.start := by
  induction rs generalizing pos with
  | nil => exact Pairwise.nil
  | cons r rs ih =>
    rw [place, pairwise_cons]
    refine ⟨fun q hq => ?_, ih _⟩
    have := le_start_of_mem_place hq
    have := r.one_le_length
    show pos < q.start
    omega

variable {logs : Logs} {ps : List SegmentRecord}

theorem mem_allPlaced :
    q ∈ allPlaced logs ↔ ∃ l, logs.get? q.1 = some l ∧ q.2 ∈ place 8 l.records := by
  rw [allPlaced, mem_flatMap]
  constructor
  · rintro ⟨id, hid, hq⟩
    obtain ⟨p, hp, rfl⟩ := mem_map.1 hq
    obtain ⟨l, hl⟩ := SortedMap.mem_keys.1 hid
    rw [recordsOf_eq hl] at hp
    exact ⟨l, hl, hp⟩
  · rintro ⟨l, hl, hq⟩
    refine ⟨q.1, SortedMap.mem_keys.2 ⟨l, hl⟩, mem_map.2 ⟨q.2, ?_, rfl⟩⟩
    rw [recordsOf_eq hl]
    exact hq

variable {doc : StoredDocument} {loc : DocLocation} {x : String}

theorem At.placed (h : At logs loc doc) :
    ∃ p ∈ allPlaced logs, p.2.record = .put doc ∧ loc = placeOf p doc := by
  obtain ⟨l, pre, post, hl, hrec, heq⟩ := h
  refine ⟨(loc.segment, ⟨8 + (encodeAll pre).length, (StoreRecord.put doc).encode.length, .put doc⟩),
    mem_allPlaced.2 ⟨l, hl, ?_⟩, rfl, heq⟩
  rw [hrec, place_append]
  exact mem_append_right _ mem_cons_self

theorem allPlaced_pairwise (logs : Logs) : (allPlaced logs).Pairwise Before := by
  rw [allPlaced, pairwise_flatMap]
  constructor
  · intro id _
    rw [placedIn, pairwise_map]
    exact (place_pairwise 8 _).imp fun hlt => .inr ⟨rfl, hlt⟩
  · refine logs.keys_ascending.imp fun hlt p hp q hq => ?_
    obtain ⟨_, -, rfl⟩ := mem_map.1 hp
    obtain ⟨_, -, rfl⟩ := mem_map.1 hq
    exact .inl hlt

theorem before_total (hp : p ∈ allPlaced logs)
    (hq : q ∈ allPlaced logs) : p = q ∨ Before p q ∨ Before q p := by
  obtain ⟨before, after, hsplit⟩ := append_of_mem hp
  have hasc := allPlaced_pairwise logs
  rw [hsplit] at hasc hq
  obtain ⟨-, hafter, hbefore⟩ := pairwise_append.1 hasc
  rcases mem_append.1 hq with hin | hin
  · exact .inr (.inr (hbefore q hin p mem_cons_self))
  · rcases mem_cons.1 hin with rfl | hin
    · exact .inl rfl
    · exact .inr (.inl ((pairwise_cons.1 hafter).1 q hin))

/-! ### What a scan holds for one external id -/

/-- Read after `doc`, the record leaves its id and its source. -/
def Harmless (doc : StoredDocument) : StoreRecord → Prop
  | .put doc' => doc'.externalId = doc.externalId →
      doc'.internalId = doc.internalId ∧ doc'.source = doc.source
  | .delete x deleted => x = doc.externalId → deleted < doc.internalId

/-- Read after `doc`, the record takes its place or removes it. -/
def Supersedes (doc : StoredDocument) : StoreRecord → Prop
  | .put doc' => doc'.externalId = doc.externalId
  | .delete x deleted => x = doc.externalId ∧ doc.internalId ≤ deleted

theorem harmless_of_not_supersedes {r : StoreRecord}
    (h : ¬Supersedes doc r) : Harmless doc r := by
  cases r with
  | put doc' => exact fun hid => absurd hid h
  | delete x deleted =>
    intro hx
    by_contra hge
    exact h ⟨hx, not_lt.1 hge⟩

theorem harmless_of_ne {r : StoreRecord}
    (h : r.externalId ≠ doc.externalId) : Harmless doc r := by
  cases r with
  | put doc' => exact fun hid => absurd hid h
  | delete x deleted => exact fun hx => absurd hx h

/-- `p` puts `doc`, and no later record of `ps` supersedes it. -/
structure Survives (ps : List SegmentRecord) (p : SegmentRecord) (doc : StoredDocument) : Prop where
  mem : p ∈ ps
  record : p.2.record = .put doc
  last : ∀ q ∈ ps, Before p q → ¬Supersedes doc q.2.record

/-- `p` puts `doc`, and every later record of `ps` leaves its id and source. -/
structure Newest (ps : List SegmentRecord) (p : SegmentRecord) (doc : StoredDocument) : Prop where
  mem : p ∈ ps
  record : p.2.record = .put doc
  last : ∀ q ∈ ps, Before p q → Harmless doc q.2.record

theorem Survives.newest
    (h : Survives ps p doc) : Newest ps p doc :=
  ⟨h.mem, h.record, fun q hq hpq => harmless_of_not_supersedes (h.last q hq hpq)⟩

theorem Survives.mono {ps' : List SegmentRecord}
    (h : Survives ps' p doc) (hmem : p ∈ ps) (hsub : ∀ q ∈ ps, q ∈ ps') : Survives ps p doc :=
  ⟨hmem, h.record, fun q hq hpq => h.last q (hsub q hq) hpq⟩

theorem get?_apply_put (h : p.2.record = .put doc)
    (l : Loading) (x : String) :
    (l.apply p.1 p.2).locations.get? x =
      if x = doc.externalId then some (placeOf p doc) else l.locations.get? x := by
  simp only [Loading.apply, h, SortedMap.get?_insert]
  rfl

theorem get?_apply_delete {y : String} {deleted : DocId}
    (h : p.2.record = .delete y deleted) (l : Loading) (x : String) :
    (l.apply p.1 p.2).locations.get? x =
      if x = y then (l.locations.get? x).filter fun loc => deleted < loc.internalId
      else l.locations.get? x := by
  simp only [Loading.apply, h]
  by_cases hx : x = y
  · subst hx
    rw [if_pos rfl]
    cases hloc : l.locations.get? x with
    | none => simp [hloc]
    | some loc =>
      by_cases hle : loc.internalId ≤ deleted
      · simp [hle, Option.filter, not_lt.2 hle]
      · simp [hle, Option.filter, not_le.1 hle, hloc]
  · rw [if_neg hx]
    split
    · split_ifs
      · rw [SortedMap.get?_erase, if_neg hx]
      · rfl
    · rfl

theorem replay_snoc (l : Loading) (ps : List SegmentRecord) (q : SegmentRecord) :
    l.replay (ps ++ [q]) = (l.replay ps).apply q.1 q.2 := l.replay_append ps [q]

section Replay

variable {segments : SortedMap ℕ ByteSeq} {highest : DocId}

theorem located_replay_some (hasc : ps.Pairwise Before)
    (h : (Loading.replay ⟨segments, .empty, highest⟩ ps).locations.get? x = some loc) :
    ∃ p doc, Survives ps p doc ∧ doc.externalId = x ∧ loc = placeOf p doc := by
  induction ps using reverseRecOn generalizing loc with
  | nil => cases h
  | append_singleton ps q ih =>
    obtain ⟨hps, -, hq⟩ := pairwise_append.1 hasc
    -- a record of another document, or of an older version, read last
    have hkeep : ∀ loc', (Loading.replay ⟨segments, .empty, highest⟩ ps).locations.get? x = some loc' →
        (∀ doc, doc.externalId = x → loc'.internalId = doc.internalId →
          ¬Supersedes doc q.2.record) →
        ∃ p doc, Survives (ps ++ [q]) p doc ∧ doc.externalId = x ∧ loc' = placeOf p doc := by
      intro loc' hloc' hnot
      obtain ⟨p, doc, hsurvives, hdoc, rfl⟩ := ih hps hloc'
      refine ⟨p, doc, ⟨mem_append_left _ hsurvives.mem, hsurvives.record, ?_⟩, hdoc, rfl⟩
      intro q' hq' hpq
      rcases mem_append.1 hq' with hin | hin
      · exact hsurvives.last q' hin hpq
      · rw [mem_singleton.1 hin]
        exact hnot doc hdoc rfl
    rw [replay_snoc] at h
    cases hrec : q.2.record with
    | put doc =>
      rw [get?_apply_put hrec] at h
      by_cases hx : x = doc.externalId
      · rw [if_pos hx] at h
        cases h
        refine ⟨q, doc, ⟨by simp, hrec, fun q' hq' hqq => ?_⟩, hx.symm, rfl⟩
        rcases mem_append.1 hq' with hin | hin
        · exact absurd (hq q' hin q (by simp)) hqq.asymm
        · rw [mem_singleton.1 hin] at hqq
          exact absurd hqq (Before.irrefl q)
      · rw [if_neg hx] at h
        refine hkeep loc h fun doc' hdoc' _ => ?_
        rw [hrec]
        exact fun hsame => hx (hdoc'.symm.trans hsame.symm)
    | delete y deleted =>
      rw [get?_apply_delete hrec] at h
      by_cases hx : x = y
      · rw [if_pos hx, filter_eq_some_iff] at h
        refine hkeep loc h.1 fun doc' hdoc' hid => ?_
        have hlt : deleted < loc.internalId := of_decide_eq_true h.2
        rw [hrec]
        rintro ⟨-, hle⟩
        exact absurd hle (not_le.2 (hid ▸ hlt))
      · rw [if_neg hx] at h
        refine hkeep loc h fun doc' hdoc' _ => ?_
        rw [hrec]
        exact fun hsup => hx (hdoc'.symm.trans hsup.1.symm)

theorem replay_newest (segments : SortedMap ℕ ByteSeq) (highest : DocId) (hasc : ps.Pairwise Before)
    (h : Newest ps p doc) :
    ∃ p' doc', p' ∈ ps ∧ p'.2.record = .put doc' ∧ doc'.externalId = doc.externalId ∧
      doc'.internalId = doc.internalId ∧ doc'.source = doc.source ∧
      (Loading.replay ⟨segments, .empty, highest⟩ ps).locations.get? doc.externalId =
        some (placeOf p' doc') := by
  induction ps using reverseRecOn with
  | nil => exact absurd h.mem not_mem_nil
  | append_singleton ps q ih =>
    obtain ⟨hps, -, hq⟩ := pairwise_append.1 hasc
    rw [replay_snoc]
    rcases mem_append.1 h.mem with hin | hin
    · have hbefore : Before p q := hq p hin q (by simp)
      have hharmless := h.last q (by simp) hbefore
      obtain ⟨p', doc', hp', hrec', hext, hid, hsrc, hloc⟩ := ih hps
        ⟨hin, h.record, fun q' hq' hpq => h.last q' (mem_append_left _ hq') hpq⟩
      cases hrec : q.2.record with
      | put new =>
        rw [hrec] at hharmless
        rw [get?_apply_put hrec]
        by_cases hx : doc.externalId = new.externalId
        · obtain ⟨hid', hsrc'⟩ := hharmless hx.symm
          exact ⟨q, new, by simp, hrec, hx.symm, hid', hsrc', if_pos hx⟩
        · rw [if_neg hx]
          exact ⟨p', doc', mem_append_left _ hp', hrec', hext, hid, hsrc, hloc⟩
      | delete y deleted =>
        rw [hrec] at hharmless
        refine ⟨p', doc', mem_append_left _ hp', hrec', hext, hid, hsrc, ?_⟩
        rw [get?_apply_delete hrec, hloc]
        split_ifs with hx
        · have hlt : deleted < doc'.internalId := lt_of_lt_of_eq (hharmless hx.symm) hid.symm
          have hlt' : deleted < (placeOf p' doc').internalId := hlt
          simp [Option.filter, hlt']
        · rfl
    · have hpq : p = q := mem_singleton.1 hin
      subst hpq
      refine ⟨p, doc, by simp, h.record, rfl, rfl, rfl, ?_⟩
      rw [get?_apply_put h.record, if_pos rfl]

end Replay

/-! ### The files of a store -/

def recordsIn (bytes : ByteSeq) : List PlacedRecord := (scan 8 (bytes.drop 8)).1

def placedRecords (segments : SortedMap ℕ ByteSeq) : List SegmentRecord :=
  segments.keys.flatMap fun id =>
    (recordsIn ((segments.get? id).getD [])).map fun p => (id, p)

theorem recordsIn_bytes {l : SegmentLog} (hfit : ∀ r ∈ l.records, r.Fits) :
    recordsIn l.bytes = place 8 l.records := by
  have hdrop : l.bytes.drop 8 = encodeAll l.records := by
    have hrec : l.records = [] ++ l.records := rfl
    exact SegmentLog.drop_bytes hrec
  rw [recordsIn, hdrop, scan_encodeAll hfit]

theorem placedRecords_eq {segments : SortedMap ℕ ByteSeq}
    (hseg : segments = logs.map SegmentLog.bytes) (hfit : logs.Fit) :
    placedRecords segments = allPlaced logs := by
  rw [placedRecords, allPlaced, hseg, SortedMap.keys_map]
  refine flatMap_congr fun id hid => ?_
  obtain ⟨l, hl⟩ := SortedMap.mem_keys.1 hid
  rw [SortedMap.get?_map, hl, recordsOf_eq hl, placedIn]
  show (recordsIn l.bytes).map _ = _
  rw [recordsIn_bytes (hfit id l hl)]

/-- The maps of a store and its records tell the same: the place of a document
is the newest record of it, and no document without an entry survives. -/
structure Agree (locations : Locations) (ps : List SegmentRecord) : Prop where
  live : ∀ x loc, locations.get? x = some loc →
    ∃ p doc, Newest ps p doc ∧ doc.externalId = x ∧ loc = placeOf p doc
  absent : ∀ x, locations.get? x = none → ∀ p doc, Survives ps p doc → doc.externalId ≠ x

theorem agree_replay (hasc : ps.Pairwise Before)
    (segments : SortedMap ℕ ByteSeq) (highest : DocId) :
    Agree (Loading.replay ⟨segments, .empty, highest⟩ ps).locations ps where
  live x loc hx := by
    obtain ⟨p, doc, hsurvives, hdoc, hloc⟩ := located_replay_some hasc hx
    exact ⟨p, doc, hsurvives.newest, hdoc, hloc⟩
  absent x hx p doc hsurvives hdoc := by
    obtain ⟨p', doc', -, -, -, -, -, hloc⟩ := replay_newest _ _ hasc hsurvives.newest
    rw [hdoc, hx] at hloc
    cases hloc

def pushed (id : ℕ) (l : SegmentLog) (r : StoreRecord) : SegmentRecord :=
  (id, ⟨l.bytes.length, r.encode.length, r⟩)

section Push

variable {logs : Logs} {cur : ℕ} {l : SegmentLog} {r : StoreRecord}

theorem mem_allPlaced_push (hl : logs.get? cur = some l) :
    q ∈ allPlaced (logs.push cur l r) ↔ q ∈ allPlaced logs ∨ q = pushed cur l r := by
  have hplace : place 8 (l.append [r]).records =
      place 8 l.records ++ [⟨l.bytes.length, r.encode.length, r⟩] := by
    rw [SegmentLog.append, place_append, SegmentLog.length_bytes]
    rfl
  rw [mem_allPlaced, mem_allPlaced, Logs.push, SortedMap.get?_insert]
  by_cases hq : q.1 = cur
  · rw [if_pos hq, hq]
    constructor
    · rintro ⟨l', hl', hmem⟩
      cases hl'
      rw [hplace, mem_append, mem_singleton] at hmem
      exact hmem.imp (fun h => ⟨l, hl, h⟩) fun h => Prod.ext hq h
    · rintro (⟨l', hl', hmem⟩ | rfl)
      · rw [hl] at hl'
        cases hl'
        exact ⟨_, rfl, by rw [hplace]; exact mem_append_left _ hmem⟩
      · exact ⟨_, rfl, by rw [hplace]; exact mem_append_right _ (by simp [pushed])⟩
  · rw [if_neg hq]
    refine ⟨.inl, fun h => h.resolve_right ?_⟩
    rintro rfl
    exact hq rfl

theorem before_pushed (hl : logs.get? cur = some l) (hq : q ∈ allPlaced logs) :
    cur < q.1 ∨ Before q (pushed cur l r) := by
  obtain ⟨l', hl', hmem⟩ := mem_allPlaced.1 hq
  by_cases hid : q.1 = cur
  · rw [hid, hl] at hl'
    cases hl'
    refine .inr (.inr ⟨hid, ?_⟩)
    have := start_lt_of_mem_place hmem
    rw [← l.length_bytes] at this
    exact this
  · rcases Nat.lt_or_gt_of_ne hid with hlt | hgt
    · exact .inr (.inl hlt)
    · exact .inl hgt

theorem Agree.put {locations : Locations} (hl : logs.get? cur = some l)
    (h : Agree locations (allPlaced logs))
    (habove : ∀ q ∈ allPlaced logs, cur < q.1 → Harmless doc q.2.record) :
    Agree (locations.insert doc.externalId (placeOf (pushed cur l (.put doc)) doc))
      (allPlaced (logs.push cur l (.put doc))) where
  live x loc hx := by
    rw [SortedMap.get?_insert] at hx
    by_cases hxd : x = doc.externalId
    · rw [if_pos hxd] at hx
      cases hx
      refine ⟨_, doc, ⟨(mem_allPlaced_push hl).2 (.inr rfl), rfl, fun q hq hbefore => ?_⟩,
        hxd.symm, rfl⟩
      rcases (mem_allPlaced_push hl).1 hq with hold | rfl
      · rcases before_pushed hl hold with habv | hback
        · exact habove q hold habv
        · exact absurd hback hbefore.asymm
      · exact absurd hbefore (Before.irrefl _)
    · rw [if_neg hxd] at hx
      obtain ⟨p, doc', hnew, hdoc', hloc⟩ := h.live x loc hx
      refine ⟨p, doc', ⟨(mem_allPlaced_push hl).2 (.inl hnew.mem), hnew.record,
        fun q hq hbefore => ?_⟩, hdoc', hloc⟩
      rcases (mem_allPlaced_push hl).1 hq with hold | rfl
      · exact hnew.last q hold hbefore
      · exact harmless_of_ne fun hsame => hxd (hdoc'.symm.trans hsame.symm)
  absent x hx p doc' hsurvives hdoc' := by
    rw [SortedMap.get?_insert] at hx
    split_ifs at hx with hxd
    rcases (mem_allPlaced_push hl).1 hsurvives.mem with hold | rfl
    · exact h.absent x hx p doc' (hsurvives.mono hold fun q hq =>
        (mem_allPlaced_push hl).2 (.inl hq)) hdoc'
    · cases hsurvives.record
      exact hxd hdoc'.symm

theorem Agree.delete {locations : Locations}
    (hl : logs.get? cur = some l) (h : Agree locations (allPlaced logs))
    (hx : locations.get? x = some loc)
    (habove : ∀ q ∈ allPlaced logs, cur < q.1 → q.2.record.externalId ≠ x) :
    Agree (locations.erase x) (allPlaced (logs.push cur l (.delete x loc.internalId))) where
  live y loc' hy := by
    rw [SortedMap.get?_erase] at hy
    split_ifs at hy with hyx
    obtain ⟨p, doc, hnew, hdoc, hloc⟩ := h.live y loc' hy
    refine ⟨p, doc, ⟨(mem_allPlaced_push hl).2 (.inl hnew.mem), hnew.record,
      fun q hq hbefore => ?_⟩, hdoc, hloc⟩
    rcases (mem_allPlaced_push hl).1 hq with hold | rfl
    · exact hnew.last q hold hbefore
    · exact harmless_of_ne fun hsame => hyx (hdoc.symm.trans hsame.symm)
  absent y hy p doc hsurvives hdoc := by
    have hold : p ∈ allPlaced logs := by
      rcases (mem_allPlaced_push hl).1 hsurvives.mem with hold | rfl
      · exact hold
      · cases hsurvives.record
    have hbase : Survives (allPlaced logs) p doc :=
      hsurvives.mono hold fun q hq => (mem_allPlaced_push hl).2 (.inl hq)
    rw [SortedMap.get?_erase] at hy
    by_cases hyx : y = x
    · subst hyx
      have hext : p.2.record.externalId = y := by rw [hsurvives.record]; exact hdoc
      rcases before_pushed (r := .delete y loc.internalId) hl hold with habv | hback
      · exact habove p hold habv hext
      -- the delete record is read after `p`, so `p` holds a newer version
      have hlt : loc.internalId < doc.internalId := by
        by_contra hge
        exact hsurvives.last _ ((mem_allPlaced_push hl).2 (.inr rfl)) hback
          ⟨hdoc.symm, not_lt.1 hge⟩
      -- but the place of the document is the newest record of it
      obtain ⟨p₀, doc₀, hnew, hdoc₀, rfl⟩ := h.live y loc hx
      rcases before_total hold hnew.mem with
        rfl | hbefore | hafter
      · cases hnew.record.symm.trans hsurvives.record
        exact lt_irrefl _ hlt
      · refine hbase.last p₀ hnew.mem hbefore ?_
        rw [hnew.record]
        exact hdoc₀.trans hdoc.symm
      · have := hnew.last p hold hafter
        rw [hsurvives.record] at this
        exact absurd (this (hdoc.trans hdoc₀.symm)).1 (ne_of_gt hlt)
    · rw [if_neg hyx] at hy
      exact h.absent y hy p doc hbase hdoc

end Push

theorem allPlaced_insert_empty {id : ℕ} (hgt : ∀ id' ∈ logs.keys, id' < id) :
    allPlaced (logs.insert id ⟨false, []⟩) = allPlaced logs := by
  have hrec : ∀ id' ∈ logs.keys,
      recordsOf (SortedMap.insert logs id ⟨false, []⟩) id' = recordsOf logs id' := by
    intro id' hid'
    rw [recordsOf, recordsOf, SortedMap.get?_insert, if_neg (ne_of_lt (hgt id' hid'))]
  have hlast : recordsOf (SortedMap.insert logs id ⟨false, []⟩) id = [] := by
    rw [recordsOf, SortedMap.get?_insert, if_pos rfl]
    rfl
  rw [allPlaced, SortedMap.keys_insert_of_gt logs hgt, flatMap_append, flatMap_singleton,
    hlast, allPlaced]
  show _ ++ [] = _
  rw [append_nil]
  refine flatMap_congr fun id' hid' => ?_
  rw [hrec id' hid']

/-! ### The condition on the steps -/

def installedSegments (s : BinaryDocumentStore) (c : CompletedSegmentCompaction) :
    SortedMap ℕ ByteSeq :=
  (s.dir.segments.insert c.newSegmentId c.bytes).filter fun e => e.1 ∉ c.oldSegmentIds

/-- No output of a compaction above the current segment holds another version of
the document. -/
def PutOk (s : BinaryDocumentStore) (doc : StoredDocument) : Prop :=
  ∀ q ∈ placedRecords s.dir.segments, s.currentSegment < q.1 → Harmless doc q.2.record

/-- No output of a compaction above the current segment holds the document. -/
def DeleteOk (s : BinaryDocumentStore) (x : String) : Prop :=
  ∀ q ∈ placedRecords s.dir.segments, s.currentSegment < q.1 → q.2.record.externalId ≠ x

/-- A compaction may be installed: a document that was written again since it was
copied lies above the output or is the same, and every put of a document the
store does not hold is followed by another put or by a delete of at least its
version. -/
structure InstallOk (s : BinaryDocumentStore) (c : CompletedSegmentCompaction) : Prop where
  copied : ∀ x loc doc, s.locations.get? x = some loc → loc.segment ∉ c.oldSegmentIds →
    loc.segment < c.newSegmentId → s.dir.readDocumentAtPath loc.segment loc.offset = .ok doc →
    ∀ p ∈ recordsIn c.bytes, Harmless doc p.record
  deleted : ∀ p ∈ placedRecords (installedSegments s c), ∀ doc, p.2.record = .put doc →
    s.locations.get? doc.externalId = none →
    ∃ q ∈ placedRecords (installedSegments s c), Before p q ∧ Supersedes doc q.2.record

namespace StoreRun

open List

def StepOk (r : StoreRun) : StoreStep → Prop
  | .put doc => PutOk r.store doc.1
  | .putBatch docs => ∀ doc ∈ docs, PutOk r.store doc.1
  | .delete x => r.store.locations.get? x ≠ none → DeleteOk r.store x
  | .installCompaction => ∀ c, r.compacting = .completed c → InstallOk r.store c
  | _ => True

def Meets (r : StoreRun) : List StoreStep → Prop
  | [] => True
  | st :: steps => r.StepOk st ∧ ∀ r', r.step st = .ok r' → r'.Meets steps

def Agrees (r : StoreRun) : Prop :=
  Agree r.store.locations (placedRecords r.store.dir.segments)

variable {r : StoreRun} {logs : Logs}

theorem Valid.placed (h : r.Valid logs) :
    placedRecords r.store.dir.segments = allPlaced logs :=
  placedRecords_eq h.store.segments h.store.fit

theorem Agrees.putOne {l : SegmentLog} (h : r.Valid logs) (hagree : r.Agrees)
    (hl : logs.get? r.store.currentSegment = some l) (hdoc : doc.Fits)
    (hput : PutOk r.store doc) : Agrees { r with store := r.store.putOne doc } := by
  have hplaced := (h.putOne hl hdoc).placed
  have hstart : ((r.store.dir.segments.get? r.store.currentSegment).getD []).length =
      l.bytes.length := by
    rw [h.store.get?_segments, hl]
    rfl
  rw [Agrees, hplaced]
  rw [Agrees, h.placed] at hagree
  rw [PutOk, h.placed] at hput
  have := hagree.put hl hput
  show Agree (r.store.locations.insert _ (locationAt _ _ doc)) _
  rw [hstart]
  exact this

theorem PutOk.putOne {l : SegmentLog} (h : r.Valid logs)
    (hl : logs.get? r.store.currentSegment = some l) {doc doc' : StoredDocument} (hdoc : doc.Fits)
    (hput : PutOk r.store doc') : PutOk (r.store.putOne doc) doc' := by
  intro q hq hlt
  rw [(h.putOne hl hdoc).placed, mem_allPlaced_push hl] at hq
  rcases hq with hold | rfl
  · exact hput q (by rw [h.placed]; exact hold) hlt
  · exact absurd hlt (lt_irrefl _)

theorem Agrees.foldl_putOne (h : r.Valid logs) (hagree : r.Agrees) (docs : List StoredDocument)
    (hdocs : ∀ doc ∈ docs, doc.Fits) (hput : ∀ doc ∈ docs, PutOk r.store doc) :
    Agrees { r with store := docs.foldl BinaryDocumentStore.putOne r.store } := by
  induction docs generalizing r logs with
  | nil => exact hagree
  | cons doc docs ih =>
    obtain ⟨l, hl, -⟩ := h.store.current
    have hfits := hdocs doc mem_cons_self
    refine ih (h.putOne hl hfits) (hagree.putOne h hl hfits (hput doc mem_cons_self))
      (fun d hd => hdocs d (mem_cons_of_mem doc hd)) fun d hd => ?_
    exact PutOk.putOne h hl hfits (hput d (mem_cons_of_mem doc hd))

theorem Agrees.removeOne {l : SegmentLog} (h : r.Valid logs) (hagree : r.Agrees)
    (hl : logs.get? r.store.currentSegment = some l)
    (hx : r.store.locations.get? x = some loc) (hdelete : DeleteOk r.store x) :
    Agrees { r with store := r.store.removeOne x loc.internalId } := by
  rw [Agrees, (h.removeOne hl hx).placed]
  rw [Agrees, h.placed] at hagree
  rw [DeleteOk, h.placed] at hdelete
  exact hagree.delete hl hx hdelete

theorem Agrees.rotated (h : r.Valid logs) (hagree : r.Agrees) :
    Agrees { r with store := r.store.rotated } := by
  rw [Agrees, h.rotated.placed, allPlaced_insert_empty, ← h.placed]
  · exact hagree
  · intro id hid
    obtain ⟨l, hl⟩ := SortedMap.mem_keys.1 hid
    exact h.store.below id l hl

theorem Agrees.maybeRotateSegment (h : r.Valid logs) (hagree : r.Agrees) {s' : BinaryDocumentStore}
    (hrotate : r.store.maybeRotateSegment = .ok s') : Agrees { r with store := s' } := by
  obtain ⟨l, hl, hget⟩ := h.current_bytes
  rw [maybeRotateSegment_ok hget] at hrotate
  cases hrotate
  split_ifs
  · exact hagree
  · exact hagree.rotated h

section Install

variable {c : CompletedSegmentCompaction} {docs : List StoredDocument}

theorem mem_allPlaced_installed (hc : c.Ok r.store logs docs) :
    q ∈ allPlaced (installedLogs logs c docs) ↔
      q ∈ allPlaced logs ∧ q.1 ∉ c.oldSegmentIds ∨
      q.1 = c.newSegmentId ∧ q.2 ∈ place 8 (docs.map .put) := by
  rw [mem_allPlaced, mem_allPlaced, get?_installedLogs]
  by_cases hold : q.1 ∈ c.oldSegmentIds
  · rw [if_pos hold]
    constructor
    · rintro ⟨l, hl, -⟩
      cases hl
    · rintro (⟨-, hnot⟩ | ⟨hnew, -⟩)
      · exact absurd hold hnot
      · rw [hnew] at hold
        exact absurd hold hc.new_not_old
  · rw [if_neg hold]
    by_cases hnew : q.1 = c.newSegmentId
    · rw [if_pos hnew, hnew, hc.free]
      constructor
      · rintro ⟨l, hl, hmem⟩
        cases hl
        exact .inr ⟨rfl, hmem⟩
      · rintro (⟨⟨l, hl, -⟩, -⟩ | ⟨-, hmem⟩)
        · cases hl
        · exact ⟨_, rfl, hmem⟩
    · rw [if_neg hnew]
      exact ⟨fun h => .inl ⟨h, hold⟩, fun h => (h.resolve_right fun hin => hnew hin.1).1⟩

theorem copies_eq (hc : c.Ok r.store logs docs) {p q : PlacedRecord}
    (hp : p ∈ place 8 (docs.map .put)) (hq : q ∈ place 8 (docs.map .put))
    (hext : p.record.externalId = q.record.externalId) : p = q := by
  have hnodup : ((place 8 (docs.map .put)).map fun p => p.record.externalId).Nodup := by
    have hmap : (place 8 (docs.map .put)).map (fun p => p.record.externalId) =
        docs.map StoredDocument.externalId := by
      generalize 8 = pos
      clear hp hq hext hc
      induction docs generalizing pos with
      | nil => rfl
      | cons doc docs ih =>
        rw [map_cons, place, map_cons, ih, map_cons]
        rfl
    rw [hmap]
    exact hc.nodup
  exact inj_on_of_nodup_map hnodup hp hq hext

theorem Agrees.install (h : r.Valid logs) (hagree : r.Agrees) (hc : c.Ok r.store logs docs)
    (hok : InstallOk r.store c) :
    Agrees ⟨(r.store.installSegmentCompaction c).2, .idle⟩ := by
  have hinst := h.installed hc
  have hcopies : recordsIn c.bytes = place 8 (docs.map .put) := by
    have hget : (installedLogs logs c docs).get? c.newSegmentId = some (outputLog docs) := by
      rw [get?_installedLogs, if_neg hc.new_not_old, if_pos rfl]
    rw [hc.bytes]
    exact recordsIn_bytes (hinst.store.fit _ _ hget)
  have hsegs : placedRecords (installedSegments r.store c) =
      allPlaced (installedLogs logs c docs) := hinst.placed
  rw [Agrees, hinst.placed]
  rw [Agrees, h.placed] at hagree
  constructor
  · intro x loc' hx'
    obtain ⟨hnone, hsome⟩ := install_locations hc x
    cases hx : r.store.locations.get? x with
    | none =>
      rw [hnone hx] at hx'
      cases hx'
    | some loc =>
      obtain ⟨p, doc, hnew, hdoc, hloc⟩ := hagree.live x loc hx
      have hseg : loc.segment = p.1 := by rw [hloc]; rfl
      have hat : At logs loc doc := by
        rw [hloc]
        exact at_of_mem_allPlaced hnew.mem hnew.record
      by_cases hold : loc.segment ∈ c.oldSegmentIds
      · -- the entry moves to the copy in the output
        obtain ⟨loc'', doc', hloc'', hout, hmem, hid, hat₀, hat'⟩ := (hsome loc hx).2 hold
        rw [hloc''] at hx'
        cases hx'
        cases hat₀.unique hat h.store.fit
        obtain ⟨copy, hplaced, hrec, hplace⟩ := hat'.placed
        have hfst : copy.1 = c.newSegmentId := by
          rw [← hout, hplace]
          rfl
        refine ⟨copy, doc, ⟨hplaced, hrec, fun q hq hbefore => ?_⟩, hdoc, hplace⟩
        rcases (mem_allPlaced_installed hc).1 hq with ⟨hq', -⟩ | ⟨hnewq, hq'⟩
        · -- a record above the output was read after the old place too
          refine hnew.last q hq' (.inl ?_)
          have hlt : p.1 < c.newSegmentId := hseg ▸ hc.old_lt_out _ hold
          rw [Before] at hbefore
          omega
        · by_cases hsame : q.2.record.externalId = doc.externalId
          · have hin : copy.2 ∈ place 8 (docs.map .put) := by
              rcases (mem_allPlaced_installed hc).1 hplaced with ⟨hin, -⟩ | ⟨-, hin⟩
              · obtain ⟨l, hl, -⟩ := mem_allPlaced.1 hin
                rw [hfst, hc.free] at hl
                cases hl
              · exact hin
            have hcopy : copy.2 = q.2 := copies_eq hc hin hq' (by rw [hrec]; exact hsame.symm)
            have hsameq : copy = q := Prod.ext (hfst.trans hnewq.symm) hcopy
            rw [hsameq] at hbefore
            exact absurd hbefore (Before.irrefl q)
          · exact harmless_of_ne hsame
      · rw [(hsome loc hx).1 hold] at hx'
        cases hx'
        refine ⟨p, doc, ⟨(mem_allPlaced_installed hc).2 (.inl ⟨hnew.mem, hseg ▸ hold⟩), hnew.record,
          fun q hq hbefore => ?_⟩, hdoc, hloc⟩
        rcases (mem_allPlaced_installed hc).1 hq with ⟨hq', -⟩ | ⟨hnewq, hq'⟩
        · exact hnew.last q hq' hbefore
        · -- a copy of an older version is read after `p` only below the output
          have hlt : loc'.segment < c.newSegmentId := by
            rcases hbefore with hlt | ⟨heq, -⟩
            · omega
            · obtain ⟨l, hl, -⟩ := mem_allPlaced.1 hnew.mem
              rw [heq, hnewq, hc.free] at hl
              cases hl
          have hread := hat.read h.store.fit h.store.segments
          exact hok.copied x loc' doc hx hold hlt hread q.2 (hcopies ▸ hq')
  · intro x hx p doc hsurvives hdoc
    have hx₀ : r.store.locations.get? x = none := by
      by_contra hne
      obtain ⟨loc, hloc⟩ := ne_none_iff_exists'.1 hne
      obtain ⟨-, hsome⟩ := install_locations hc x
      by_cases hold : loc.segment ∈ c.oldSegmentIds
      · obtain ⟨loc', _, hloc', -⟩ := (hsome loc hloc).2 hold
        rw [hx] at hloc'
        cases hloc'
      · rw [(hsome loc hloc).1 hold] at hx
        cases hx
    obtain ⟨q, hq, hbefore, hsup⟩ := hok.deleted p (hsegs ▸ hsurvives.mem) doc hsurvives.record
      (by rw [hdoc]; exact hx₀)
    exact hsurvives.last q (hsegs ▸ hq) hbefore hsup

end Install

theorem Agrees.reopen (h : r.Valid logs) (hagree : r.Agrees) {s' : BinaryDocumentStore}
    (hopen : openWithMaps r.store.dir = .ok s') : Agrees ⟨s', .idle⟩ := by
  obtain ⟨s'', logs', hopen', hvalid, hlogs, hsaved, hscan, -⟩ := h.reopened
  rw [hopen] at hopen'
  cases hopen'
  have hplaced : allPlaced logs' = allPlaced logs := by
    rcases hlogs with rfl | ⟨id, hgt, rfl⟩
    · rfl
    · exact allPlaced_insert_empty hgt
  rw [Agrees, hvalid.placed, hplaced]
  by_cases hm : r.store.dir.maps = none
  · show Agree s'.locations _
    rw [hscan hm]
    exact agree_replay (allPlaced_pairwise logs) _ _
  · show Agree s'.locations _
    rw [hsaved hm, ← h.placed]
    exact hagree

theorem Agrees.step (h : r.Valid logs) (hagree : r.Agrees) {st : StoreStep} (hst : r.StepOk st)
    {r' : StoreRun} (hstep : r.step st = .ok r') : r'.Agrees := by
  by_cases hquiet : Valid.Quiet r st
  · obtain ⟨r₁, hstep₁, -, hdir, hloc, -⟩ := h.quiet hquiet
    rw [hstep₁] at hstep
    cases hstep
    show Agree r'.store.locations (placedRecords r'.store.dir.segments)
    rw [hloc, hdir]
    exact hagree
  obtain ⟨l, hl, hget⟩ := h.current_bytes
  cases st with
  | put doc =>
    have hput : Agrees { r with store := (r.store.putOne doc.1).raise doc.1.internalId } :=
      hagree.putOne h hl doc.2 hst
    rw [StoreRun.step, put_eq hget] at hstep
    split_ifs at hstep
    · cases hstep
      exact hput
    · cases hstep
      exact hput.rotated ((h.putOne hl doc.2).raise doc.1.internalId)
  | putBatch docs =>
    have hfits := StoreRun.Valid.fits_of_batch docs
    have hok : ∀ doc ∈ docs.map Subtype.val, PutOk r.store doc := by
      intro doc hdoc
      obtain ⟨d, hd, rfl⟩ := mem_map.1 hdoc
      exact hst d hd
    obtain ⟨logs', hbatch⟩ := h.foldl_putOne hfits
    obtain ⟨s', logs'', hrotate, -⟩ := hbatch.maybeRotateSegment
    have hstep' : r.step (.putBatch docs) = .ok { r with store := s' } := by
      show r.withStore (BinaryDocumentStore.maybeRotateSegment
        ((docs.map Subtype.val).foldl BinaryDocumentStore.putOne r.store)) = _
      rw [hrotate]
      rfl
    rw [hstep'] at hstep
    cases hstep
    exact (hagree.foldl_putOne h _ hfits hok).maybeRotateSegment hbatch hrotate
  | delete x =>
    obtain ⟨loc, hx⟩ := ne_none_iff_exists'.1 hquiet
    have hdelete := hagree.removeOne h hl hx (hst (by simp [hx]))
    rw [StoreRun.step, delete_eq hget hx] at hstep
    split_ifs at hstep
    · cases hstep
      exact hdelete
    · cases hstep
      exact hdelete.rotated (h.removeOne hl hx)
  | saveMaps =>
    cases hstep
    exact hagree
  | installCompaction =>
    obtain ⟨c, hc⟩ := not_not.1 hquiet
    obtain ⟨docs, hok⟩ := h.completed_ok hc
    have hinstalled := hagree.install h hok (hst c hc)
    rw [StoreRun.step, hc] at hstep
    cases hstep
    exact hinstalled
  | reopen =>
    obtain ⟨s', logs', hopen, -⟩ := h.reopened
    rw [StoreRun.step, hopen] at hstep
    cases hstep
    exact hagree.reopen h hopen
  | _ => exact absurd trivial hquiet

theorem Agrees.run (h : r.Valid logs) (hagree : r.Agrees) {steps : List StoreStep}
    (hmeets : r.Meets steps) {r' : StoreRun} (hrun : r.run steps = .ok r') :
    ∃ logs', r'.Valid logs' ∧ r'.Agrees := by
  induction steps generalizing r logs with
  | nil =>
    cases hrun
    exact ⟨logs, h, hagree⟩
  | cons st steps ih =>
    obtain ⟨r₁, logs₁, hstep, hvalid⟩ := h.step st
    rw [run, foldlM_cons, hstep] at hrun
    exact ih hvalid (hagree.step h hmeets.1 hstep) (hmeets.2 r₁ hstep) hrun

end StoreRun

/-! ### The two loads -/

def StoreDir.Loading.fetch (l : Loading) (x : String) : Option (DocId × ByteSeq) :=
  (l.locations.get? x).bind fun loc =>
    ((⟨l.segments, none⟩ : StoreDir).readDocumentAtPath loc.segment loc.offset).toOption.map
      fun doc => (loc.internalId, doc.source)

theorem fetch_none {l : Loading} (h : l.locations.get? x = none) : l.fetch x = none := by
  rw [Loading.fetch, h]
  rfl

theorem fetch_some {l : Loading} (hseg : l.segments = logs.map SegmentLog.bytes) (hfit : logs.Fit)
    (hx : l.locations.get? x = some loc) (hat : At logs loc doc) :
    l.fetch x = some (doc.internalId, doc.source) := by
  have hread : (⟨l.segments, none⟩ : StoreDir).readDocumentAtPath loc.segment loc.offset = .ok doc :=
    hat.read hfit hseg
  rw [Loading.fetch, hx, bind_some, hread, hat.internalId]
  rfl

theorem StoreRun.Agrees.fetch_load {r : StoreRun} (h : r.Valid logs)
    (hagree : r.Agrees) (x : String) {highest : DocId} :
    (Loading.replay ⟨r.store.dir.segments, .empty, 0⟩ (allPlaced logs)).fetch x =
      Loading.fetch ⟨r.store.dir.segments, r.store.locations, highest⟩ x := by
  have hasc := allPlaced_pairwise logs
  rw [Agrees, h.placed] at hagree
  have hseg : (Loading.replay ⟨r.store.dir.segments, .empty, 0⟩ (allPlaced logs)).segments =
      logs.map SegmentLog.bytes := (Loading.replay_segments _ _).trans h.store.segments
  cases hx : r.store.locations.get? x with
  | none =>
    rw [fetch_none (l := ⟨r.store.dir.segments, r.store.locations, highest⟩) hx]
    refine fetch_none ?_
    by_contra hne
    obtain ⟨loc, hloc⟩ := ne_none_iff_exists'.1 hne
    obtain ⟨p, doc, hsurvives, hdoc, -⟩ := located_replay_some hasc hloc
    exact hagree.absent x hx p doc hsurvives hdoc
  | some loc =>
    obtain ⟨p, doc, hnew, rfl, rfl⟩ := hagree.live x loc hx
    obtain ⟨p', doc', hp', hrec', -, hid, hsrc, hloc'⟩ := replay_newest r.store.dir.segments 0 hasc hnew
    rw [fetch_some hseg h.store.fit hloc' (at_of_mem_allPlaced hp' hrec'),
      fetch_some (l := ⟨r.store.dir.segments, r.store.locations, highest⟩) h.store.segments
        h.store.fit hx (at_of_mem_allPlaced hnew.mem hnew.record), hid, hsrc]

theorem StoreRun.agrees_new : StoreRun.new.Agrees := by
  rw [Agrees, valid_new.placed]
  constructor
  · intro x loc hx
    cases hx
  · intro x _ p doc hsurvives _
    cases hsurvives.mem

/-- **The two ways to open a store agree** in every state of every run whose steps
meet `StepOk`: both succeed, and a full scan gives the same ids and sources as the
saved maps. -/
theorem StoreRun.loads_agree (steps : List StoreStep) (r : StoreRun)
    (hrun : StoreRun.new.run steps = .ok r) (hmeets : StoreRun.new.Meets steps) :
    ∃ scanned saved, load r.store.dir = .ok scanned ∧ loadFromMaps r.store.dir = .ok saved ∧
      ∀ l, saved = some l → ∀ x, scanned.fetch x = l.fetch x := by
  obtain ⟨logs, hvalid, hagree⟩ := agrees_new.run valid_new hmeets hrun
  have hload := load_ok hvalid.store.segments hvalid.store.fit
  cases hm : r.store.dir.maps with
  | none =>
    refine ⟨_, none, hload, ?_, by simp⟩
    rw [loadFromMaps, hm]
  | some m =>
    obtain ⟨base, locs, hmaps⟩ := hvalid.maps m hm
    obtain ⟨l, hl, hseg, hloc, -⟩ := loadFromMaps_ok hvalid.store hm hmaps
    refine ⟨_, some l, hload, hl, fun l' hl' x => ?_⟩
    cases hl'
    rw [hagree.fetch_load hvalid x, ← hseg, ← hloc]

/-! ### A run with a compaction and an update -/

theorem StoreRun.Valid.record_mem {r : StoreRun} (h : r.Valid logs) {q : SegmentRecord}
    (hq : q ∈ placedRecords r.store.dir.segments) :
    ∃ l, logs.get? q.1 = some l ∧ q.2.record ∈ l.records := by
  rw [h.placed] at hq
  obtain ⟨l, hl, hmem⟩ := mem_allPlaced.1 hq
  obtain ⟨pre, post, hrs, -⟩ := mem_place hmem
  exact ⟨l, hl, by rw [hrs]; simp⟩

theorem At.mem (h : At logs loc doc) : ∃ l, logs.get? loc.segment = some l ∧ .put doc ∈ l.records := by
  obtain ⟨l, pre, post, hl, hrs, -⟩ := h
  exact ⟨l, hl, by rw [hrs]; simp⟩

namespace StoreRun

section Updating

open SortedMap

variable {big new last : FittingDocument}

theorem get?_fullLogs {id : ℕ} {l : SegmentLog} (hl : (fullLogs big.1).get? id = some l) :
    id = 0 ∧ l = ⟨false, [.put big.1]⟩ ∨ id = 1 ∧ l = ⟨false, []⟩ := by
  rw [fullLogs, get?_insert] at hl
  split_ifs at hl with h1
  · cases hl
    exact .inr ⟨h1, rfl⟩
  · rw [Logs.push, get?_insert] at hl
    split_ifs at hl with h0
    · cases hl
      exact .inl ⟨h0, rfl⟩
    · exact absurd (newLogs_get? hl).1 h0

theorem get?_writtenLogs {id : ℕ} {l : SegmentLog} (hl : (writtenLogs big.1 new.1).get? id = some l) :
    id = 0 ∧ l = ⟨false, [.put big.1]⟩ ∨ id = 1 ∧ l = ⟨false, [.put new.1]⟩ := by
  rw [writtenLogs, Logs.push, get?_insert] at hl
  split_ifs at hl with h1
  · cases hl
    exact .inr ⟨h1, rfl⟩
  · rcases get?_fullLogs hl with h | ⟨h, -⟩
    · exact .inl h
    · exact absurd h h1

def movedStore (big new : StoredDocument) (c : CompletedSegmentCompaction) : BinaryDocumentStore :=
  ((writtenStore big new).installSegmentCompaction c).2

/-- The compaction of the segment that `big` filled, made while `new` was written. -/
structure Rewritten (big new : FittingDocument) (c : CompletedSegmentCompaction)
    (docs : List StoredDocument) : Prop where
  old : c.oldSegmentIds = [0]
  newId : c.newSegmentId = 2
  valid : Valid ⟨writtenStore big.1 new.1, .completed c⟩ (writtenLogs big.1 new.1)
  ok : c.Ok (writtenStore big.1 new.1) (writtenLogs big.1 new.1) docs
  copies : ∀ doc ∈ docs, doc = big.1

/-- The run up to the install. -/
theorem written_run (hbig : defaultSegmentSize ≤ big.1.source.length)
    (hsmall : (magic ++ (StoreRecord.put new.1).encode).length < defaultSegmentSize) :
    ∃ c docs, StoreRun.new.run (rewriting big new) = .ok ⟨writtenStore big.1 new.1, .completed c⟩ ∧
      Rewritten big new c docs ∧ ∀ steps, Meets ⟨writtenStore big.1 new.1, .completed c⟩ steps →
        StoreRun.new.Meets (rewriting big new ++ steps) := by
  obtain ⟨snapshot, c, hstep₂, hstep₃, hstep₄, hrun, hold, hnew, hplanned, hvalid⟩ :=
    rewriting_steps hbig hsmall
  obtain ⟨docs, hok⟩ := hvalid.completed_ok rfl
  refine ⟨c, docs, hrun, ⟨hold, hnew, hvalid, hok, fun doc hdoc => ?_⟩, fun steps hsteps => ?_⟩
  · obtain ⟨loc, hloc, hat⟩ := hok.origin doc hdoc
    rw [hold, mem_singleton] at hloc
    obtain ⟨l, hl, hmem⟩ := hat.mem
    rw [hloc] at hl
    rcases get?_writtenLogs hl with ⟨-, rfl⟩ | ⟨h, -⟩
    · simpa using hmem
    · cases h
  · refine ⟨fun q hq _ => ?_, fun r hr => ?_⟩
    · rw [valid_new.placed] at hq
      cases hq
    obtain rfl := Except.ok.inj ((step_put_big hbig).symm.trans hr)
    refine ⟨trivial, fun r hr => ?_⟩
    obtain rfl := Except.ok.inj (hstep₂.symm.trans hr)
    refine ⟨trivial, fun r hr => ?_⟩
    obtain rfl := Except.ok.inj (hstep₃.symm.trans hr)
    refine ⟨fun q hq (hlt : 1 < q.1) => ?_, fun r hr => ?_⟩
    · obtain ⟨l, hl, -⟩ := hplanned.record_mem hq
      rcases get?_fullLogs hl with ⟨h, -⟩ | ⟨h, -⟩ <;> omega
    · obtain rfl := Except.ok.inj (hstep₄.symm.trans hr)
      exact hsteps

namespace Rewritten

variable {c : CompletedSegmentCompaction} {docs : List StoredDocument}

theorem installed (w : Rewritten big new c docs) :
    Valid ⟨movedStore big.1 new.1 c, .idle⟩ (installedLogs (writtenLogs big.1 new.1) c docs) :=
  w.valid.installed w.ok

/-- After the install the files hold one record each. -/
theorem record (w : Rewritten big new c docs) {q : SegmentRecord}
    (hq : q ∈ placedRecords (movedStore big.1 new.1 c).dir.segments) :
    q.1 = 1 ∧ q.2.record = .put new.1 ∨ q.1 = 2 ∧ q.2.record = .put big.1 := by
  obtain ⟨l, hl, hmem⟩ := w.installed.record_mem hq
  rw [get?_installedLogs, w.old, w.newId] at hl
  split_ifs at hl with h0 h2
  · cases hl
    obtain ⟨doc, hdoc, heq⟩ := mem_map.1 hmem
    exact .inr ⟨h2, by rw [← heq, w.copies doc hdoc]⟩
  · rcases get?_writtenLogs hl with ⟨h, -⟩ | ⟨h1, rfl⟩
    · exact absurd (mem_singleton.2 h) h0
    · exact .inl ⟨h1, by simpa using hmem⟩

theorem location_big (hother : big.1.externalId ≠ new.1.externalId) :
    (writtenStore big.1 new.1).locations.get? big.1.externalId = some (locationAt 0 8 big.1) := by
  show (insert (insert .empty big.1.externalId _) new.1.externalId _).get? _ = _
  rw [get?_insert, if_neg hother, get?_insert, if_pos rfl]
  rfl

theorem location_moved (w : Rewritten big new c docs) (hother : big.1.externalId ≠ new.1.externalId) :
    ((movedStore big.1 new.1 c).locations.get? big.1.externalId).map DocLocation.internalId =
      some big.1.internalId := by
  obtain ⟨loc, doc, hloc, -, hdoc, -, -, hat⟩ :=
    ((install_locations w.ok big.1.externalId).2 _ (location_big hother)).2
      (by rw [w.old]; exact mem_singleton_self 0)
  rw [movedStore, hloc, map_some, hat.internalId, w.copies doc hdoc]

theorem installOk (w : Rewritten big new c docs) (hother : big.1.externalId ≠ new.1.externalId) :
    InstallOk (writtenStore big.1 new.1) c := by
  refine ⟨fun x loc doc hloc hseg hlt hread p hp => ?_, fun p hp doc hrec hnone => ?_⟩
  · -- the copies are of `big`, what stays in its place is `new`
    rw [w.ok.bytes, recordsIn_bytes (w.installed.store.fit c.newSegmentId _ (by
      rw [get?_installedLogs, if_neg w.ok.new_not_old, if_pos rfl]))] at hp
    obtain ⟨pre, post, hrs, -⟩ := mem_place hp
    have hmem : p.record ∈ docs.map StoreRecord.put := by
      show p.record ∈ (outputLog docs).records
      rw [hrs]
      simp
    obtain ⟨copy, hcopy, heq⟩ := mem_map.1 hmem
    obtain ⟨doc', -, hat⟩ := w.valid.store.located x loc hloc
    obtain rfl : doc' = doc :=
      Except.ok.inj ((hat.read w.valid.store.fit w.valid.store.segments).symm.trans hread)
    obtain ⟨l, hl, hdoc⟩ := hat.mem
    rw [w.old, mem_singleton] at hseg
    rcases get?_writtenLogs hl with ⟨h, -⟩ | ⟨-, rfl⟩
    · exact absurd h hseg
    · obtain rfl : doc' = new.1 := by simpa using hdoc
      rw [← heq, w.copies copy hcopy]
      exact harmless_of_ne hother
  · rcases w.record hp with ⟨-, h⟩ | ⟨-, h⟩
    · obtain rfl := StoreRecord.put.inj (hrec.symm.trans h)
      rw [newAt_written] at hnone
      cases hnone
    · obtain rfl := StoreRecord.put.inj (hrec.symm.trans h)
      rw [location_big hother] at hnone
      cases hnone

theorem putOk (w : Rewritten big new c docs) (hother : big.1.externalId ≠ last.1.externalId) :
    PutOk (movedStore big.1 new.1 c) last.1 := by
  intro q hq (hlt : 1 < q.1)
  rcases w.record hq with ⟨h, -⟩ | ⟨-, h⟩
  · omega
  · rw [h]
    exact harmless_of_ne hother

theorem liveSegment (w : Rewritten big new c docs) :
    (movedStore big.1 new.1 c).dir.segments.get? 1 = some (magic ++ (StoreRecord.put new.1).encode) := by
  have hl : (installedLogs (writtenLogs big.1 new.1) c docs).get? 1 = some ⟨false, [.put new.1]⟩ := by
    rw [get?_installedLogs, w.old, w.newId, if_neg (by decide), if_neg (by decide), writtenLogs,
      Logs.push, get?_insert, if_pos rfl]
    rfl
  have hbytes : magic ++ (StoreRecord.put new.1).encode = SegmentLog.bytes ⟨false, [.put new.1]⟩ :=
    congrArg (magic ++ ·) (append_nil _).symm
  rw [hbytes, ← map_some, ← hl]
  exact w.installed.store.get?_segments 1

theorem step_put (w : Rewritten big new c docs)
    (hsmall : (magic ++ (StoreRecord.put new.1).encode ++ (StoreRecord.put last.1).encode).length < defaultSegmentSize) :
    step ⟨movedStore big.1 new.1 c, .idle⟩ (.put last) =
      .ok ⟨((movedStore big.1 new.1 c).putOne last.1).raise last.1.internalId, .idle⟩ := by
  rw [step, put_eq w.liveSegment, if_pos hsmall]
  rfl

end Rewritten

/-- Another document is written while the segment is compacted, and again after the install. -/
theorem updated_run (hbig : defaultSegmentSize ≤ big.1.source.length)
    (hsmall : (magic ++ (StoreRecord.put new.1).encode ++ (StoreRecord.put last.1).encode).length < defaultSegmentSize)
    (hother : big.1.externalId ≠ new.1.externalId) (hsame : last.1.externalId = new.1.externalId) :
    ∃ r, StoreRun.new.run (rewriting big new ++ [.installCompaction, .put last]) = .ok r ∧
      StoreRun.new.Meets (rewriting big new ++ [.installCompaction, .put last]) ∧ r.store.dir.maps ≠ none ∧
      (r.store.locations.get? big.1.externalId).map DocLocation.internalId = some big.1.internalId ∧
      (r.store.locations.get? new.1.externalId).map DocLocation.internalId = some last.1.internalId := by
  have hfirst : (magic ++ (StoreRecord.put new.1).encode).length < defaultSegmentSize := by
    rw [length_append] at hsmall
    omega
  have hlast : big.1.externalId ≠ last.1.externalId := hsame ▸ hother
  obtain ⟨c, docs, hrun, w, hmeets⟩ := written_run hbig hfirst
  have hinstall : step ⟨writtenStore big.1 new.1, .completed c⟩ .installCompaction =
      .ok ⟨movedStore big.1 new.1 c, .idle⟩ := rfl
  refine ⟨⟨((movedStore big.1 new.1 c).putOne last.1).raise last.1.internalId, .idle⟩, ?_,
    hmeets [.installCompaction, .put last] ⟨?_, fun r hr => ?_⟩, some_ne_none _, ?_, ?_⟩
  · rw [run, foldlM_append]
    show Except.bind (StoreRun.new.run (rewriting big new)) _ = _
    rw [hrun]
    show foldlM step ⟨writtenStore big.1 new.1, .completed c⟩ _ = _
    rw [foldlM_cons, hinstall]
    show foldlM step ⟨movedStore big.1 new.1 c, .idle⟩ _ = _
    rw [foldlM_cons, w.step_put hsmall]
    rfl
  · rintro c' heq
    cases heq
    exact w.installOk hother
  · obtain rfl := Except.ok.inj (hinstall.symm.trans hr)
    exact ⟨w.putOk hlast, fun _ _ => trivial⟩
  · show Option.map _ (SortedMap.get? (SortedMap.insert _ last.1.externalId _) _) = _
    rw [get?_insert, if_neg hlast]
    exact w.location_moved hother
  · show Option.map _ (SortedMap.get? (SortedMap.insert _ last.1.externalId _) _) = _
    rw [get?_insert, if_pos hsame.symm]
    rfl

end Updating

def secondSample : FittingDocument := ⟨⟨"b", 2, .json, [2]⟩, by decide, by decide⟩

def thirdSample : FittingDocument := ⟨⟨"b", 3, .json, [1]⟩, by decide, by decide⟩

/-- A run with an installed compaction and an update: both loads give the first id of the document that
was moved and the second id of the one that was written again. -/
theorem updated_loads_agree :
    let steps := rewriting bigSample secondSample ++ [.installCompaction, .put thirdSample]
    ∃ r scanned saved, StoreRun.new.run steps = .ok r ∧ StoreRun.new.Meets steps ∧
      load r.store.dir = .ok scanned ∧ loadFromMaps r.store.dir = .ok (some saved) ∧
      (∀ x, scanned.fetch x = saved.fetch x) ∧
      (scanned.fetch "a").map Prod.fst = some 1 ∧ (scanned.fetch "b").map Prod.fst = some 3 := by
  intro steps
  obtain ⟨r, hrun, hmeets, hmaps, ha, hb⟩ := @updated_run bigSample secondSample thirdSample
    defaultSegmentSize_le_bigSample (by decide) (by decide) rfl
  obtain ⟨scanned, saved, hload, hsaved, hsame⟩ := loads_agree steps r hrun hmeets
  obtain ⟨r', logs, hrun', hvalid⟩ := ok_run steps
  obtain rfl := Except.ok.inj (hrun.symm.trans hrun')
  obtain ⟨m, hm⟩ := ne_none_iff_exists'.1 hmaps
  obtain ⟨base, locs, hmapsOk⟩ := hvalid.maps m hm
  obtain ⟨l, hl, hseg, hlocs, -⟩ := loadFromMaps_ok hvalid.store hm hmapsOk
  obtain rfl : saved = some l := Except.ok.inj (hsaved.symm.trans hl)
  have hfetch : ∀ x id, (r.store.locations.get? x).map DocLocation.internalId = some id →
      (scanned.fetch x).map Prod.fst = some id := by
    intro x id hid
    obtain ⟨loc, hloc, rfl⟩ := map_eq_some_iff.1 hid
    obtain ⟨doc, -, hat⟩ := hvalid.store.located x loc hloc
    rw [hsame l rfl x, fetch_some (hseg.trans hvalid.store.segments) hvalid.store.fit (by rw [hlocs]; exact hloc) hat,
      hat.internalId]
    rfl
  exact ⟨r, scanned, l, hrun, hmeets, hload, hl, hsame l rfl, hfetch "a" 1 ha, hfetch "b" 3 hb⟩

end StoreRun

theorem survives_installed {r : StoreRun} {c : CompletedSegmentCompaction}
    {docs : List StoredDocument} (h : r.Valid logs) (hc : c.Ok r.store logs docs)
    (htop : r.store.nextSegmentId = c.newSegmentId + 1) (hdoc : doc ∈ docs) :
    ∃ p, Survives (allPlaced (installedLogs logs c docs)) p doc := by
  obtain ⟨pre, post, hsplit⟩ := append_of_mem hdoc
  have hget : (installedLogs logs c docs).get? c.newSegmentId = some (outputLog docs) := by
    rw [get?_installedLogs, if_neg hc.new_not_old, if_pos rfl]
  obtain ⟨p, hp, hrec, hloc⟩ := (BinaryDocumentStore.Ok.at_copies hsplit hget).placed
  have hfst : p.1 = c.newSegmentId := (congrArg DocLocation.segment hloc).symm
  have hcopy : ∀ q ∈ allPlaced (installedLogs logs c docs), q.1 = c.newSegmentId →
      q.2 ∈ place 8 (docs.map .put) := by
    intro q hq heq
    obtain ⟨l, hl, hmem⟩ := mem_allPlaced.1 hq
    rw [heq, hget] at hl
    cases hl
    exact hmem
  refine ⟨p, hp, hrec, fun q hq hbefore hsup => ?_⟩
  have hle : q.1 ≤ c.newSegmentId := by
    obtain ⟨l, hl, -⟩ := mem_allPlaced.1 hq
    have : q.1 < r.store.nextSegmentId := (h.store.install hc).below q.1 l hl
    omega
  have heq : q.1 = c.newSegmentId := by
    rw [Before] at hbefore
    omega
  obtain ⟨_, hput, hqrec⟩ : ∃ d, d ∈ docs ∧ q.2.record = .put d := by
    obtain ⟨pre', post', hrs, -⟩ := mem_place (hcopy q hq heq)
    obtain ⟨d, hd, hdq⟩ := mem_map.1
      (show q.2.record ∈ docs.map .put by rw [hrs]; simp)
    exact ⟨d, hd, hdq.symm⟩
  rw [hqrec] at hsup
  have hsame := StoreRun.copies_eq hc (hcopy p hp hfst) (hcopy q hq heq)
    (by rw [hrec, hqrec]; exact Eq.symm hsup)
  exact Before.irrefl q (Prod.ext (hfst.trans heq.symm) hsame ▸ hbefore)

/-- A document is copied by a compaction and written again before the install:
the full scan gives the old copy, which lies in the higher segment, and the saved
maps the new version. -/
theorem StoreRun.rewritten_loads_differ :
    ∃ r scanned saved,
      StoreRun.new.run (rewriting bigSample newSample ++ [.installCompaction]) = .ok r ∧
      load r.store.dir = .ok scanned ∧ loadFromMaps r.store.dir = .ok (some saved) ∧
      (scanned.fetch "a").map Prod.fst = some 1 ∧ (saved.fetch "a").map Prod.fst = some 2 := by
  obtain ⟨r, c, hrun, hc, hout, hnext, hx, e, he, hext, hid⟩ := rewriting_samples
  obtain ⟨r', logs, hrun', hvalid⟩ := ok_run (rewriting bigSample newSample)
  rw [hrun] at hrun'
  cases hrun'
  obtain ⟨docs, hcok⟩ : ∃ docs, c.Ok r.store logs docs := by
    have := hvalid.compacting
    rwa [hc] at this
  have hinst := hvalid.installed hcok
  have hstep : r.step .installCompaction = .ok ⟨(r.store.installSegmentCompaction c).2, .idle⟩ := by
    rw [StoreRun.step, hc]
  -- the copy in the output
  obtain ⟨old, hmem, hold, hone⟩ : ∃ doc ∈ docs, doc.externalId = "a" ∧ doc.internalId = 1 := by
    rw [hcok.newLocations, BinaryDocumentStore.Ok.mem_copies] at he
    obtain ⟨pre, doc, post, hsplit, rfl⟩ := he
    exact ⟨doc, by rw [hsplit]; simp, hext, hid⟩
  obtain ⟨p, hsurvives⟩ := survives_installed hvalid hcok (by rw [hnext, hout]) hmem
  obtain ⟨p', doc', hp', hrec', -, hid', -, hloc'⟩ :=
    replay_newest (r.store.installSegmentCompaction c).2.dir.segments 0 (allPlaced_pairwise _)
      hsurvives.newest
  rw [hold] at hloc'
  -- the entry of the store
  obtain ⟨loc, new, hloc, hat, htwo⟩ : ∃ loc doc,
      (r.store.installSegmentCompaction c).2.locations.get? "a" = some loc ∧
        At (installedLogs logs c docs) loc doc ∧ doc.internalId = 2 := by
    obtain ⟨-, hsome⟩ := install_locations hcok "a"
    by_cases hseg : (locationAt 1 8 newSample.1).segment ∈ c.oldSegmentIds
    · obtain ⟨loc, doc, hloc, -, -, -, hat, hat'⟩ := (hsome _ hx).2 hseg
      exact ⟨loc, doc, hloc, hat', hat.internalId.symm⟩
    · obtain ⟨doc, -, hat⟩ := hvalid.store.located "a" _ hx
      exact ⟨_, doc, (hsome _ hx).1 hseg, hat.installed hcok hseg, hat.internalId.symm⟩
  have hmaps : (r.store.installSegmentCompaction c).2.dir.maps = some _ := rfl
  obtain ⟨base, locs, hmapsOk⟩ := hinst.maps _ hmaps
  obtain ⟨saved, hsaved, hseg, hlocs, -⟩ := loadFromMaps_ok hinst.store hmaps hmapsOk
  refine ⟨_, _, saved, ?_, load_ok hinst.store.segments hinst.store.fit, hsaved, ?_, ?_⟩
  · rw [StoreRun.run, foldlM_append]
    show Except.bind (StoreRun.new.run (rewriting bigSample newSample)) _ = _
    rw [hrun]
    show foldlM StoreRun.step r _ = _
    rw [foldlM_cons, hstep]
    rfl
  · rw [fetch_some ((Loading.replay_segments _ _).trans hinst.store.segments) hinst.store.fit hloc'
      (at_of_mem_allPlaced hp' hrec'), hid', hone]
    rfl
  · rw [fetch_some (hseg.trans hinst.store.segments) hinst.store.fit (by rw [hlocs]; exact hloc) hat,
      htwo]
    rfl

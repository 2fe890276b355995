/-
What the write-ahead log gives back.
-/
import Riets.WalLog

open Wal SortedMap Option

namespace WalRun

def recordsOf (history : List (ℕ × ByteSeq)) (id : ℕ) : List ByteSeq :=
  (history.filter fun e => e.1 = id).map Prod.snd

theorem recordsOf_append (history later : List (ℕ × ByteSeq)) (id : ℕ) :
    recordsOf (history ++ later) id = recordsOf history id ++ recordsOf later id := by
  rw [recordsOf, List.filter_append, List.map_append]
  rfl

theorem recordsOf_singleton (segment : ℕ) (payload : ByteSeq) (id : ℕ) :
    recordsOf [(segment, payload)] id = if id = segment then [payload] else [] := by
  by_cases h : segment = id <;> simp [recordsOf, h, eq_comm]

variable {history : List (ℕ × ByteSeq)} {id : ℕ}

theorem recordsOf_eq_nil (h : ∀ e ∈ history, e.1 ≠ id) :
    recordsOf history id = [] := by
  rw [recordsOf, List.map_eq_nil_iff, List.filter_eq_nil_iff]
  intro e he
  simpa using h e he

theorem flatMap_recordsOf {ids : List ℕ} (hids : ids.Pairwise (· < ·))
    (hsorted : history.Pairwise fun a b => a.1 ≤ b.1)
    (hmem : ∀ e ∈ history, e.1 ∈ ids) :
    ids.flatMap (recordsOf history) = history.map Prod.snd := by
  induction ids generalizing history with
  | nil =>
    have hnil : history = [] := List.eq_nil_iff_forall_not_mem.2 fun e he => by cases hmem e he
    rw [hnil]
    rfl
  | cons id ids ih =>
    obtain ⟨hlt, hids⟩ := List.pairwise_cons.1 hids
    -- the history begins with the records of the first segment
    have hsplit : history =
        history.filter (fun e => e.1 = id) ++ history.filter (fun e => ¬e.1 = id) := by
      have hge : ∀ e ∈ history, id ≤ e.1 := by
        intro e he
        rcases List.mem_cons.1 (hmem e he) with h | h
        · exact le_of_eq h.symm
        · exact le_of_lt (hlt _ h)
      clear ih hmem
      induction history with
      | nil => rfl
      | cons e history ih =>
        obtain ⟨hle, hsorted⟩ := List.pairwise_cons.1 hsorted
        have hge' := fun e he => hge e (List.mem_cons_of_mem _ he)
        by_cases he : e.1 = id
        · rw [List.filter_cons_of_pos (by simpa using he),
            List.filter_cons_of_neg (by simpa using he), List.cons_append, ← ih hsorted hge']
        · have hnone : ∀ e' ∈ history, ¬e'.1 = id := by
            intro e' he' heq
            have h1 := hle e' he'
            have h2 := hge e List.mem_cons_self
            omega
          rw [List.filter_cons_of_neg (by simpa using he),
            List.filter_cons_of_pos (by simpa using he),
            List.filter_eq_nil_iff.2 (by simpa using hnone),
            List.filter_eq_self.2 (by simpa using hnone), List.nil_append]
    have hlater : ∀ e ∈ history.filter (fun e => ¬e.1 = id), e.1 ∈ ids := by
      intro e he
      obtain ⟨he, hne⟩ := List.mem_filter.1 he
      exact (List.mem_cons.1 (hmem e he)).resolve_left (by simpa using hne)
    have hrest := ih hids (hsorted.sublist List.filter_sublist) hlater
    have hsame : ids.flatMap (recordsOf history) =
        ids.flatMap (recordsOf (history.filter fun e => ¬e.1 = id)) := by
      refine List.flatMap_congr fun id' hid' => ?_
      have hne : id' ≠ id := ne_of_gt (hlt id' hid')
      conv_lhs => rw [hsplit]
      rw [recordsOf_append, recordsOf_eq_nil, List.nil_append]
      intro e he
      have := (List.mem_filter.1 he).2
      intro heq
      exact hne (heq.symm.trans (by simpa using this))
    rw [List.flatMap_cons, hsame, hrest]
    conv_rhs => rw [hsplit]
    rw [List.map_append]
    rfl

/-- The invariant of a run: `garbage` lies behind the records of the newest
segment. -/
structure Kept (crc : Crc) (r : WalRun) (garbage : ByteSeq) : Prop where
  sound : r.wal.poisoned = false
  current : r.wal.dir.get? r.wal.segment =
    some (segmentBytes crc 0 (recordsOf r.history r.wal.segment) ++ garbage)
  written : r.wal.writtenOffset = (segmentBytes crc 0 (recordsOf r.history r.wal.segment)).length
  closed : ∀ id bytes, r.wal.dir.get? id = some bytes → id ≠ r.wal.segment →
    bytes = segmentBytes crc 0 (recordsOf r.history id)
  newest : ∀ id ∈ r.wal.dir.keys, id ≤ r.wal.segment
  there : ∀ e ∈ r.history, e.1 ∈ r.wal.dir.keys
  ordered : r.history.Pairwise fun a b => a.1 ≤ b.1
  accepted : ∀ e ∈ r.history, Accepted e.2

variable {crc : Crc} {r : WalRun} {garbage : ByteSeq}

theorem foldlM_ok {α β ε : Type} {f : α → Except ε (List β)} {g : α → List β} {l : List α}
    (h : ∀ a ∈ l, f a = .ok (g a)) (acc : List β) :
    l.foldlM (fun acc a => do
      let out ← f a
      Except.ok (acc ++ out)) acc = .ok (acc ++ l.flatMap g) := by
  induction l generalizing acc with
  | nil => rw [List.flatMap_nil, List.append_nil]; rfl
  | cons a l ih =>
    rw [List.foldlM_cons, h a List.mem_cons_self]
    show List.foldlM _ (acc ++ g a) l = _
    rw [ih (fun b hb => h b (List.mem_cons_of_mem a hb)), List.flatMap_cons, List.append_assoc]

theorem Kept.accepted_recordsOf (h : Kept crc r garbage) (id : ℕ) :
    ∀ p ∈ recordsOf r.history id, Accepted p := by
  intro p hp
  obtain ⟨e, he, rfl⟩ := List.mem_map.1 hp
  exact h.accepted e (List.mem_filter.1 he).1

theorem Kept.replayAll (h : Kept crc r garbage) :
    r.wal.replayAll crc = .ok (r.history.map Prod.snd) := by
  have hsegment : ∀ e ∈ r.wal.dir.entries,
      r.wal.replaySegment crc e = .ok (recordsOf r.history e.1) := by
    intro e he
    have hget : r.wal.dir.get? e.1 = some e.2 := mem_entries.1 he
    have hraw : r.wal.rawSegment e = .ok (segmentBytes crc 0 (recordsOf r.history e.1)) := by
      rw [rawSegment]
      split_ifs with hseg hshort
      · rw [hseg, h.current] at hget
        rw [← some_inj.1 hget, List.length_append, h.written] at hshort
        omega
      · rw [hseg, h.current] at hget
        rw [← some_inj.1 hget, h.written, List.take_left, hseg]
      · rw [h.closed _ _ hget hseg]
    simp only [replaySegment, hraw, bind, Except.bind,
      parseRecords_segmentBytes (h.accepted_recordsOf e.1)]
  rw [Wal.replayAll, foldlM_ok hsegment, List.nil_append]
  have hkeys : r.wal.dir.entries.flatMap (fun e => recordsOf r.history e.1) =
      r.wal.dir.keys.flatMap (recordsOf r.history) := by
    rw [keys, List.flatMap_map]
  rw [hkeys, flatMap_recordsOf r.wal.dir.keys_ascending h.ordered h.there]

/-! ### What each call keeps -/

theorem kept_new (crc : Crc) (mode : SyncMode) : Kept crc (new mode) [] := by
  refine ⟨rfl, rfl, rfl, fun id bytes hget hne => ?_, fun id hid => ?_, by simp [new],
    List.Pairwise.nil, by simp [new]⟩
  · have hne' : id ≠ 1 := hne
    have hget' : (empty.insert 1 []).get? id = some bytes := hget
    rw [get?_insert, if_neg hne'] at hget'
    cases hget'
  · exact le_of_eq (List.mem_singleton.1 hid)

theorem Kept.write_get? (h : Kept crc r garbage) (bytes : ByteSeq) (id : ℕ) :
    (r.wal.write bytes).dir.get? id =
      if id = r.wal.segment then
        some (segmentBytes crc 0 (recordsOf r.history r.wal.segment) ++
          (bytes ++ garbage.drop bytes.length))
      else r.wal.dir.get? id := by
  rw [write, get?_upsert, h.current, getD_some, h.written, writeAt_append]

theorem Kept.write_keys (h : Kept crc r garbage) (bytes : ByteSeq) (id : ℕ) :
    id ∈ (r.wal.write bytes).dir.keys ↔ id ∈ r.wal.dir.keys := by
  rw [mem_keys, mem_keys]
  simp only [h.write_get?]
  split_ifs with hid
  · simp [hid, h.current]
  · rfl

theorem Kept.failed (h : Kept crc r garbage) (bytes : ByteSeq) :
    Kept crc { r with wal := r.wal.write bytes } (bytes ++ garbage.drop bytes.length) where
  sound := h.sound
  current := (h.write_get? bytes _).trans (if_pos rfl)
  written := h.written
  closed id content hget hne := by
    have hne' : id ≠ r.wal.segment := hne
    have hget' := (h.write_get? bytes id).symm.trans hget
    rw [if_neg hne'] at hget'
    exact h.closed id content hget' hne'
  newest id hid := h.newest id ((h.write_keys bytes id).1 hid)
  there e he := (h.write_keys bytes e.1).2 (h.there e he)
  ordered := h.ordered
  accepted := h.accepted

variable {payload : ByteSeq}

theorem Kept.appended (h : Kept crc r garbage) (hp : Accepted payload)
    {wal : Wal}
    (hdir : wal.dir =
      (r.wal.write (encodeRecord (recordCrc crc) r.wal.writtenOffset payload)).dir)
    (hsegment : wal.segment = r.wal.segment) (hsound : wal.poisoned = false)
    (hwritten : wal.writtenOffset = r.wal.writtenOffset +
      (encodeRecord (recordCrc crc) r.wal.writtenOffset payload).length) :
    Kept crc ⟨wal, r.history ++ [(r.wal.segment, payload)]⟩
      (garbage.drop (headerSize + payload.length)) := by
  have hself : recordsOf (r.history ++ [(r.wal.segment, payload)]) r.wal.segment =
      recordsOf r.history r.wal.segment ++ [payload] := by
    rw [recordsOf_append, recordsOf_singleton, if_pos rfl]
  have hother : ∀ id, id ≠ r.wal.segment →
      recordsOf (r.history ++ [(r.wal.segment, payload)]) id = recordsOf r.history id := by
    intro id hid
    rw [recordsOf_append, recordsOf_singleton, if_neg hid, List.append_nil]
  have hkey : r.wal.segment ∈ r.wal.dir.keys := mem_keys.2 ⟨_, h.current⟩
  constructor
  · exact hsound
  · show wal.dir.get? wal.segment = _
    rw [hdir, hsegment, h.write_get?, if_pos rfl, hself, segmentBytes_snoc, ← h.written,
      length_encodeRecord, List.append_assoc]
  · show wal.writtenOffset = _
    rw [hwritten, hsegment, hself, segmentBytes_snoc, List.length_append, ← h.written]
  · intro id content hget hne
    have hne' : id ≠ r.wal.segment := hsegment ▸ hne
    have hget' : wal.dir.get? id = some content := hget
    rw [hdir, h.write_get?, if_neg hne'] at hget'
    rw [hother id hne']
    exact h.closed id content hget' hne'
  · intro id hid
    have hid' : id ∈ wal.dir.keys := hid
    rw [hdir, h.write_keys] at hid'
    exact le_of_le_of_eq (h.newest id hid') hsegment.symm
  · intro e he
    show e.1 ∈ wal.dir.keys
    rw [hdir, h.write_keys]
    rcases List.mem_append.1 he with he | he
    · exact h.there e he
    · rw [List.mem_singleton.1 he]
      exact hkey
  · refine List.pairwise_append.2 ⟨h.ordered, List.pairwise_singleton _ _, fun a ha b hb => ?_⟩
    rw [List.mem_singleton.1 hb]
    exact h.newest _ (h.there a ha)
  · intro e he
    rcases List.mem_append.1 he with he | he
    · exact h.accepted e he
    · rw [List.mem_singleton.1 he]
      exact hp

theorem Kept.rotated (h : Kept crc r []) :
    r.wal.rotate.1 = .ok r.wal.segment ∧ Kept crc { r with wal := r.wal.rotate.2 } [] ∧
      r.wal.rotate.2.segment = r.wal.segment + 1 := by
  have hfree : r.wal.dir.get? (r.wal.segment + 1) = none := by
    by_contra hne
    have := h.newest _ (mem_keys.2 (ne_none_iff_exists'.1 hne))
    omega
  have hrotate : r.wal.rotate = (.ok r.wal.segment, { r.wal with
      dir := r.wal.dir.insert (r.wal.segment + 1) []
      segment := r.wal.segment + 1
      durableOffset := 0
      writtenOffset := 0 }) := by
    simp [rotate, h.sound, hfree]
  have hempty : recordsOf r.history (r.wal.segment + 1) = [] := by
    refine recordsOf_eq_nil fun e he heq => ?_
    have := h.newest _ (h.there e he)
    omega
  rw [hrotate]
  refine ⟨rfl, ⟨h.sound, ?_, ?_, fun id bytes hget hne => ?_, fun id hid => ?_, fun e he => ?_,
    h.ordered, h.accepted⟩, rfl⟩
  · show (r.wal.dir.insert _ _).get? _ = _
    rw [get?_insert, if_pos rfl, hempty]
    rfl
  · show 0 = _
    rw [hempty]
    rfl
  · have hget' : (r.wal.dir.insert (r.wal.segment + 1) []).get? id = some bytes := hget
    have hne' : id ≠ r.wal.segment + 1 := hne
    rw [get?_insert, if_neg hne'] at hget'
    by_cases hid : id = r.wal.segment
    · rw [hid, h.current, List.append_nil] at hget'
      rw [hid, ← some_inj.1 hget']
    · exact h.closed id bytes hget' hid
  · obtain ⟨bytes, hget⟩ := mem_keys.1 hid
    have hget' : (r.wal.dir.insert (r.wal.segment + 1) []).get? id = some bytes := hget
    rw [get?_insert] at hget'
    show id ≤ r.wal.segment + 1
    split_ifs at hget' with heq
    · omega
    · have := h.newest id (mem_keys.2 ⟨bytes, hget'⟩)
      omega
  · refine mem_keys.2 ?_
    obtain ⟨bytes, hget⟩ := mem_keys.1 (h.there e he)
    refine ⟨bytes, ?_⟩
    show (r.wal.dir.insert _ _).get? _ = _
    rw [get?_insert, if_neg, hget]
    intro heq
    have := h.newest _ (h.there e he)
    omega

theorem recordsOf_filter (keep : ℕ → Bool)
    (hid : keep id = true) :
    recordsOf (history.filter fun e => keep e.1) id = recordsOf history id := by
  rw [recordsOf, List.filter_filter, recordsOf]
  congr 1
  refine List.filter_congr fun e _ => ?_
  by_cases he : e.1 = id
  · simp [he, hid]
  · simp [he]

theorem Kept.removed (h : Kept crc r garbage) (segment : ℕ) :
    Kept crc (r.step crc (.removeThrough segment)).2 garbage := by
  have hkeep : ∀ id, (r.wal.removeThrough segment).dir.get? id =
      if id ≤ segment ∧ id ≠ r.wal.segment then none else r.wal.dir.get? id := by
    intro id
    rw [removeThrough, get?_filter]
    cases hget : r.wal.dir.get? id with
    | none => simp
    | some bytes => by_cases hid : id ≤ segment ∧ id ≠ r.wal.segment <;> simp [Option.filter, hid]
  have hrecords : ∀ id, ¬(id ≤ segment ∧ id ≠ r.wal.segment) →
      recordsOf (r.history.filter fun e => ¬(e.1 ≤ segment ∧ e.1 ≠ r.wal.segment)) id =
        recordsOf r.history id := by
    intro id hid
    exact recordsOf_filter (fun id => ¬(id ≤ segment ∧ id ≠ r.wal.segment)) (decide_eq_true hid)
  have hcurrent : ¬(r.wal.segment ≤ segment ∧ r.wal.segment ≠ r.wal.segment) := fun h => h.2 rfl
  constructor
  · exact h.sound
  · show (r.wal.removeThrough segment).dir.get? r.wal.segment = some (segmentBytes crc 0
      (recordsOf (r.history.filter fun e => ¬(e.1 ≤ segment ∧ e.1 ≠ r.wal.segment))
        r.wal.segment) ++ garbage)
    rw [hkeep, if_neg hcurrent, hrecords _ hcurrent, h.current]
  · show r.wal.writtenOffset = (segmentBytes crc 0
      (recordsOf (r.history.filter fun e => ¬(e.1 ≤ segment ∧ e.1 ≠ r.wal.segment))
        r.wal.segment)).length
    rw [hrecords _ hcurrent, h.written]
  · intro id bytes hget hne
    have hget' : (r.wal.removeThrough segment).dir.get? id = some bytes := hget
    rw [hkeep] at hget'
    split_ifs at hget' with hid
    exact (h.closed id bytes hget' hne).trans (by rw [← hrecords id hid]; rfl)
  · intro id hid
    obtain ⟨bytes, hget⟩ := mem_keys.1 hid
    have hget' : (r.wal.removeThrough segment).dir.get? id = some bytes := hget
    rw [hkeep] at hget'
    split_ifs at hget'
    exact h.newest id (mem_keys.2 ⟨bytes, hget'⟩)
  · intro e he
    obtain ⟨he, hkept⟩ := List.mem_filter.1 he
    obtain ⟨bytes, hget⟩ := mem_keys.1 (h.there e he)
    refine mem_keys.2 ⟨bytes, ?_⟩
    show (r.wal.removeThrough segment).dir.get? e.1 = some bytes
    rw [hkeep, if_neg (of_decide_eq_true hkept), hget]
  · exact h.ordered.sublist List.filter_sublist
  · intro e he
    exact h.accepted e (List.mem_filter.1 he).1

theorem Kept.reset (h : Kept crc r garbage) :
    (r.step crc .reset).1 = .ok () ∧ Kept crc (r.step crc .reset).2 [] := by
  have hreset : r.step crc .reset = (.ok (), ⟨{ r.wal with
      dir := (r.wal.dir.filter fun e => e.1 = r.wal.segment).insert r.wal.segment []
      durableOffset := 0
      writtenOffset := 0 }, []⟩) := by
    simp [step, Wal.reset, h.sound]
  have hget : ∀ id, ((r.wal.dir.filter fun e => e.1 = r.wal.segment).insert r.wal.segment []).get? id =
      if id = r.wal.segment then some [] else none := by
    intro id
    rw [get?_insert, get?_filter]
    split_ifs with hid
    · rfl
    · cases r.wal.dir.get? id <;> simp [Option.filter, hid]
  rw [hreset]
  refine ⟨rfl, h.sound, (hget _).trans (if_pos rfl), rfl, fun id bytes hbytes hne => ?_,
    fun id hid => ?_, by simp, List.Pairwise.nil, by simp⟩
  · have hbytes' := (hget id).symm.trans hbytes
    have hne' : id ≠ r.wal.segment := hne
    rw [if_neg hne'] at hbytes'
    cases hbytes'
  · obtain ⟨bytes, hbytes⟩ := mem_keys.1 hid
    have hbytes' := (hget id).symm.trans hbytes
    split_ifs at hbytes' with heq
    exact le_of_eq heq

def NoImage (crc : Crc) (garbage : ByteSeq) (offset : ℕ) : Prop :=
  ∀ j payload, ¬ImageAt crc garbage (offset + j) j payload

theorem Kept.getLast? (h : Kept crc r garbage) :
    r.wal.dir.entries.getLast? = some (r.wal.segment,
      segmentBytes crc 0 (recordsOf r.history r.wal.segment) ++ garbage) :=
  getLast?_entries h.current h.newest

theorem Kept.opened (h : Kept crc r garbage) (mode : SyncMode)
    (hno : NoImage crc garbage r.wal.writtenOffset) :
    ∃ wal, openDir crc mode r.wal.dir = .ok wal ∧ Kept crc { r with wal } [] ∧
      wal.segment = r.wal.segment := by
  have hstop := (validEnd_segmentBytes (h.accepted_recordsOf r.wal.segment)
    (fun payload => by
      have := hno 0 payload
      rwa [Nat.add_zero, h.written] at this)
    (segmentBytes crc 0 (recordsOf r.history r.wal.segment)).length).2
    ⟨rfl, fun j payload _ => by
      have := hno j payload
      rwa [h.written] at this⟩
  have hopen : openDir crc mode r.wal.dir = .ok ⟨r.wal.dir.insert r.wal.segment
      (segmentBytes crc 0 (recordsOf r.history r.wal.segment)), mode, r.wal.segment,
      r.wal.writtenOffset, r.wal.writtenOffset, false⟩ := by
    rw [openDir, h.getLast?]
    simp only [getD_some, hstop, List.take_left, h.written]
  have hget : ∀ id, (r.wal.dir.insert r.wal.segment
      (segmentBytes crc 0 (recordsOf r.history r.wal.segment))).get? id =
      if id = r.wal.segment then some (segmentBytes crc 0 (recordsOf r.history r.wal.segment))
      else r.wal.dir.get? id := get?_insert _ _ _
  have hkey : r.wal.segment ∈ r.wal.dir.keys := mem_keys.2 ⟨_, h.current⟩
  have hkeys := keys_insert_of_mem _ hkey
    (segmentBytes crc 0 (recordsOf r.history r.wal.segment))
  refine ⟨_, hopen, ⟨rfl, ?_, h.written, fun id bytes hbytes hne => ?_, fun id hid => ?_,
    fun e he => ?_, h.ordered, h.accepted⟩, rfl⟩
  · rw [List.append_nil]
    exact (hget _).trans (if_pos rfl)
  · have hbytes' := (hget id).symm.trans hbytes
    have hne' : id ≠ r.wal.segment := hne
    rw [if_neg hne'] at hbytes'
    exact h.closed id bytes hbytes' hne'
  · have hid' : id ∈ (r.wal.dir.insert r.wal.segment _).keys := hid
    rw [hkeys] at hid'
    exact h.newest id hid'
  · show e.1 ∈ (r.wal.dir.insert r.wal.segment _).keys
    rw [hkeys]
    exact h.there e he

/-! ### Steps and runs -/

theorem append_cases (crc : Crc) (w : Wal) (payload : ByteSeq) (fault : Option AppendFault) :
    (∃ e, w.append crc payload fault = (.error e, w)) ∨
    (∃ n, fault = some (.writing n) ∧ w.append crc payload fault = (.error .writeFailed,
      w.write ((encodeRecord (recordCrc crc) w.writtenOffset payload).take n))) ∨
    (fault = some .syncing ∧ w.mode = .syncEach ∧
      ∃ wal, w.append crc payload fault = (.error .syncFailed, wal)) ∨
    (Accepted payload ∧ ∃ wal, w.append crc payload fault = (.ok w.writtenOffset, wal) ∧
      wal.dir = (w.write (encodeRecord (recordCrc crc) w.writtenOffset payload)).dir ∧
      wal.segment = w.segment ∧ wal.poisoned = false ∧
      wal.writtenOffset = w.writtenOffset +
        (encodeRecord (recordCrc crc) w.writtenOffset payload).length) := by
  rw [append]
  by_cases hempty : payload = []
  · rw [if_pos hempty]
    exact .inl ⟨_, rfl⟩
  by_cases hlarge : maxEntrySize < payload.length
  · rw [if_neg hempty, if_pos hlarge]
    exact .inl ⟨_, rfl⟩
  by_cases hpoisoned : w.poisoned
  · rw [if_neg hempty, if_neg hlarge, if_pos hpoisoned]
    exact .inl ⟨_, rfl⟩
  have haccepted : Accepted payload := ⟨hempty, not_lt.1 hlarge⟩
  have hsound : w.poisoned = false := Bool.eq_false_iff.2 hpoisoned
  rw [if_neg hempty, if_neg hlarge, if_neg hpoisoned]
  rcases fault with _ | ⟨n⟩ | _ <;> cases hmode : w.mode
  · exact .inr (.inr (.inr ⟨haccepted, _, rfl, rfl, rfl, hsound, rfl⟩))
  · exact .inr (.inr (.inr ⟨haccepted, _, rfl, rfl, rfl, hsound, rfl⟩))
  · exact .inr (.inl ⟨n, rfl, rfl⟩)
  · exact .inr (.inl ⟨n, rfl, rfl⟩)
  · exact .inr (.inr (.inl ⟨rfl, rfl, _, rfl⟩))
  · exact .inr (.inr (.inr ⟨haccepted, _, rfl, rfl, rfl, hsound, rfl⟩))

/-- The condition on one call: no fsync fails, a segment is closed only without
bytes behind its last record, and the log is opened only when no record is found
in such bytes. -/
def StepOk (crc : Crc) (r : WalRun) : WalStep → Prop
  | .append _ fault => fault = some .syncing → r.wal.mode = .manual
  | .rotate => ∀ bytes, r.wal.dir.get? r.wal.segment = some bytes →
    bytes.length = r.wal.writtenOffset
  | .reopen => ∀ bytes, r.wal.dir.get? r.wal.segment = some bytes →
    NoImage crc (bytes.drop r.wal.writtenOffset) r.wal.writtenOffset
  | _ => True

def Meets (crc : Crc) (r : WalRun) : List WalStep → Prop
  | [] => True
  | st :: steps => r.StepOk crc st ∧ (r.step crc st).2.Meets crc steps

variable {st : WalStep}

theorem Kept.step (h : Kept crc r garbage) (hst : r.StepOk crc st) :
    ∃ garbage', Kept crc (r.step crc st).2 garbage' ∧
      ((r.step crc st).1 = .ok () → garbage = [] → garbage' = []) := by
  cases st with
  | append payload fault =>
    rw [step]
    rcases append_cases crc r.wal payload fault with
      ⟨e, happ⟩ | ⟨n, -, happ⟩ | ⟨hfault, hmode, -⟩ | ⟨hp, wal, happ, hdir, hseg, hsound, hwritten⟩
    · rw [happ]
      exact ⟨garbage, h, fun hok => by cases hok⟩
    · rw [happ]
      exact ⟨_, h.failed _, fun hok => by cases hok⟩
    · have hmanual := hst hfault
      rw [hmode] at hmanual
      cases hmanual
    · rw [happ]
      refine ⟨_, h.appended hp hdir hseg hsound hwritten, fun _ hg => ?_⟩
      rw [hg, List.drop_nil]
  | rotate =>
    have hlen := hst _ h.current
    rw [List.length_append, h.written] at hlen
    obtain rfl : garbage = [] := List.length_eq_zero_iff.1 (by omega)
    exact ⟨[], h.rotated.2.1, fun _ _ => rfl⟩
  | removeThrough segment => exact ⟨garbage, h.removed segment, fun _ hg => hg⟩
  | reset => exact ⟨[], h.reset.2, fun _ _ => rfl⟩
  | reopen =>
    have hno := hst _ h.current
    rw [h.written, List.drop_left, ← h.written] at hno
    obtain ⟨wal, hopen, hkept, -⟩ := h.opened r.wal.mode hno
    rw [step, hopen]
    exact ⟨[], hkept, fun _ _ => rfl⟩

variable {steps : List WalStep}

theorem Kept.run (h : Kept crc r garbage) (hmeets : r.Meets crc steps) :
    ∃ garbage', Kept crc (r.run crc steps) garbage' := by
  induction steps generalizing r garbage with
  | nil => exact ⟨garbage, h⟩
  | cons st steps ih =>
    obtain ⟨garbage', h', -⟩ := h.step hmeets.1
    exact ih h' hmeets.2

theorem not_imageAt_nil (offset pos : ℕ) (payload : ByteSeq) : ¬ImageAt crc [] offset pos payload := by
  rintro ⟨-, hprefix⟩
  have := hprefix.length_le
  rw [List.drop_nil, length_encodeRecord, List.length_nil] at this
  unfold headerSize at this
  omega

theorem Kept.stepOk_of_ok (h : Kept crc r []) (hok : (r.step crc st).1 = .ok ()) :
    r.StepOk crc st := by
  have hcurrent := h.current
  rw [List.append_nil] at hcurrent
  cases st with
  | append payload fault =>
    intro hfault
    by_contra hmode
    have hmode' : r.wal.mode = .syncEach := by
      cases hm : r.wal.mode with
      | syncEach => rfl
      | manual => exact absurd hm hmode
    rw [WalRun.step] at hok
    rcases append_cases crc r.wal payload fault with
      ⟨e, happ⟩ | ⟨n, -, happ⟩ | ⟨-, -, wal, happ⟩ | ⟨hp, wal, happ, -⟩
    · rw [happ] at hok
      cases hok
    · rw [happ] at hok
      cases hok
    · rw [happ] at hok
      cases hok
    · rw [append, if_neg hp.1, if_neg (not_lt.2 hp.2), h.sound, hfault, hmode'] at happ
      cases happ
  | rotate =>
    intro bytes hbytes
    rw [hcurrent] at hbytes
    rw [← some_inj.1 hbytes, h.written]
  | removeThrough segment => trivial
  | reset => trivial
  | reopen =>
    intro bytes hbytes j payload
    rw [hcurrent] at hbytes
    rw [← some_inj.1 hbytes, h.written, List.drop_length]
    exact not_imageAt_nil _ _ _

theorem Kept.run_allOk (h : Kept crc r []) (hok : r.AllOk crc steps) :
    Kept crc (r.run crc steps) [] := by
  induction steps generalizing r with
  | nil => exact h
  | cons st steps ih =>
    obtain ⟨garbage', h', hnil⟩ := h.step (h.stepOk_of_ok hok.1)
    rw [hnil hok.1 rfl] at h'
    exact ih h' hok.2

/-- Two runs on the same log, the second without the records up to `closed`. -/
structure Splits (closed : ℕ) (r since : WalRun) : Prop where
  wal : since.wal = r.wal
  segment : closed < r.wal.segment
  history : ∃ old, r.history = old ++ since.history ∧ ∀ e ∈ old, e.1 ≤ closed
  later : ∀ e ∈ since.history, closed < e.1

theorem Kept.segment_le (h : Kept crc r []) (hok : (r.step crc st).1 = .ok ()) :
    r.wal.segment ≤ (r.step crc st).2.wal.segment := by
  have hst := h.stepOk_of_ok hok
  cases st with
  | append payload fault =>
    rw [WalRun.step] at hok ⊢
    rcases append_cases crc r.wal payload fault with
      ⟨e, happ⟩ | ⟨n, -, happ⟩ | ⟨-, -, wal, happ⟩ | ⟨hp, wal, happ, -, hseg, -⟩
    · rw [happ] at hok
      cases hok
    · rw [happ] at hok
      cases hok
    · rw [happ] at hok
      cases hok
    · rw [happ]
      exact le_of_eq hseg.symm
  | rotate => exact le_of_le_of_eq (Nat.le_succ _) h.rotated.2.2.symm
  | removeThrough segment => exact le_rfl
  | reset =>
    have hreset : r.wal.reset.2.segment = r.wal.segment := by simp [Wal.reset, h.sound]
    rw [WalRun.step]
    cases hr : r.wal.reset with
    | mk result wal =>
      rw [hr] at hreset
      cases result <;> exact le_of_eq hreset.symm
  | reopen =>
    have hno := hst _ h.current
    rw [List.append_nil, h.written, List.drop_length, ← h.written] at hno
    obtain ⟨wal, hopen, -, hseg⟩ := h.opened r.wal.mode hno
    rw [WalRun.step, hopen]
    exact le_of_eq hseg.symm

variable {closed : ℕ}

theorem Splits.step {since : WalRun} (hs : Splits closed r since)
    (h : Kept crc r []) (hok : (r.step crc st).1 = .ok ()) :
    Splits closed (r.step crc st).2 (since.step crc st).2 := by
  have hsegment := lt_of_lt_of_le hs.segment (h.segment_le hok)
  obtain ⟨w, history⟩ := r
  obtain ⟨w', later⟩ := since
  obtain rfl : w' = w := hs.wal
  obtain ⟨old, hold, hle⟩ := hs.history
  have hold' : history = old ++ later := hold
  cases st with
  | append payload fault =>
    rw [step] at hok hsegment ⊢
    rw [step]
    cases happ : w'.append crc payload fault with
    | mk result wal =>
      simp only [happ] at hok hsegment ⊢
      cases result with
      | error e => cases hok
      | ok offset =>
        refine ⟨rfl, hsegment, ⟨old, ?_, hle⟩, fun e he => ?_⟩
        · rw [hold', List.append_assoc]
        · rcases List.mem_append.1 he with he | he
          · exact hs.later e he
          · rw [List.mem_singleton.1 he]
            exact hs.segment
  | rotate => exact ⟨rfl, hsegment, ⟨old, hold, hle⟩, hs.later⟩
  | removeThrough segment =>
    refine ⟨rfl, hsegment, ⟨old.filter fun e => ¬(e.1 ≤ segment ∧ e.1 ≠ w'.segment), ?_,
      fun e he => hle e (List.mem_filter.1 he).1⟩, fun e he => hs.later e (List.mem_filter.1 he).1⟩
    show history.filter _ = _ ++ later.filter _
    rw [hold', List.filter_append]
  | reset =>
    rw [step] at hok hsegment ⊢
    rw [step]
    cases hr : w'.reset with
    | mk result wal =>
      simp only [hr] at hok hsegment ⊢
      cases result with
      | error e => cases hok
      | ok u => exact ⟨rfl, hsegment, ⟨[], rfl, by simp⟩, by simp⟩
  | reopen =>
    rw [step] at hok hsegment ⊢
    rw [step]
    cases ho : openDir crc w'.mode w'.dir with
    | error e =>
      simp only [ho] at hok
      cases hok
    | ok wal =>
      simp only [ho] at hsegment ⊢
      exact ⟨rfl, hsegment, ⟨old, hold, hle⟩, hs.later⟩

theorem Splits.run {since : WalRun} (hs : Splits closed r since)
    (h : Kept crc r []) (hok : r.AllOk crc steps) :
    Splits closed (r.run crc steps) (since.run crc steps) := by
  induction steps generalizing r since with
  | nil => exact hs
  | cons st steps ih =>
    obtain ⟨garbage', h', hnil⟩ := h.step (h.stepOk_of_ok hok.1)
    rw [hnil hok.1 rfl] at h'
    exact ih (hs.step h hok.1) h' hok.2

/-- **The log gives back its history.**  In every run in which all calls return
Ok, `replay_all` returns the payloads appended since the last reset whose segment
was not removed, in order.  A rotation then returns a number that no record of the
history exceeds; whatever is called after it, every record appended since has a
greater number, and removing the segments through the returned one leaves exactly
the records appended since. -/
theorem replayAll_history (crc : Crc) (mode : SyncMode) (steps : List WalStep)
    (hok : (WalRun.new mode).AllOk crc steps) :
    ((WalRun.new mode).run crc steps).wal.replayAll crc =
      .ok (((WalRun.new mode).run crc steps).history.map Prod.snd) ∧
    ∃ closed wal, ((WalRun.new mode).run crc steps).wal.rotate = (.ok closed, wal) ∧
      (∀ e ∈ ((WalRun.new mode).run crc steps).history, e.1 ≤ closed) ∧
      ∀ later, (WalRun.mk wal ((WalRun.new mode).run crc steps).history).AllOk crc later →
        (∀ e ∈ ((WalRun.mk wal []).run crc later).history, closed < e.1 ∧
          e ∈ ((WalRun.mk wal ((WalRun.new mode).run crc steps).history).run crc later).history) ∧
        (((WalRun.mk wal ((WalRun.new mode).run crc steps).history).run crc later).wal.removeThrough
          closed).replayAll crc = .ok (((WalRun.mk wal []).run crc later).history.map Prod.snd) := by
  have hkept := (kept_new crc mode).run_allOk hok
  set r := (new mode).run crc steps
  obtain ⟨hrotate, hrotated, hnext⟩ := hkept.rotated
  refine ⟨hkept.replayAll, r.wal.segment, r.wal.rotate.2, Prod.ext hrotate rfl,
    fun e he => hkept.newest _ (hkept.there e he), fun later hlater => ?_⟩
  have hsplits : Splits r.wal.segment (mk r.wal.rotate.2 r.history)
      (mk r.wal.rotate.2 []) :=
    ⟨rfl, lt_of_lt_of_eq (Nat.lt_succ_self _) hnext.symm,
      ⟨r.history, (List.append_nil _).symm, fun e he => hkept.newest _ (hkept.there e he)⟩, by simp⟩
  have hrun := hsplits.run hrotated hlater
  have hkept' := hrotated.run_allOk hlater
  set r' := (mk r.wal.rotate.2 r.history).run crc later
  set since := (mk r.wal.rotate.2 []).run crc later
  obtain ⟨old, hold, hle⟩ := hrun.history
  refine ⟨fun e he => ⟨hrun.later e he, by rw [hold]; exact List.mem_append_right _ he⟩, ?_⟩
  -- removing drops the old records and no other
  have hremoved := (hkept'.removed r.wal.segment).replayAll
  have hfilter : r'.history.filter (fun e => ¬(e.1 ≤ r.wal.segment ∧ e.1 ≠ r'.wal.segment)) =
      since.history := by
    have hdrop : ∀ e ∈ old, ¬¬(e.1 ≤ r.wal.segment ∧ e.1 ≠ r'.wal.segment) := by
      intro e he hnot
      have h1 := hle e he
      have h2 := hrun.segment
      exact hnot ⟨h1, by omega⟩
    have hkeep : ∀ e ∈ since.history, ¬(e.1 ≤ r.wal.segment ∧ e.1 ≠ r'.wal.segment) := by
      intro e he hboth
      have h1 := hrun.later e he
      omega
    rw [hold, List.filter_append,
      List.filter_eq_nil_iff.2 fun e he => mt of_decide_eq_true (hdrop e he),
      List.filter_eq_self.2 fun e he => decide_eq_true (hkeep e he), List.nil_append]
  rw [← hfilter]
  exact hremoved

/-- Two records, a rotation, and one record after it. -/
theorem replayAll_history_rotated :
    (WalRun.new .syncEach).AllOk crc32Record [.append [1] none, .append [2, 3] none] ∧
    ∃ closed wal, ((WalRun.new .syncEach).run crc32Record
        [.append [1] none, .append [2, 3] none]).wal.rotate = (.ok closed, wal) ∧
      ((WalRun.mk wal ((WalRun.new .syncEach).run crc32Record
        [.append [1] none, .append [2, 3] none]).history).AllOk crc32Record [.append [4] none]) ∧
      (((WalRun.mk wal ((WalRun.new .syncEach).run crc32Record
        [.append [1] none, .append [2, 3] none]).history).run crc32Record
          [.append [4] none]).wal.removeThrough closed).replayAll crc32Record =
        .ok (((WalRun.mk wal []).run crc32Record [.append [4] none]).history.map Prod.snd) := by
  have hok : (new .syncEach).AllOk crc32Record [.append [1] none, .append [2, 3] none] :=
    ⟨rfl, rfl, trivial⟩
  obtain ⟨-, closed, wal, hrotate, -, hlater⟩ := replayAll_history crc32Record .syncEach _ hok
  have hlaterOk : (mk wal ((new .syncEach).run crc32Record
      [.append [1] none, .append [2, 3] none]).history).AllOk crc32Record [.append [4] none] := by
    cases hrotate
    exact ⟨rfl, trivial⟩
  exact ⟨hok, closed, wal, hrotate, hlaterOk, (hlater _ hlaterOk).2⟩

/-! ### A torn record -/

variable {k : ℕ}

theorem not_imageAt_torn (hp : Accepted payload) {offset : ℕ}
    (hk : k < headerSize + payload.length) (other : ByteSeq) :
    ¬ImageAt crc ((encodeRecord (recordCrc crc) offset payload).take k) offset 0 other := by
  rintro ⟨hother, hprefix⟩
  rw [List.drop_zero] at hprefix
  have hlen := hprefix.length_le
  rw [length_encodeRecord, List.length_take] at hlen
  -- both begin with their lengths
  obtain ⟨rest, hrest⟩ := hprefix.trans (List.take_prefix k _)
  have hfirst := (fields_encodeRecord crc hp offset []).1
  have hsecond := (fields_encodeRecord crc hother offset rest).1
  rw [hrest] at hsecond
  rw [List.append_nil] at hfirst
  have hsame : payload.length = other.length := hfirst.symm.trans hsecond
  omega

theorem Kept.opens_torn_iff (h : Kept crc r []) (mode : SyncMode)
    (hp : Accepted payload) (hk : k < headerSize + payload.length) :
    (∃ wal, openDir crc mode (r.wal.write
        ((encodeRecord (recordCrc crc) r.wal.writtenOffset payload).take k)).dir = .ok wal ∧
      wal.replayAll crc = .ok (r.history.map Prod.snd)) ↔
    ∀ j other, 0 < j → ¬ImageAt crc ((encodeRecord (recordCrc crc) r.wal.writtenOffset payload).take k)
      (r.wal.writtenOffset + j) j other := by
  set torn := (encodeRecord (recordCrc crc) r.wal.writtenOffset payload).take k
  have htorn := h.failed torn
  rw [List.drop_nil, List.append_nil] at htorn
  have hstart : ∀ other, ¬ImageAt crc torn r.wal.writtenOffset 0 other := not_imageAt_torn hp hk
  constructor
  · rintro ⟨wal, hopen, -⟩ j other hj
    rw [openDir, htorn.getLast?] at hopen
    simp only [getD_some] at hopen
    cases hend : validEnd (recordCrc crc)
        (segmentBytes crc 0 (recordsOf r.history (r.wal.write torn).segment) ++ torn) with
    | error e =>
      rw [hend] at hopen
      cases hopen
    | ok stop =>
      rw [h.written] at hstart ⊢
      exact ((validEnd_segmentBytes (h.accepted_recordsOf r.wal.segment) hstart stop).1 hend).2
        j other hj
  · intro hno
    obtain ⟨wal, hopen, hkept, -⟩ := htorn.opened mode (by
      intro j other
      rcases Nat.eq_zero_or_pos j with rfl | hj
      · exact hstart other
      · exact hno j other hj)
    exact ⟨wal, hopen, hkept.replayAll⟩

/-- **A torn record is cut off** when the log is opened, and all whole records
come back, exactly when no image of a record lies in the torn one behind its first
byte.  This for every run of calls that return Ok, every payload appended then
and every piece of its record. -/
theorem open_torn_iff (crc : Crc) (mode : SyncMode) (steps : List WalStep)
    (hok : (WalRun.new mode).AllOk crc steps) (payload : ByteSeq) (hp : Accepted payload) (k : ℕ)
    (hk : k < headerSize + payload.length) :
    (∃ wal, openDir crc mode (((WalRun.new mode).run crc steps).wal.write
        ((encodeRecord (recordCrc crc) ((WalRun.new mode).run crc steps).wal.writtenOffset
          payload).take k)).dir = .ok wal ∧
      wal.replayAll crc = .ok (((WalRun.new mode).run crc steps).history.map Prod.snd)) ↔
    ∀ j other, 0 < j → ¬ImageAt crc
      ((encodeRecord (recordCrc crc) ((WalRun.new mode).run crc steps).wal.writtenOffset
        payload).take k) (((WalRun.new mode).run crc steps).wal.writtenOffset + j) j other :=
  ((kept_new crc mode).run_allOk hok).opens_torn_iff mode hp hk

/-- A piece too short to hold a record. -/
theorem open_torn_short :
    ∃ wal, openDir crc32Record .syncEach (((WalRun.new .syncEach).run crc32Record
        [.append [1] none]).wal.write ((encodeRecord (recordCrc crc32Record)
          ((WalRun.new .syncEach).run crc32Record [.append [1] none]).wal.writtenOffset
          [2, 3]).take 6)).dir = .ok wal ∧
      wal.replayAll crc32Record = .ok (((WalRun.new .syncEach).run crc32Record
        [.append [1] none]).history.map Prod.snd) := by
  refine (open_torn_iff crc32Record .syncEach [.append [1] none] ⟨rfl, trivial⟩ [2, 3]
    ⟨by simp, by decide⟩ 6 (by decide)).2 ?_
  rintro j other - ⟨-, hprefix⟩
  have := hprefix.length_le
  rw [length_encodeRecord, List.length_drop, List.length_take] at this
  unfold headerSize at this
  omega

def imagePayload : ByteSeq := encodeRecord (recordCrc crc32Record) 8 [1] ++ [0]

/-- Cut right behind the image, the record makes the log refuse to open. -/
theorem open_torn_refused :
    ∃ steps payload k, (WalRun.new .syncEach).AllOk crc32Record steps ∧ Accepted payload ∧
      k < headerSize + payload.length ∧
      ¬∃ wal, openDir crc32Record .syncEach (((WalRun.new .syncEach).run crc32Record steps).wal.write
          ((encodeRecord (recordCrc crc32Record)
            ((WalRun.new .syncEach).run crc32Record steps).wal.writtenOffset payload).take k)).dir =
          .ok wal ∧
        wal.replayAll crc32Record =
          .ok (((WalRun.new .syncEach).run crc32Record steps).history.map Prod.snd) := by
  have hp : Accepted imagePayload := by
    refine ⟨by simp [imagePayload], ?_⟩
    rw [imagePayload, List.length_append, length_encodeRecord]
    decide
  have hk : 17 < headerSize + imagePayload.length := by
    rw [imagePayload, List.length_append, length_encodeRecord]
    decide
  refine ⟨[], imagePayload, 17, trivial, hp, hk,
    mt ((kept_new crc32Record .syncEach).opens_torn_iff .syncEach hp hk).1 ?_⟩
  intro hnone
  refine hnone 8 [1] (by decide) ⟨⟨by simp, by decide⟩, ?_⟩
  show encodeRecord (recordCrc crc32Record) 8 [1] <+:
    ((encodeRecord (recordCrc crc32Record) 0 imagePayload).take 17).drop 8
  decide +kernel

/-- **Closed segments parse.**  In every run of calls that meet `StepOk`, with
appends that fail after any part of their record, every segment but the newest is
whole records, and `replay_all` returns exactly the payloads whose append returned
Ok. -/
theorem closed_segments_parse (crc : Crc) (mode : SyncMode) (steps : List WalStep)
    (hmeets : (WalRun.new mode).Meets crc steps) :
    (∀ id bytes, ((WalRun.new mode).run crc steps).wal.dir.get? id = some bytes →
      id ≠ ((WalRun.new mode).run crc steps).wal.segment →
      ∃ ps, (∀ p ∈ ps, Accepted p) ∧ bytes = segmentBytes crc 0 ps) ∧
    ((WalRun.new mode).run crc steps).wal.replayAll crc =
      .ok (((WalRun.new mode).run crc steps).history.map Prod.snd) := by
  obtain ⟨garbage, hkept⟩ := (kept_new crc mode).run hmeets
  refine ⟨fun id bytes hget hne => ?_, hkept.replayAll⟩
  exact ⟨_, hkept.accepted_recordsOf id, hkept.closed id bytes hget hne⟩

/-- A failed append that the next, longer one covers. -/
theorem closed_segments_parse_covered :
    (WalRun.new .syncEach).Meets crc32Record
      [.append [1] (some (.writing 5)), .append [2, 3] none, .rotate] ∧
    ((WalRun.new .syncEach).run crc32Record
        [.append [1] (some (.writing 5)), .append [2, 3] none, .rotate]).wal.replayAll crc32Record =
      .ok (((WalRun.new .syncEach).run crc32Record
        [.append [1] (some (.writing 5)), .append [2, 3] none, .rotate]).history.map Prod.snd) := by
  have hmeets : (new .syncEach).Meets crc32Record
      [.append [1] (some (.writing 5)), .append [2, 3] none, .rotate] := by
    refine ⟨(fun h => by cases h), (fun h => by cases h), (fun bytes hbytes => ?_), trivial⟩
    cases hbytes
    rfl
  exact ⟨hmeets, (closed_segments_parse crc32Record .syncEach _ hmeets).2⟩

/-- An append fails, a shorter record is appended over its bytes and the segment is
closed: `replay_all` fails. -/
theorem closed_segment_damaged :
    ∃ steps, ¬((WalRun.new .syncEach).run crc32Record steps).wal.replayAll crc32Record =
      .ok (((WalRun.new .syncEach).run crc32Record steps).history.map Prod.snd) := by
  refine ⟨[.append [1, 2, 3] (some (.writing 10)), .append [4] none, .rotate], fun h => ?_⟩
  have hfails : (((new .syncEach).run crc32Record
      [.append [1, 2, 3] (some (.writing 10)), .append [4] none, .rotate]).wal.replayAll
        crc32Record).toOption = none := by decide +kernel
  rw [h] at hfails
  cases hfails

end WalRun

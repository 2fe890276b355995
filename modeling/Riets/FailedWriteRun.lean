/-
Runs of a store in which calls fail.
-/
import Riets.FailedWriteLoad

open StoreDir BinaryDocumentStore List SortedMap Option

/-! ### The steps of a store -/

namespace StoreRun.Steady

variable {r : StoreRun} {c : FailedCall}

variable {s' : BinaryDocumentStore}

theorem grow (h : r.Steady)
    (hgrow : SegmentsGrow r.store.dir.segments s'.dir.segments)
    (hmaps : s'.dir.maps = r.store.dir.maps)
    (hplaces : PlacesOk s'.dir.segments s'.locations)
    (hcurrent : ∃ bytes, s'.dir.segments.get? s'.currentSegment = some bytes ∧ bytes.take 8 = magic)
    (hbelow : ∀ id ∈ s'.dir.segments.keys, id < s'.nextSegmentId)
    (hapart : r.compacting.Apart s') : Steady { r with store := s' } where
  current := hcurrent
  below := hbelow
  places := hplaces
  maps m hm := (h.maps m (hmaps ▸ hm)).grow hgrow
  apart := hapart

variable {s : BinaryDocumentStore} {bytes : ByteSeq}

theorem get?_append (hget : s.dir.segments.get? s.currentSegment = some bytes) (more : ByteSeq) (k : ℕ) :
    (s.appendBytes more).dir.segments.get? k =
      if k = s.currentSegment then some (bytes ++ more) else s.dir.segments.get? k := by
  rw [appendBytes, setSegments, get?_upsert, hget]
  rfl

theorem keys_append (hget : s.dir.segments.get? s.currentSegment = some bytes) (more : ByteSeq) {k : ℕ}
    (hk : k ∈ (s.appendBytes more).dir.segments.keys) : k ∈ s.dir.segments.keys := by
  obtain ⟨v, hv⟩ := mem_keys.mp hk
  rw [get?_append hget] at hv
  split_ifs at hv with heq
  · exact heq ▸ mem_keys.mpr ⟨bytes, hget⟩
  · exact mem_keys.mpr ⟨v, hv⟩

section

variable (h : r.Steady)
include h

theorem appendBytes (more : ByteSeq) :
    Steady { r with store := r.store.appendBytes more } := by
  obtain ⟨bytes, hget, hmagic⟩ := h.current
  have hgrow := SegmentsGrow.append hget hmagic more (get?_append hget more)
  have hlen : 8 ≤ bytes.length := by
    have := congrArg length hmagic
    rw [length_take, magic] at this
    simp only [length_cons, length_nil] at this
    omega
  refine h.grow hgrow rfl (h.places.grow hgrow) ⟨bytes ++ more, get?_appendBytes hget more, ?_⟩ ?_ ?_
  · rw [take_append_of_le_length hlen]
    exact hmagic
  · intro id hid
    exact h.below id (keys_append hget more hid)
  · exact h.apart.mono rfl (le_refl _)

theorem replace (hdir : s'.dir = r.store.dir)
    (hcur : s'.currentSegment = r.store.currentSegment)
    (hnext : s'.nextSegmentId = r.store.nextSegmentId)
    (hplaces : PlacesOk r.store.dir.segments s'.locations) : Steady { r with store := s' } where
  current := by
    show ∃ bytes, s'.dir.segments.get? s'.currentSegment = some bytes ∧ _
    rw [hdir, hcur]
    exact h.current
  below := by
    show ∀ id ∈ s'.dir.segments.keys, id < s'.nextSegmentId
    rw [hdir, hnext]
    exact h.below
  places := by
    show PlacesOk s'.dir.segments s'.locations
    rw [hdir]
    exact hplaces
  maps := by
    show ∀ m, s'.dir.maps = some m → SavedOk m s'.dir.segments
    rw [hdir]
    exact h.maps
  apart := h.apart.mono hcur hnext.ge

theorem raise (id : DocId) : Steady { r with store := r.store.raise id } :=
  h.replace rfl rfl rfl h.places

theorem putOne {doc : StoredDocument} (hdoc : doc.Fits) :
    Steady { r with store := r.store.putOne doc } := by
  obtain ⟨bytes, hget, -⟩ := h.current
  have happ := h.appendBytes (StoreRecord.put doc).encode
  refine happ.replace rfl rfl rfl ?_
  have hreads : ReadsAt (bytes ++ (StoreRecord.put doc).encode) (bytes.length + 1) doc := by
    have := ReadsAt.written hdoc bytes []
    rwa [append_nil] at this
  refine @PlacesOk.insert _ _ happ.places _ _ (get?_appendBytes hget _) doc ?_ doc.externalId
  rw [hget]
  exact hreads

theorem foldl_putOne {docs : List StoredDocument} (hdocs : ∀ doc ∈ docs, doc.Fits) :
    Steady { r with store := docs.foldl BinaryDocumentStore.putOne r.store } := by
  induction docs generalizing r with
  | nil => exact h
  | cons doc docs ih =>
    obtain ⟨hdoc, hdocs⟩ := forall_mem_cons.mp hdocs
    exact ih (h.putOne hdoc) hdocs

theorem removeOne (x : String) (id : DocId) :
    Steady { r with store := r.store.removeOne x id } := by
  have happ := h.appendBytes (StoreRecord.delete x id).encode
  refine happ.replace rfl rfl rfl (happ.places.subset ?_)
  intro y loc hy
  have hy : (r.store.locations.erase x).get? y = some loc := hy
  rw [get?_erase] at hy
  split_ifs at hy
  exact hy

theorem current_lt : r.store.currentSegment < r.store.nextSegmentId := by
  obtain ⟨bytes, hget, -⟩ := h.current
  exact h.below _ (mem_keys.mpr ⟨bytes, hget⟩)

theorem below_insert (bytes : ByteSeq) {id : ℕ}
    (hid : id ∈ (r.store.dir.segments.insert r.store.nextSegmentId bytes).keys) :
    id < r.store.nextSegmentId + 1 := by
  obtain ⟨v, hv⟩ := mem_keys.mp hid
  rw [get?_insert] at hv
  split_ifs at hv with heq
  · omega
  · have := h.below id (mem_keys.mpr ⟨v, hv⟩)
    omega

theorem rotated : Steady { r with store := r.store.rotated } := by
  have hgrow := SegmentsGrow.insert h.below magic
  refine h.grow hgrow rfl (h.places.grow hgrow) ⟨magic, ?_, rfl⟩ ?_ ?_
  · show (r.store.dir.segments.insert _ magic).get? r.store.nextSegmentId = _
    rw [get?_insert, if_pos rfl]
  · intro id hid
    exact h.below_insert magic hid
  · exact h.apart.rotate h.current_lt rfl rfl

theorem failedRotation (created : Option ℕ) :
    Steady { r with store := r.store.failedRotation created } := by
  cases created with
  | none =>
    refine ⟨h.current, ?_, h.places, h.maps, h.apart.mono rfl (Nat.le_succ _)⟩
    intro id hid
    exact (h.below id hid).trans (Nat.lt_succ_self _)
  | some n =>
    have hgrow := SegmentsGrow.insert h.below (magic.take n)
    obtain ⟨bytes, hget, hmagic⟩ := h.current
    refine h.grow hgrow rfl (h.places.grow hgrow) ⟨bytes, ?_, hmagic⟩ ?_
      (h.apart.mono rfl (Nat.le_succ _))
    · show (r.store.dir.segments.insert _ _).get? r.store.currentSegment = _
      rw [get?_insert, if_neg (ne_of_lt h.current_lt)]
      exact hget
    · intro id hid
      exact h.below_insert _ hid

theorem maybeRotateSegment :
    ∃ s', r.store.maybeRotateSegment = .ok s' ∧ Steady { r with store := s' } := by
  obtain ⟨bytes, hget, -⟩ := h.current
  rw [maybeRotateSegment_ok hget]
  split_ifs
  · exact ⟨_, rfl, h⟩
  · exact ⟨_, rfl, h.rotated⟩

theorem failedAppend {f : WriteFailure}
    (hfail : r.store.failedAppend bytes f = some s') : Steady { r with store := s' } := by
  cases f with
  | opening =>
    cases hfail
    exact h
  | writing recorded written =>
    cases hfail
    exact h.appendBytes _
  | measuring =>
    cases hfail
    exact h.appendBytes _
  | rotating created =>
    rw [BinaryDocumentStore.failedAppend] at hfail
    split_ifs at hfail
    cases hfail
    exact (h.appendBytes bytes).failedRotation created

end

theorem planCompaction (h : r.Steady) {deadEnough : ℕ → ℕ → Bool} {tie : ℕ → ℕ} {targetSize : ℕ}
    {job : SegmentCompactionJob}
    (hplan : r.store.planCompaction deadEnough tie targetSize = (some job, s')) :
    Steady ⟨s', .planned job⟩ := by
  rw [BinaryDocumentStore.planCompaction] at hplan
  by_cases hfound : r.store.candidates deadEnough = []
  · rw [if_pos hfound] at hplan
    cases hplan
  rw [if_neg hfound] at hplan
  obtain ⟨hjob, rfl⟩ := Prod.mk.inj hplan
  rw [some_inj] at hjob
  have hout : job.nextSegmentId = r.store.nextSegmentId := by rw [← hjob]
  refine ⟨h.current, ?_, h.places, h.maps, ?_, ?_, ?_⟩
  · intro id hid
    exact (h.below id hid).trans (Nat.lt_succ_self _)
  · show job.nextSegmentId ≠ r.store.currentSegment
    have := h.current_lt
    omega
  · show job.nextSegmentId < r.store.nextSegmentId + 1
    omega
  · intro id hid
    rw [← hjob] at hid
    obtain ⟨live, hmem⟩ := Ok.mem_pick hid
    rw [(Keyed.perm_sortBy _).mem_iff, (Keyed.perm_sortBy _).mem_iff] at hmem
    exact (Ok.mem_candidates hmem).1

theorem foldlM_copyRecord {dir : StoreDir} {out : ℕ} {es : List (String × DocLocation)}
    {acc acc' : ByteSeq × List (String × DocLocation)} (hacc : compactedMagic <+: acc.1)
    (hplaces : ∀ e ∈ acc.2, e.2.segment = out) (hrun : es.foldlM (copyRecord dir out) acc = .ok acc') :
    compactedMagic <+: acc'.1 ∧ ∀ e ∈ acc'.2, e.2.segment = out := by
  induction es generalizing acc with
  | nil =>
    cases hrun
    exact ⟨hacc, hplaces⟩
  | cons e es ih =>
    rw [foldlM_cons] at hrun
    obtain ⟨next, hcopy, hrun⟩ := Except.of_bind_ok hrun
    rw [copyRecord] at hcopy
    split at hcopy
    · cases hcopy
    · simp only at hcopy
      split_ifs at hcopy
      cases hcopy
      refine ih (hacc.trans (prefix_append _ _)) ?_ hrun
      intro e' he'
      rcases mem_append.mp he' with hin | hin
      · exact hplaces e' hin
      · rw [mem_singleton.mp hin]

theorem runSegmentCompaction (h : r.Steady) {job : SegmentCompactionJob}
    (hjob : r.compacting = .planned job) {c : CompletedSegmentCompaction}
    (hrun : runSegmentCompaction r.store.dir job = .ok c) :
    Steady { r with compacting := .completed c } := by
  have hapart := h.apart
  rw [hjob] at hapart
  obtain ⟨hne, hlt, hold⟩ := hapart
  obtain ⟨copied, hcopied, hc⟩ := Except.of_bind_ok hrun
  cases hc
  obtain ⟨hmagic, hplaces⟩ := foldlM_copyRecord prefix_rfl (by simp) hcopied
  refine ⟨h.current, h.below, h.places, h.maps, hne, hlt, hold, ?_, hplaces⟩
  obtain ⟨more, hmore⟩ := hmagic
  show copied.1.take 8 = compactedMagic
  rw [← hmore]
  exact take_left' rfl

theorem get?_foldl_relocate {old : List ℕ} {out : ℕ} {new : List (String × DocLocation)}
    (hnew : ∀ e ∈ new, e.2.segment = out) {locations : Locations} {x : String} {loc : DocLocation}
    (hx : (new.foldl (relocate old) locations).get? x = some loc) :
    locations.get? x = some loc ∨ loc.segment = out := by
  induction new generalizing locations with
  | nil => exact .inl hx
  | cons e new ih =>
    obtain ⟨he, hnew⟩ := forall_mem_cons.mp hnew
    rcases ih hnew hx with h | h
    · rw [relocate] at h
      split at h
      · split_ifs at h
        · rw [get?_insert] at h
          split_ifs at h
          · cases h
            exact .inr he
          · exact .inl h
        · exact .inl h
      · exact .inl h
    · exact .inr h

theorem installSegmentCompaction (h : r.Steady) {c : CompletedSegmentCompaction}
    (hc : r.compacting = .completed c) :
    Steady ⟨(r.store.installSegmentCompaction c).2, .idle⟩ := by
  have hapart := h.apart
  rw [hc] at hapart
  obtain ⟨hne, hlt, hold, hmagic, hnew⟩ := hapart
  obtain ⟨current, hget, hcurrent⟩ := h.current
  set segments := (r.store.dir.segments.insert c.newSegmentId c.bytes).filter
    fun e => e.1 ∉ c.oldSegmentIds with hsegments
  have hget' : ∀ k, segments.get? k = if k ∈ c.oldSegmentIds then none
      else if k = c.newSegmentId then some c.bytes else r.store.dir.segments.get? k := by
    intro k
    rw [hsegments, get?_filter, get?_insert]
    by_cases hk : k ∈ c.oldSegmentIds
    · simp [hk]
    · rw [if_neg hk]
      generalize (if k = c.newSegmentId then some c.bytes else r.store.dir.segments.get? k) = o
      cases o with
      | none => rfl
      | some bytes => exact filter_some_pos (decide_eq_true hk)
  have hcur : segments.get? r.store.currentSegment = some current := by
    rw [hget', if_neg fun hin => lt_irrefl _ (hold _ hin), if_neg hne.symm]
    exact hget
  have hcurkey : r.store.currentSegment ∈ segments.keys := mem_keys.mpr ⟨current, hcur⟩
  have hkept : ∀ k, k ∈ r.store.dir.segments.keys ∨ k = c.newSegmentId → ∃ k' ∈ segments.keys, k ≤ k' := by
    intro k hk
    by_cases hin : k ∈ c.oldSegmentIds
    · exact ⟨_, hcurkey, (hold k hin).le⟩
    · refine ⟨k, mem_keys.mpr ?_, le_refl k⟩
      rw [hget', if_neg hin]
      split_ifs with heq
      · exact ⟨_, rfl⟩
      · exact mem_keys.mp (hk.resolve_right heq)
  have hplaces : PlacesOk segments (c.newLocations.foldl (relocate c.oldSegmentIds) r.store.locations) := by
    refine ⟨?_, ?_⟩
    · intro x loc hx
      rcases get?_foldl_relocate hnew hx with hx | hout
      · obtain ⟨k, hk, hle⟩ := h.places.bounded x loc hx
        obtain ⟨k', hk', hle'⟩ := hkept k (.inl hk)
        exact ⟨k', hk', hle.trans hle'⟩
      · exact hkept loc.segment (.inr hout)
    · intro x loc hx bytes hbytes hm
      rw [hget'] at hbytes
      split_ifs at hbytes with hin heq
      · -- the output of a compaction has another magic
        cases hbytes
        rw [hmagic] at hm
        exact absurd hm (by decide)
      · rcases get?_foldl_relocate hnew hx with hx | hout
        · exact h.places.readable x loc hx bytes hbytes hm
        · exact absurd hout heq
  refine ⟨⟨current, hcur, hcurrent⟩, ?_, hplaces, ?_, trivial⟩
  · intro k hk
    obtain ⟨v, hv⟩ := mem_keys.mp hk
    have hv : segments.get? k = some v := hv
    rw [hget'] at hv
    split_ifs at hv with hin heq
    · exact heq ▸ hlt
    · exact h.below k (mem_keys.mpr ⟨v, hv⟩)
  · intro m hm
    cases hm
    exact PlacesOk.saved (s := { r.store with dir := ⟨segments, _⟩, locations := _ }) hplaces _

theorem appendTo_cases {segments segments' : SortedMap ℕ ByteSeq} {next current next' : ℕ}
    (h : appendTo segments next = .ok (current, next', segments')) :
    (current = next ∧ next' = next + 1 ∧ segments' = segments.insert next magic) ∨
      (next' = next ∧ segments' = segments ∧
        ∃ bytes, segments.get? current = some bytes ∧ bytes.take 8 = magic) := by
  rw [appendTo] at h
  split at h
  · cases h
    exact .inl ⟨rfl, rfl, rfl⟩
  · next id bytes hlast =>
    split_ifs at h with hshort hmagic
    · cases h
      exact .inr ⟨rfl, rfl, bytes, mem_entries.mp (mem_of_getLast? hlast), hmagic⟩
    · cases h
      exact .inl ⟨rfl, rfl, rfl⟩

theorem reopen (h : r.Steady) (hopen : openWithMaps r.store.dir = .ok s') :
    Steady ⟨s', .idle⟩ := by
  have hne : ¬r.store.dir.segments.entries = [] := by
    obtain ⟨bytes, hget, -⟩ := h.current
    exact ne_nil_of_mem (mem_entries.mpr hget)
  rw [openWithMaps, ensureSegment, if_neg hne] at hopen
  obtain ⟨l, hload, hopen⟩ := Except.of_bind_ok hopen
  obtain ⟨⟨current, next, segments⟩, happ, hopen⟩ := Except.of_bind_ok hopen
  cases hopen
  obtain ⟨hl, hkeys⟩ := loaded_places h.maps hload
  have hplaces : PlacesOk l.segments l.locations := by
    refine ⟨?_, ?_⟩
    · intro x loc hx
      obtain ⟨k, hk, -, hle⟩ := hl.bounded x loc hx
      exact ⟨k, hk, hle⟩
    · intro x loc hx bytes hget hmagic
      obtain ⟨doc, hreads, -⟩ := hl.readable x loc bytes hx hget hmagic
      exact ⟨doc, hreads⟩
  have hbelow : ∀ k ∈ l.segments.keys, k < nextId r.store.dir.segments := by
    intro k hk
    exact lt_nextId (hkeys k hk)
  rcases appendTo_cases happ with ⟨rfl, rfl, rfl⟩ | ⟨rfl, rfl, hcurrent⟩
  · have hgrow := SegmentsGrow.insert hbelow magic
    refine ⟨⟨magic, ?_, rfl⟩, ?_, hplaces.grow hgrow, ?_, trivial⟩
    · show (l.segments.insert _ magic).get? _ = _
      rw [get?_insert, if_pos rfl]
    · intro k hk
      obtain ⟨v, hv⟩ := mem_keys.mp hk
      have hv : (l.segments.insert (nextId r.store.dir.segments) magic).get? k = some v := hv
      rw [get?_insert] at hv
      split_ifs at hv with heq
      · exact heq ▸ Nat.lt_succ_self _
      · exact (hbelow k (mem_keys.mpr ⟨v, hv⟩)).trans (Nat.lt_succ_self _)
    · intro m hm
      exact (hl.saved m hm).grow hgrow
  · exact ⟨hcurrent, hbelow, hplaces, hl.saved, trivial⟩

/-! ### Runs -/

theorem step (h : r.Steady) {st : StoreStep} {r' : StoreRun} (hstep : r.step st = .ok r') :
    r'.Steady := by
  obtain ⟨bytes, hget, -⟩ := h.current
  cases st with
  | put doc =>
    have hput := (h.putOne doc.2).raise doc.1.internalId
    rw [StoreRun.step, put_eq hget] at hstep
    split_ifs at hstep
    · cases hstep
      exact hput
    · cases hstep
      exact hput.rotated
  | putBatch docs =>
    have hdocs : ∀ doc ∈ docs.map Subtype.val, doc.Fits := by
      intro doc hdoc
      obtain ⟨d, -, rfl⟩ := mem_map.mp hdoc
      exact d.2
    obtain ⟨s', hrotate, hsteady⟩ := (h.foldl_putOne hdocs).maybeRotateSegment
    have hstep : r.withStore (BinaryDocumentStore.maybeRotateSegment
        ((docs.map Subtype.val).foldl BinaryDocumentStore.putOne r.store)) = .ok r' := hstep
    rw [hrotate] at hstep
    cases hstep
    exact hsteady
  | delete x =>
    cases hx : r.store.locations.get? x with
    | none =>
      rw [StoreRun.step, delete, hx] at hstep
      cases hstep
      exact h
    | some loc =>
      have hdelete := h.removeOne x loc.internalId
      rw [StoreRun.step, delete_eq hget hx] at hstep
      split_ifs at hstep
      · cases hstep
        exact hdelete
      · cases hstep
        exact hdelete.rotated
  | get x =>
    obtain ⟨s', hs', hstep⟩ := Except.of_bind_ok hstep
    cases hstep
    rw [BinaryDocumentStore.get] at hs'
    split at hs'
    · cases hs'
      exact h
    · split at hs'
      · cases hs'
        exact h
      · cases hread : r.store.dir.readDocumentAtPath _ _ with
        | error e =>
          rw [hread] at hs'
          cases hs'
        | ok doc =>
          rw [hread] at hs'
          cases hs'
          exact h.replace rfl rfl rfl h.places
  | evict x =>
    cases hstep
    exact h.replace rfl rfl rfl h.places
  | saveMaps =>
    cases hstep
    refine ⟨h.current, h.below, h.places, ?_, h.apart.mono rfl (le_refl _)⟩
    intro m hm
    cases hm
    exact h.places.saved _
  | planCompaction deadEnough tie targetSize =>
    rw [StoreRun.step] at hstep
    split at hstep
    · next job store _ hplan =>
      cases hstep
      exact h.planCompaction hplan
    · cases hstep
      exact h
  | runCompaction =>
    rw [StoreRun.step] at hstep
    split at hstep
    · next job hjob =>
      obtain ⟨c, hrun, hstep⟩ := Except.of_bind_ok hstep
      cases hstep
      exact h.runSegmentCompaction hjob hrun
    · cases hstep
      exact h
  | abandonCompaction =>
    cases hstep
    exact ⟨h.current, h.below, h.places, h.maps, trivial⟩
  | installCompaction =>
    rw [StoreRun.step] at hstep
    split at hstep
    · next c hc =>
      cases hstep
      exact h.installSegmentCompaction hc
    · cases hstep
      exact h
  | reopen =>
    obtain ⟨s', hopen, hstep⟩ := Except.of_bind_ok hstep
    cases hstep
    exact h.reopen hopen

end StoreRun.Steady

variable {s s' : BinaryDocumentStore}

theorem failedAppend_eq {bytes : ByteSeq} {f : WriteFailure}
    (h : s.failedAppend bytes f = some s') :
    s' = { s with dir := s'.dir, nextSegmentId := s'.nextSegmentId } := by
  cases f with
  | opening =>
    cases h
    rfl
  | writing recorded written =>
    cases h
    rfl
  | measuring =>
    cases h
    rfl
  | rotating created =>
    rw [failedAppend] at h
    split_ifs at h
    cases h
    rfl

theorem FailedCall.after_putBatch {docs : List FittingDocument} {f : WriteFailure}
    (hc : (putBatch docs f).recorded = []) (s : BinaryDocumentStore) :
    (putBatch docs f).after s = s.failedAppend (encodeAll (((docs.map Subtype.val).take 1).map .put)) f := by
  have hnone : (docs.map Subtype.val).take (f.recorded (docs.map Subtype.val).length) = [] := by
    rw [length_map, ← map_take]
    exact map_eq_nil_iff.mpr hc
  have hfirst : (docs.map Subtype.val).take (f.recorded (docs.map Subtype.val).length + 1) =
      (docs.map Subtype.val).take 1 := by
    rcases take_eq_nil_iff.mp hnone with hzero | hnil
    · rw [hzero]
    · rw [hnil, take_nil, take_nil]
  rw [FailedCall.after, failedBatch, hnone, hfirst]
  cases hfiles : s.failedAppend (encodeAll (((docs.map Subtype.val).take 1).map .put)) f with
  | none => rfl
  | some files => exact congrArg some (failedAppend_eq hfiles).symm

theorem FailedCall.after_early {c : FailedCall} (hc : c.recorded = [])
    (h : c.after s = some s') : ∃ bytes f, s.failedAppend bytes f = some s' := by
  cases c with
  | put doc f => exact ⟨_, f, h⟩
  | putBatch docs f =>
    rw [after_putBatch hc] at h
    exact ⟨_, f, h⟩
  | delete x f =>
    obtain ⟨loc, -, h⟩ := bind_eq_some_iff.mp h
    exact ⟨_, f, h⟩

theorem StoreRun.Steady.failed {r : StoreRun} (h : r.Steady) {c : FailedCall} (hc : c.recorded = [])
    (hfail : c.after r.store = some s') : Steady { r with store := s' } := by
  obtain ⟨bytes, f, hfail⟩ := FailedCall.after_early hc hfail
  exact h.failedAppend hfail

namespace MappedRun

def FailsEarly (es : List StoreEvent) : Prop := ∀ c, StoreEvent.failed c ∈ es → c.recorded = []

variable {m m' : MappedRun}

theorem steady_event (h : m.run.Steady) {e : StoreEvent} (he : FailsEarly [e])
    (hrun : m.event e = .ok m') : m'.run.Steady := by
  cases e with
  | step st =>
    obtain ⟨run, hstep, hrun⟩ := Except.of_bind_ok hrun
    obtain ⟨ids, -, hrun⟩ := Except.of_bind_ok hrun
    cases hrun
    exact h.step hstep
  | failed c =>
    cases hrun
    cases hafter : c.after m.run.store with
    | none =>
      rw [failed, hafter]
      exact h
    | some s' =>
      rw [failed, hafter]
      exact h.failed (he c mem_cons_self) hafter

theorem steady_run {es : List StoreEvent} (h : m.run.Steady) (he : FailsEarly es)
    (hrun : m.events es = .ok m') : m'.run.Steady := by
  induction es generalizing m with
  | nil =>
    cases hrun
    exact h
  | cons e es ih =>
    rw [events, foldlM_cons] at hrun
    obtain ⟨next, hevent, hrun⟩ := Except.of_bind_ok hrun
    have hfirst : FailsEarly [e] := fun c hc => he c (mem_cons.mpr (.inl (mem_singleton.mp hc)))
    exact ih (steady_event h hfirst hevent) (fun c hc => he c (mem_cons_of_mem e hc)) hrun

theorem steady_new : new.run.Steady := by
  have hempty : (StoreRun.new.store.dir.segments).keys = [0] := rfl
  refine ⟨⟨magic, rfl, rfl⟩, ?_, ⟨?_, ?_⟩, ?_, trivial⟩
  · intro id hid
    have hid : id ∈ StoreRun.new.store.dir.segments.keys := hid
    rw [hempty, mem_singleton] at hid
    exact hid ▸ Nat.zero_lt_one
  · intro x loc hx
    cases hx
  · intro x loc hx
    cases hx
  · intro m hm
    cases hm

/-! ### What a failing call changes -/

variable {bytes : ByteSeq} {s' : BinaryDocumentStore}

theorem failedAppend_grow {r : StoreRun} (h : r.Steady) {f : WriteFailure}
    (hfail : r.store.failedAppend bytes f = some s') :
    SegmentsGrow r.store.dir.segments s'.dir.segments := by
  obtain ⟨current, hget, hmagic⟩ := h.current
  have happend : ∀ more, SegmentsGrow r.store.dir.segments (r.store.appendBytes more).dir.segments :=
    fun more => SegmentsGrow.append hget hmagic more (StoreRun.Steady.get?_append hget more)
  cases f with
  | opening =>
    cases hfail
    exact ⟨fun id old hold => ⟨old, hold, .inl rfl⟩, fun id hid hnot => absurd hid hnot⟩
  | writing recorded written =>
    cases hfail
    exact happend _
  | measuring =>
    cases hfail
    exact happend _
  | rotating created =>
    rw [failedAppend] at hfail
    split_ifs at hfail
    cases hfail
    cases created with
    | none => exact happend bytes
    | some n =>
      exact (happend bytes).trans (SegmentsGrow.insert (h.appendBytes bytes).below (magic.take n))

theorem read_unchanged {r : StoreRun} (h : r.Steady) {dir : StoreDir}
    (hgrow : SegmentsGrow r.store.dir.segments dir.segments) {x : String} {loc : DocLocation}
    (hx : r.store.locations.get? x = some loc) :
    dir.readDocumentAtPath loc.segment loc.offset =
      r.store.dir.readDocumentAtPath loc.segment loc.offset := by
  have hread : ∀ (d : StoreDir) bytes doc, d.segments.get? loc.segment = some bytes →
      ReadsAt bytes loc.offset doc → d.readDocumentAtPath loc.segment loc.offset = .ok doc := by
    intro d bytes doc hget hreads
    obtain ⟨rest, hreads⟩ := hreads
    rw [readDocumentAtPath, hget]
    simp only [hreads]
  cases hget : r.store.dir.segments.get? loc.segment with
  | none =>
    -- no segment is made later at the place of a document
    have hnone : dir.segments.get? loc.segment = none := by
      by_contra hne
      obtain ⟨bytes, hbytes⟩ := ne_none_iff_exists'.mp hne
      obtain ⟨k, hk, hle⟩ := h.places.bounded x loc hx
      obtain ⟨old, hold⟩ := mem_keys.mp
        (hgrow.mem_of_le (mem_keys.mpr ⟨bytes, hbytes⟩) hk hle)
      rw [hget] at hold
      cases hold
    rw [readDocumentAtPath, readDocumentAtPath, hget, hnone]
  | some bytes =>
    obtain ⟨bytes', hget', rfl | ⟨hpre, hmagic⟩⟩ := hgrow.old _ _ hget
    · rw [readDocumentAtPath, readDocumentAtPath, hget, hget']
    · obtain ⟨doc, hreads⟩ := h.places.readable x loc hx bytes hget hmagic
      rw [hread _ _ doc hget hreads, hread _ _ doc hget' (hreads.mono hpre)]

theorem get_unchanged {r : StoreRun} (h : r.Steady)
    (hgrow : SegmentsGrow r.store.dir.segments s'.dir.segments)
    (hloc : s'.locations = r.store.locations) (hdocs : s'.docs = r.store.docs) (x : String) :
    (s'.get x).map Prod.fst = (r.store.get x).map Prod.fst := by
  rw [BinaryDocumentStore.get, BinaryDocumentStore.get, hloc, hdocs]
  cases hx : r.store.docs.get? x with
  | some doc => rfl
  | none =>
    cases hl : r.store.locations.get? x with
    | none => rfl
    | some loc =>
      simp only
      rw [read_unchanged h hgrow hl]
      cases r.store.dir.readDocumentAtPath loc.segment loc.offset <;> rfl

variable {s : BinaryDocumentStore}

theorem current_foldl_putOne (hget : s.dir.segments.get? s.currentSegment = some bytes) (docs : List StoredDocument) :
    (docs.foldl putOne s).currentSegment = s.currentSegment ∧
      ∃ more, (docs.foldl putOne s).dir.segments.get? s.currentSegment = some (bytes ++ more) := by
  induction docs generalizing s bytes with
  | nil => exact ⟨rfl, [], by rw [append_nil]; exact hget⟩
  | cons doc docs ih =>
    obtain ⟨hcur, more, hmore⟩ := ih (s := s.putOne doc) (get?_appendBytes hget _)
    exact ⟨hcur, _, hmore.trans (congrArg some (append_assoc _ _ _))⟩

theorem locations_foldl_putOne (hget : s.dir.segments.get? s.currentSegment = some bytes) {docs : List StoredDocument}
    (hne : docs ≠ []) : ∃ x loc, (docs.foldl putOne s).locations.get? x = some loc ∧
      loc.segment = s.currentSegment ∧ bytes.length < loc.offset := by
  obtain ⟨init, doc, rfl⟩ := (eq_nil_or_concat docs).resolve_left hne
  obtain ⟨hcur, more, hmore⟩ := current_foldl_putOne hget init
  rw [concat_eq_append, foldl_append]
  refine ⟨doc.externalId, _, (get?_insert _ _ _ _).trans (if_pos rfl), hcur, ?_⟩
  rw [← hcur] at hmore
  show bytes.length < (((init.foldl putOne s).dir.segments.get? _).getD []).length + 1
  rw [hmore, getD_some, length_append]
  omega

theorem unchanged_iff (h : m.run.Steady) {c : FailedCall}
    (hfail : m.failed c = some m') : Unchanged m m' ↔ c.recorded = [] := by
  obtain ⟨s', hafter, heq⟩ := map_eq_some_iff.mp hfail
  cases heq
  constructor
  · intro hsame
    by_contra hne
    cases c with
    | put doc f => exact hne rfl
    | delete x f => exact hne rfl
    | putBatch docs f =>
      obtain ⟨bytes, hget, hmagic⟩ := h.current
      obtain ⟨files, -, heq⟩ := map_eq_some_iff.mp hafter
      have hdocs : (docs.map Subtype.val).take (f.recorded (docs.map Subtype.val).length) ≠ [] := by
        rw [length_map, ← map_take]
        exact fun hnil => hne (map_eq_nil_iff.mp hnil)
      obtain ⟨x, loc, hx, hseg, hlt⟩ := locations_foldl_putOne hget hdocs
      have hloc : s'.locations.get? x = some loc := by
        rw [← heq]
        exact hx
      rw [show s'.locations = m.run.store.locations from hsame.locations] at hloc
      obtain ⟨doc, hreads⟩ := h.places.readable x loc hloc bytes (hseg ▸ hget) hmagic
      exact absurd hreads.lt_length (not_lt.mpr hlt.le)
  · intro hc
    obtain ⟨bytes, f, happ⟩ := FailedCall.after_early hc hafter
    have hs' := failedAppend_eq happ
    have hloc : s'.locations = m.run.store.locations := by rw [hs']
    have hdocs : s'.docs = m.run.store.docs := by rw [hs']
    refine ⟨hloc, ?_, hdocs, ?_⟩
    · rw [hc]
      rfl
    · exact get_unchanged h (failedAppend_grow h happ) hloc hdocs

/-- After every run whose failing calls have recorded no document, the next failing call leaves the store
as it was exactly when it has recorded none. -/
theorem failed_unchanged_iff (es : List StoreEvent) (he : FailsEarly es) (m : MappedRun)
    (hrun : new.events es = .ok m) (c : FailedCall) (m' : MappedRun) (hfail : m.failed c = some m') :
    Unchanged m m' ↔ c.recorded = [] :=
  unchanged_iff (steady_run steady_new he hrun) hfail

def someDocument : FittingDocument := ⟨⟨"a", 1, .json, []⟩, ⟨by decide, by decide⟩⟩

def otherDocument : FittingDocument := ⟨⟨"b", 2, .json, [7]⟩, ⟨by decide, by decide⟩⟩

def earlyFailures : List StoreEvent :=
  [.step (.put someDocument), .failed (.put otherDocument (.writing 0 3)),
    .step (.putBatch [otherDocument]), .failed (.delete "a" .opening)]

/-- A store with two documents, written between failing calls; then a batch that would replace both fails
in its first record. -/
theorem failed_puts_unchanged :
    ∃ m m', new.events earlyFailures = .ok m ∧ m.run.store.locations.keys = ["a", "b"] ∧
      m.failed (.putBatch [someDocument, otherDocument] (.writing 0 7)) = some m' ∧ Unchanged m m' := by
  have he : FailsEarly earlyFailures := by
    intro c hc
    simp only [earlyFailures, mem_cons, StoreEvent.failed.injEq, reduceCtorEq, not_mem_nil, false_or, or_false] at hc
    rcases hc with rfl | rfl <;> rfl
  exact ⟨_, _, rfl, by decide, rfl,
    (failed_unchanged_iff _ he _ rfl (.putBatch [someDocument, otherDocument] (.writing 0 7)) _ rfl).mpr rfl⟩

def unflushed : FailedCall := .putBatch [someDocument] (.writing 1 0)

/-- Nothing is written, and the document is in the maps and is got. -/
theorem unflushed_recorded :
    ∃ m', new.failed unflushed = some m' ∧ m'.run.store.dir = new.run.store.dir ∧
      (m'.run.store.get "a").map Prod.fst = .ok (some someDocument.1) ∧
      (new.run.store.get "a").map Prod.fst = .ok none ∧ ¬Unchanged new m' := by
  refine ⟨_, rfl, rfl, rfl, rfl, ?_⟩
  intro h
  have hget : Except.ok (some someDocument.1) = (Except.ok none : IoResult (Option StoredDocument)) :=
    h.get "a"
  cases hget

end MappedRun

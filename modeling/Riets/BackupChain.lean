/-
A chain of backups restores the store as it was.
-/
import Riets.BackupLinks
import Riets.LoadAgreement

open BinaryDocumentStore BackupManager StoreDir List

def sourceOf (s : BinaryDocumentStore) (x : String) : IoResult (Option ByteSeq) :=
  (StoreRun.fetched s x).map fun doc => doc.map StoredDocument.source

/-- A backup gives the documents of a store: `restore_chain` returns, and the store
opened on the restored files has the same sources. -/
def Restores (backups : BackupDir) (id : String) (s : BinaryDocumentStore) : Prop :=
  ∃ files opened,
    (∃ n, ∀ turns, n ≤ turns → restoreChain backups turns id .empty = some (.ok files)) ∧
    openWithMaps ⟨files, none⟩ = .ok opened ∧ ∀ x, sourceOf opened x = sourceOf s x

theorem StoreRun.Valid.opened {r : StoreRun} {logs : Logs} (h : r.Valid logs) :
    ∃ opened logs', openWithMaps ⟨r.store.dir.segments, none⟩ = .ok opened ∧
      opened.Ok logs' ∧ logs.Grows logs' ∧ opened.locations =
        (Loading.replay ⟨r.store.dir.segments, .empty, 0⟩ (allPlaced logs)).locations := by
  let bare : StoreRun := ⟨{ r.store with dir := ⟨r.store.dir.segments, none⟩ }, .idle⟩
  have hbare : bare.Valid logs := by
    refine ⟨⟨⟨h.store.segments, h.store.fit, h.store.located, h.store.cached, h.store.current,
      h.store.below, h.store.above⟩, trivial⟩, fun m hm => ?_⟩
    cases hm
  obtain ⟨opened, logs', hopen, hvalid, hlogs, -, hscan, -⟩ := hbare.reopened
  refine ⟨opened, logs', hopen, hvalid.store, ?_, hscan rfl⟩
  rcases hlogs with rfl | ⟨id, hid, rfl⟩
  · exact Logs.Grows.refl _
  · refine Logs.insert_grows ?_ _
    by_contra hne
    obtain ⟨l, hl⟩ := Option.ne_none_iff_exists'.1 hne
    exact lt_irrefl _ (hid id (SortedMap.mem_keys.2 ⟨l, hl⟩))

theorem StoreRun.Agrees.opened {r : StoreRun} {logs : Logs} (h : r.Valid logs)
    (hagree : r.Agrees) :
    ∃ opened, openWithMaps ⟨r.store.dir.segments, none⟩ = .ok opened ∧
      ∀ x, sourceOf opened x = sourceOf r.store x := by
  obtain ⟨opened, logs', hopen, hok, hgrows, hloc⟩ := h.opened
  refine ⟨opened, hopen, fun x => ?_⟩
  have hsame : (Loading.replay ⟨r.store.dir.segments, .empty, 0⟩ (allPlaced logs)).fetch x =
      Loading.fetch ⟨r.store.dir.segments, r.store.locations, 0⟩ x := hagree.fetch_load h x
  have hlocated : ∀ x loc,
      (Loading.replay ⟨r.store.dir.segments, .empty, 0⟩ (allPlaced logs)).locations.get? x = some loc →
      ∃ doc, doc.externalId = x ∧ At logs loc doc :=
    located_replay _ _ (fun _ hp => hp) (by simp)
  have hseg : (Loading.replay ⟨r.store.dir.segments, .empty, 0⟩ (allPlaced logs)).segments =
      logs.map SegmentLog.bytes := (Loading.replay_segments _ _).trans h.store.segments
  rw [sourceOf, sourceOf]
  cases hx : r.store.locations.get? x with
  | none =>
    rw [fetch_none (l := ⟨r.store.dir.segments, r.store.locations, 0⟩) hx] at hsame
    have hnone : opened.locations.get? x = none := by
      by_contra hne
      obtain ⟨loc, hget⟩ := Option.ne_none_iff_exists'.1 hne
      rw [hloc] at hget
      obtain ⟨doc, -, hat⟩ := hlocated x loc hget
      rw [fetch_some hseg h.store.fit hget hat] at hsame
      cases hsame
    rw [StoreRun.fetched_none h.store hx, StoreRun.fetched_none hok hnone]
  | some loc =>
    obtain ⟨doc, hdoc, hat⟩ := h.store.located x loc hx
    rw [fetch_some (l := ⟨r.store.dir.segments, r.store.locations, 0⟩) h.store.segments
      h.store.fit hx hat] at hsame
    cases hget : opened.locations.get? x with
    | none =>
      rw [hloc] at hget
      rw [fetch_none hget] at hsame
      cases hsame
    | some loc' =>
      have hget' := hget
      rw [hloc] at hget'
      obtain ⟨doc', hdoc', hat'⟩ := hlocated x loc' hget'
      rw [fetch_some hseg h.store.fit hget' hat', Option.some_inj, Prod.mk.injEq] at hsame
      rw [StoreRun.fetched_some h.store hx hat hdoc,
        StoreRun.fetched_some hok hget (hat'.grows hgrows) hdoc']
      show Except.ok (some doc'.source) = Except.ok (some doc.source)
      rw [hsame.2]

/-! ### Chains -/

/-- The backups that end in `id` are a chain: the manifests, oldest first, and the
files they give. -/
inductive Chained (backups : BackupDir) :
    String → List BackupManifest → SortedMap ℕ ByteSeq → Prop
  | full {id : String} {b : ShardBackup} (hget : backups.get? id = some b)
      (hid : b.manifest.backupId = id) (htype : b.manifest.backupType = .full) :
      Chained backups id [b.manifest] b.archive
  | incremental {parent id : String} {p b : ShardBackup} {ms : List BackupManifest}
      {files : SortedMap ℕ ByteSeq} (hchain : Chained backups parent ms files)
      (hparent : backups.get? parent = some p) (hget : backups.get? id = some b)
      (hid : b.manifest.backupId = id) (htype : b.manifest.backupType = .incremental)
      (hlink : b.manifest.parentBackupId = some parent)
      (hmeets : gap p.manifest b.manifest = false) :
      Chained backups id (ms ++ [b.manifest]) (applyPieces p.manifest files b.documents)

namespace Chained

variable {backups backups' : BackupDir} {id : String} {ms : List BackupManifest}
  {files : SortedMap ℕ ByteSeq}

section

variable (h : Chained backups id ms files)
include h

theorem last :
    ∃ init b, ms = init ++ [b.manifest] ∧ backups.get? id = some b ∧ b.manifest.backupId = id := by
  cases h with
  | full hget hid htype => exact ⟨[], _, rfl, hget, hid⟩
  | incremental hchain hparent hget hid htype hlink hmeets => exact ⟨_, _, rfl, hget, hid⟩

theorem congr
    (hsame : ∀ m ∈ ms, backups'.get? m.backupId = backups.get? m.backupId) :
    Chained backups' id ms files := by
  induction h with
  | @full id b hget hid htype =>
    have := hsame b.manifest (mem_singleton.2 rfl)
    rw [hid, hget] at this
    exact .full this hid htype
  | @incremental parent id p b ms files hchain hparent hget hid htype hlink hmeets ih =>
    have hself := hsame b.manifest (mem_append_right _ (mem_singleton.2 rfl))
    rw [hid, hget] at hself
    obtain ⟨init, p', hms, hp', hpid⟩ := hchain.last
    rw [hparent] at hp'
    cases hp'
    have hpar := hsame p.manifest (by rw [hms]; simp)
    rw [hpid, hparent] at hpar
    exact .incremental (ih fun m hm => hsame m (mem_append_left _ hm)) hpar hself hid htype
      hlink hmeets

theorem get?_ne_none {m : BackupManifest} (hm : m ∈ ms) :
    backups.get? m.backupId ≠ none := by
  induction h with
  | full hget hid htype =>
    rw [mem_singleton.1 hm, hid, hget]
    simp
  | incremental hchain hparent hget hid htype hlink hmeets ih =>
    rcases mem_append.1 hm with hm | hm
    · exact ih hm
    · rw [mem_singleton.1 hm, hid, hget]
      simp

theorem linked : LinkedTo backups id ms := by
  induction h with
  | full hget hid htype =>
    exact .root (congrArg (Option.map ShardBackup.manifest) hget)
      (BackupManifest.link_eq_root.2 htype)
  | incremental hchain hparent hget hid htype hlink hmeets ih =>
    exact ih.child (congrArg (Option.map ShardBackup.manifest) hget)
      (BackupManifest.link_eq_child.2 ⟨htype, hlink⟩)

theorem checkChain_eq : checkChain ms = .ok () := by
  rw [checkChain_eq_ok]
  induction h with
  | full hget hid htype => exact isChain_singleton _
  | incremental hchain hparent hget hid htype hlink hmeets ih =>
    obtain ⟨init, p', rfl, hp', -⟩ := hchain.last
    rw [hparent] at hp'
    cases hp'
    exact isChain_append.2 ⟨ih, isChain_singleton _, by simpa using hmeets⟩

theorem restored :
    ms.foldlM (fun target m => restore backups m.backupId target) .empty = .ok files := by
  induction h with
  | @full id b hget hid htype =>
    have hall : SortedMap.mergeWith (fun _ file => file) .empty b.archive = b.archive := by
      refine SortedMap.ext_get? fun k => ?_
      rw [SortedMap.get?_mergeWith]
      cases b.archive.get? k <;> rfl
    rw [foldlM_cons, hid, restore, hget]
    simp only [htype, hall]
    rfl
  | incremental hchain hparent hget hid htype hlink hmeets ih =>
    rw [foldlM_append, ih]
    show foldlM _ _ _ = _
    rw [foldlM_cons, hid, restore, hget]
    simp only [htype, hlink, loadManifest, hparent]
    rfl

theorem restoreChain_eq (hid : isValidBackupId id)
    {turns : ℕ} (hturns : ms.length ≤ turns) :
    restoreChain backups turns id .empty = some (.ok files) := by
  rw [restoreChain_eq_plan, h.linked.restorePlan_eq hid hturns, h.checkChain_eq]
  show some (foldlM _ _ _) = _
  rw [h.restored]

end

end Chained

/-! ### The bookmark -/

/-- Files of a backup and a bookmark are behind the files of the store: they are
the same below the bookmark, and the store has only added to its segment and
above it. -/
structure Behind (files segments : SortedMap ℕ ByteSeq) (last offset : ℕ) : Prop where
  below : ∀ id, id < last → segments.get? id = files.get? id
  bookmark : ∃ old more, files.get? last = some old ∧ old.length = offset ∧
    segments.get? last = some (old ++ more)
  above : ∀ id, last < id → files.get? id = none

/-- Bytes were only added, and none below `from`. -/
structure Appended (segments segments' : SortedMap ℕ ByteSeq) (floor : ℕ) : Prop where
  below : ∀ id, id < floor → segments'.get? id = segments.get? id
  grows : ∀ id bytes, segments.get? id = some bytes → ∃ more, segments'.get? id = some (bytes ++ more)

namespace Behind

variable {files segments segments' : SortedMap ℕ ByteSeq} {last offset : ℕ}

theorem appended (h : Behind files segments last offset) {floor : ℕ}
    (ha : Appended segments segments' floor) (hfloor : last ≤ floor) :
    Behind files segments' last offset := by
  obtain ⟨old, more, hold, hlen, hmore⟩ := h.bookmark
  obtain ⟨more', hmore'⟩ := ha.grows last _ hmore
  refine ⟨fun id hid => ?_, ⟨old, more ++ more', hold, hlen, ?_⟩, h.above⟩
  · rw [ha.below id (by omega), h.below id hid]
  · rw [hmore', append_assoc]

theorem copy {bytes : ByteSeq} (h : segments.entries.getLast? = some (last, bytes)) :
    Behind segments segments last bytes.length := by
  obtain ⟨init, hinit⟩ := getLast?_eq_some_iff.1 h
  have hget : segments.get? last = some bytes := by
    rw [← SortedMap.mem_entries, hinit]
    simp
  refine ⟨fun _ _ => rfl, ⟨bytes, [], hget, rfl, by rw [hget, append_nil]⟩, fun id hid => ?_⟩
  by_contra hne
  obtain ⟨b, hb⟩ := Option.ne_none_iff_exists'.1 hne
  rw [← SortedMap.mem_entries, hinit, mem_append, mem_singleton] at hb
  have hasc := segments.ascending
  rw [hinit] at hasc
  rcases hb with hb | hb
  · have hlt : id < last := (pairwise_append.1 hasc).2.2 _ hb _ (mem_singleton.2 rfl)
    omega
  · cases hb
    exact lt_irrefl _ hid

end Behind

theorem diffOf_id {last offset : ℕ} {e : ℕ × ByteSeq} {d : SegmentDiff}
    (h : diffOf last offset e = some d) : d.id = e.1 := by
  unfold diffOf at h
  simp only at h
  split_ifs at h <;> cases h <;> rfl

theorem get?_pieces (segments : SortedMap ℕ ByteSeq) (last offset k : ℕ) :
    (pieces segments (readSegmentDiff segments last offset) .empty).get? k =
      (segments.get? k).bind fun bytes =>
        (diffOf last offset (k, bytes)).map fun d => d.piece segments := by
  have hasc : Keyed.Ascending SegmentDiff.id (readSegmentDiff segments last offset) :=
    Keyed.ascending_filterMap (fun _ _ h => diffOf_id h) segments.ascending
  have hfind : Keyed.find SegmentDiff.id k (readSegmentDiff segments last offset) =
      (Keyed.find Prod.fst k segments.entries).bind (diffOf last offset) :=
    Keyed.find_filterMap (fun _ _ h => diffOf_id h) segments.ascending k
  rw [pieces, SortedMap.get?_extend, filter_map]
  show (map _ ((readSegmentDiff segments last offset).filter fun d => d.id = k)).foldl _ _ = _
  have hget : segments.get? k = (Keyed.find Prod.fst k segments.entries).map Prod.snd := rfl
  rw [Keyed.filter_eq_find hasc, hfind, hget]
  cases h : Keyed.find Prod.fst k segments.entries with
  | none => rfl
  | some e =>
    obtain rfl : e.1 = k := Keyed.find_key h
    rw [Option.bind_some, Option.map_some, Option.bind_some]
    show foldl _ _ (map _ (diffOf last offset e).toList) =
      Option.map _ (diffOf last offset e)
    cases diffOf last offset e <;> rfl

namespace Behind

variable {files segments : SortedMap ℕ ByteSeq} {last offset : ℕ}

theorem applied (h : Behind files segments last offset)
    (hne : ∀ id bytes, segments.get? id = some bytes → bytes ≠ []) {p : BackupManifest}
    (hlast : p.lastBackupSegment = last) (hoffset : p.lastBackupOffset = offset) :
    applyPieces p files (pieces segments (readSegmentDiff segments last offset) .empty) =
      segments := by
  refine SortedMap.ext_get? fun k => ?_
  rw [applyPieces, SortedMap.get?_absorb, get?_pieces, hlast, hoffset]
  obtain ⟨old, more, hold, hlen, hmore⟩ := h.bookmark
  rcases Nat.lt_trichotomy k last with hk | rfl | hk
  · -- below the bookmark nothing changed and no piece is written
    rw [← h.below k hk]
    cases segments.get? k with
    | none => rfl
    | some bytes => simp [diffOf, hk]
  · rw [hmore, hold]
    cases more with
    | nil => simp [diffOf, hlen]
    | cons b more =>
      have hlong : offset < (old ++ b :: more).length := by
        rw [length_append, hlen, length_cons]
        omega
      have hpiece : (SegmentDiff.mk k offset (old ++ b :: more).length).piece segments =
          b :: more := by
        rw [SegmentDiff.piece, hmore, Option.getD_some, ← hlen, drop_left, length_append,
          Nat.add_sub_cancel_left, take_length]
      rw [Option.bind_some, diffOf, if_neg (lt_irrefl k), if_pos rfl, if_pos hlong, Option.map_some,
        hpiece, Option.map_some]
      show some (writeAt old offset (b :: more)) = _
      rw [← hlen]
      simpa using writeAt_append old [] (b :: more)
  · rw [h.above k hk]
    cases hseg : segments.get? k with
    | none => rfl
    | some bytes =>
      have hpos := length_pos_iff.2 (hne k bytes hseg)
      simp [diffOf, not_lt_of_gt hk, ne_of_gt hk, hpos, SegmentDiff.piece, hseg, writeAt]

theorem getLast?_diff (h : Behind files segments last offset)
    (hne : ∀ id bytes, segments.get? id = some bytes → bytes ≠ []) {d : SegmentDiff}
    (hd : (readSegmentDiff segments last offset).getLast? = some d) :
    ∃ bytes, segments.entries.getLast? = some (d.id, bytes) ∧ d.stop = bytes.length ∧
      last ≤ d.id := by
  obtain ⟨old, more, -, -, hmore⟩ := h.bookmark
  have hmem := SortedMap.mem_entries.2 hmore
  rcases eq_nil_or_concat segments.entries with hnil | ⟨init, e, hinit⟩
  · rw [hnil] at hmem
    cases hmem
  · have hasc := segments.ascending
    rw [concat_eq_append] at hinit
    rw [hinit] at hasc hmem
    have hbefore : ∀ e' ∈ init, e'.1 < e.1 := fun e' he' =>
      (pairwise_append.1 hasc).2.2 e' he' e (mem_singleton.2 rfl)
    have hle : last ≤ e.1 := by
      rcases mem_append.1 hmem with hm | hm
      · exact le_of_lt (hbefore _ hm)
      · rw [← mem_singleton.1 hm]
    rw [readSegmentDiff, hinit, filterMap_append, filterMap_cons, filterMap_nil] at hd
    cases hde : diffOf last offset e with
    | some d' =>
      simp only [hde, getLast?_append, getLast?_singleton, Option.some_or,
        Option.some_inj] at hd
      subst hd
      have hid := diffOf_id hde
      refine ⟨e.2, by rw [hinit, getLast?_append, hid]; rfl, ?_, by rw [hid]; exact hle⟩
      unfold diffOf at hde
      simp only at hde
      split_ifs at hde <;> cases hde <;> rfl
    | none =>
      -- the last segment did not grow, so it is the one of the bookmark and there is no diff
      have hlast : e.1 = last := by
        by_contra hneq
        have hend : (e.1, e.2) ∈ segments.entries := by
          rw [hinit]
          exact mem_append_right _ (mem_singleton.2 rfl)
        have hpos := length_pos_iff.2 (hne _ _ (SortedMap.mem_entries.1 hend))
        rw [diffOf, if_neg (not_lt.2 hle), if_neg hneq, if_pos hpos] at hde
        cases hde
      have hnone : init.filterMap (diffOf last offset) = [] := by
        rw [filterMap_eq_nil_iff]
        intro e' he'
        rw [diffOf, if_pos (hlast ▸ hbefore e' he')]
      simp only [hde, hnone] at hd
      cases hd

theorem eq_of_diff_nil (h : Behind files segments last offset)
    (hne : ∀ id bytes, segments.get? id = some bytes → bytes ≠ [])
    (hnil : readSegmentDiff segments last offset = []) : files = segments := by
  have happlied := h.applied hne (p := ⟨"", .full, 0, none, last, offset⟩) rfl rfl
  rwa [hnil] at happlied

end Behind

/-! ### What a step adds to the files -/

def StoreRun.Writes (r : StoreRun) : StoreStep → Prop
  | .put _ => True
  | .putBatch docs => docs ≠ []
  | .delete x => r.store.locations.get? x ≠ none
  | _ => False

namespace Appended

variable {segments segments' segments'' : SortedMap ℕ ByteSeq} {floor floor' : ℕ}

theorem refl (segments : SortedMap ℕ ByteSeq) (floor : ℕ) : Appended segments segments floor := by
  refine ⟨fun _ _ => rfl, fun id bytes hget => ⟨[], ?_⟩⟩
  rw [hget, append_nil]

theorem mono (h : Appended segments segments' floor) (hle : floor' ≤ floor) :
    Appended segments segments' floor' :=
  ⟨fun id hid => h.below id (lt_of_lt_of_le hid hle), h.grows⟩

theorem trans (h : Appended segments segments' floor) (h' : Appended segments' segments'' floor) :
    Appended segments segments'' floor := by
  refine ⟨fun id hid => ?_, fun id bytes hget => ?_⟩
  · rw [h'.below id hid, h.below id hid]
  · obtain ⟨more, hmore⟩ := h.grows id bytes hget
    obtain ⟨more', hmore'⟩ := h'.grows id _ hmore
    exact ⟨more ++ more', by rw [hmore', append_assoc]⟩

theorem insert {id : ℕ} (hnew : segments.get? id = none) (hfloor : floor ≤ id) (bytes : ByteSeq) :
    Appended segments (segments.insert id bytes) floor := by
  refine ⟨fun id' hid' => ?_, fun id' old hold => ⟨[], ?_⟩⟩
  · rw [SortedMap.get?_insert, if_neg]
    omega
  · rw [SortedMap.get?_insert, if_neg, hold, append_nil]
    intro heq
    rw [heq, hnew] at hold
    cases hold

variable {s : BinaryDocumentStore} {logs : Logs}

theorem appendBytes {bytes : ByteSeq} (hget : s.dir.segments.get? s.currentSegment = some bytes)
    (more : ByteSeq) :
    Appended s.dir.segments (s.appendBytes more).dir.segments s.currentSegment := by
  refine ⟨fun id hid => ?_, fun id old hold => ?_⟩
  · exact (SortedMap.get?_upsert _ _ _ id).trans (if_neg (ne_of_lt hid))
  · by_cases hid : id = s.currentSegment
    · subst hid
      rw [hget] at hold
      cases hold
      exact ⟨more, get?_appendBytes hget more⟩
    · refine ⟨[], (SortedMap.get?_upsert _ _ _ id).trans ?_⟩
      rw [if_neg hid, hold, append_nil]

theorem rotated (h : s.Ok logs) (hfloor : floor ≤ s.nextSegmentId) :
    Appended s.dir.segments s.rotated.dir.segments floor := by
  refine insert ?_ hfloor _
  rw [h.get?_segments, h.next_free]
  rfl

theorem foldl_putOne {r : StoreRun} (h : r.Valid logs) {docs : List StoredDocument}
    (hdocs : ∀ doc ∈ docs, doc.Fits) :
    Appended r.store.dir.segments (docs.foldl putOne r.store).dir.segments
      r.store.currentSegment := by
  induction docs generalizing r logs with
  | nil => exact refl _ _
  | cons doc docs ih =>
    obtain ⟨l, hl, hget⟩ := h.current_bytes
    have hone : Appended r.store.dir.segments (r.store.putOne doc).dir.segments
        r.store.currentSegment := appendBytes hget _
    exact hone.trans (ih (h.putOne hl (hdocs doc mem_cons_self))
      fun d hd => hdocs d (mem_cons_of_mem doc hd))

end Appended

theorem foldl_putOne_nextSegmentId (s : BinaryDocumentStore) (docs : List StoredDocument) :
    (docs.foldl putOne s).nextSegmentId = s.nextSegmentId := by
  induction docs generalizing s with
  | nil => rfl
  | cons doc docs ih => exact ih (s.putOne doc)

theorem StoreRun.Valid.appended {r r' : StoreRun} {logs : Logs} (h : r.Valid logs)
    {st : StoreStep} (hstep : r.step st = .ok r') {floor : ℕ}
    (hfloor : r.store.dir.segments.get? floor ≠ none)
    (hwrites : r.Writes st → floor ≤ r.store.currentSegment)
    (hinstall : st = .installCompaction → ∀ c, r.compacting ≠ .completed c) :
    Appended r.store.dir.segments r'.store.dir.segments floor := by
  by_cases hquiet : StoreRun.Valid.Quiet r st
  · obtain ⟨r₁, hstep₁, -, hdir, -⟩ := h.quiet hquiet
    rw [hstep₁] at hstep
    cases hstep
    rw [hdir]
    exact Appended.refl _ _
  obtain ⟨l, hl, hget⟩ := h.current_bytes
  have hnext : floor ≤ r.store.nextSegmentId := by
    obtain ⟨bytes, hbytes⟩ := Option.ne_none_iff_exists'.1 hfloor
    rw [h.store.get?_segments, Option.map_eq_some_iff] at hbytes
    obtain ⟨l', hl', -⟩ := hbytes
    exact le_of_lt (h.store.below _ _ hl')
  cases st with
  | put doc =>
    have hput : Appended r.store.dir.segments
        ((r.store.putOne doc.1).raise doc.1.internalId).dir.segments floor :=
      (Appended.appendBytes hget _).mono (hwrites trivial)
    rw [StoreRun.step, put_eq hget] at hstep
    split_ifs at hstep
    · cases hstep
      exact hput
    · cases hstep
      have hvalid := (h.putOne hl doc.2).raise doc.1.internalId
      exact hput.trans (Appended.rotated hvalid.store hnext)
  | putBatch docs =>
    have hfits := StoreRun.Valid.fits_of_batch docs
    have hbatch : Appended r.store.dir.segments
        ((docs.map Subtype.val).foldl BinaryDocumentStore.putOne r.store).dir.segments floor := by
      cases docs with
      | nil => exact Appended.refl _ _
      | cons doc docs => exact (Appended.foldl_putOne h hfits).mono (hwrites (cons_ne_nil _ _))
    obtain ⟨logs', hvalid⟩ := h.foldl_putOne hfits
    obtain ⟨l', hl', -⟩ := hvalid.store.current
    have hget' := hvalid.store.get?_segments
      ((docs.map Subtype.val).foldl BinaryDocumentStore.putOne r.store).currentSegment
    rw [hl'] at hget'
    have hstep' : r.step (.putBatch docs) = r.withStore (BinaryDocumentStore.maybeRotateSegment
        ((docs.map Subtype.val).foldl BinaryDocumentStore.putOne r.store)) := rfl
    rw [hstep', maybeRotateSegment_ok hget'] at hstep
    split_ifs at hstep
    · cases hstep
      exact hbatch
    · cases hstep
      refine hbatch.trans (Appended.rotated hvalid.store ?_)
      rwa [show ((docs.map Subtype.val).foldl BinaryDocumentStore.putOne r.store).nextSegmentId =
        r.store.nextSegmentId from foldl_putOne_nextSegmentId _ _]
  | delete x =>
    obtain ⟨loc, hx⟩ := Option.ne_none_iff_exists'.1 hquiet
    have hdelete : Appended r.store.dir.segments
        (r.store.removeOne x loc.internalId).dir.segments floor :=
      (Appended.appendBytes hget _).mono (hwrites (by simp [StoreRun.Writes, hx]))
    rw [StoreRun.step, delete_eq hget hx] at hstep
    split_ifs at hstep
    · cases hstep
      exact hdelete
    · cases hstep
      exact hdelete.trans (Appended.rotated (h.removeOne hl hx).store hnext)
  | saveMaps =>
    cases hstep
    exact Appended.refl _ _
  | installCompaction =>
    obtain ⟨c, hc⟩ := not_not.1 hquiet
    exact absurd hc (hinstall rfl c)
  | reopen =>
    obtain ⟨s', logs', hopen, hvalid, hlogs, -⟩ := h.reopened
    rw [StoreRun.step, hopen] at hstep
    cases hstep
    show Appended _ s'.dir.segments _
    have hsegs : s'.dir.segments = logs'.map SegmentLog.bytes := hvalid.store.segments
    rcases hlogs with rfl | ⟨id, hid, rfl⟩
    · rw [hsegs, ← h.store.segments]
      exact Appended.refl _ _
    · -- a new segment above all others
      obtain ⟨bytes, hbytes⟩ := Option.ne_none_iff_exists'.1 hfloor
      rw [h.store.get?_segments, Option.map_eq_some_iff] at hbytes
      obtain ⟨l', hl', -⟩ := hbytes
      rw [hsegs, Logs.map_insert, ← h.store.segments]
      refine Appended.insert ?_ (le_of_lt (hid floor (SortedMap.mem_keys.2 ⟨l', hl'⟩))) _
      by_contra hne
      obtain ⟨bytes', hbytes'⟩ := Option.ne_none_iff_exists'.1 hne
      rw [h.store.get?_segments, Option.map_eq_some_iff] at hbytes'
      obtain ⟨l'', hl'', -⟩ := hbytes'
      exact lt_irrefl _ (hid id (SortedMap.mem_keys.2 ⟨l'', hl''⟩))
  | _ => exact absurd trivial hquiet

/-! ### Runs -/

theorem get?_deleteIncrementalChain {backups : BackupDir} {id : String} {b : ShardBackup}
    (hget : backups.get? id = some b) (htype : b.manifest.backupType = .full) (turns : ℕ)
    (current : String) : (deleteIncrementalChain turns backups current).get? id = some b := by
  induction turns generalizing backups current with
  | zero => exact hget
  | succ turns ih =>
    rw [deleteIncrementalChain]
    cases hcur : backups.get? current with
    | none => exact hget
    | some c =>
      have hkeep : c.manifest.backupType = .incremental → (backups.erase current).get? id = some b := by
        intro hc
        rw [SortedMap.get?_erase, if_neg, hget]
        rintro rfl
        rw [hget] at hcur
        cases hcur
        rw [htype] at hc
        cases hc
      cases hc : c.manifest.backupType with
      | full =>
        simp only [hc]
        exact hget
      | incremental =>
        simp only [hc]
        cases c.manifest.parentBackupId with
        | none => exact hkeep hc
        | some parent => exact ih (hkeep hc) parent

namespace BackupRun

/-- The condition on one step.  The store steps are those after which a full scan
gives the maps.  While the manager holds a backup, nothing is written below the
segment of its bookmark and every install reports itself.  An id is not used
twice. -/
def StepOk (r : BackupRun) : BackupStep → Prop
  | .store st => r.shard.StepOk st ∧
    (r.manager.lastBackupId ≠ none →
      (r.shard.Writes st → r.manager.lastSegmentId ≤ r.shard.store.currentSegment) ∧
      (st = .installCompaction → ∀ c, r.shard.compacting = .completed c → installs r.shard st))
  | .backup (.full id fault) => fault = some .writing → r.manager.backups.get? id.1 = none
  | .backup (.incremental id _) => r.manager.backups.get? id.1 = none

def Meets (r : BackupRun) : List BackupStep → Prop
  | [] => True
  | st :: steps => r.StepOk st ∧ ∀ r', r.step st = .ok r' → r'.Meets steps

/-- The backup the manager holds is a chain, and its files are behind the
store. -/
def Backed (m : BackupManager) (segments : SortedMap ℕ ByteSeq) : Prop :=
  ∀ id, m.lastBackupId = some id → isValidBackupId id ∧
    ∃ ms files b, Chained m.backups id ms files ∧ m.backups.get? id = some b ∧
      b.manifest.lastBackupSegment = m.lastSegmentId ∧
      b.manifest.lastBackupOffset = m.lastSegmentOffset ∧
      Behind files segments m.lastSegmentId m.lastSegmentOffset

def Current (m : BackupManager) (segments : SortedMap ℕ ByteSeq) : Prop :=
  ∃ id ms, m.lastBackupId = some id ∧ isValidBackupId id ∧ Chained m.backups id ms segments

section Calls

variable {m : BackupManager} {segments : SortedMap ℕ ByteSeq}

theorem Backed.erase (h : Backed m segments) {id : String} (hnew : m.backups.get? id = none) :
    Backed { m with backups := m.backups.erase id } segments := by
  intro held hheld
  obtain ⟨hvalid, ms, files, b, hchain, hget, hseg, hoff, hbehind⟩ := h held hheld
  refine ⟨hvalid, ms, files, b, hchain.congr fun m' hm' => ?_, ?_, hseg, hoff, hbehind⟩
  · rw [SortedMap.get?_erase, if_neg]
    intro heq
    exact hchain.get?_ne_none hm' (by rw [heq, hnew])
  · rw [SortedMap.get?_erase, if_neg, hget]
    rintro rfl
    rw [hnew] at hget
    cases hget

theorem backed_full {last : ℕ} {bytes : ByteSeq}
    (hlast : segments.entries.getLast? = some (last, bytes)) (id : BackupId)
    {backups : BackupDir}
    (hget : backups.get? id.1 = (m.fullWritten segments id.1 last bytes.length).backups.get? id.1) :
    Backed { m.fullWritten segments id.1 last bytes.length with backups } segments ∧
      Current { m.fullWritten segments id.1 last bytes.length with backups } segments := by
  rw [fullWritten, SortedMap.get?_upsert, if_pos rfl] at hget
  have hchain := Chained.full hget rfl rfl
  refine ⟨fun held hheld => ?_, id.1, _, rfl, id.2, hchain⟩
  cases hheld
  exact ⟨id.2, _, _, _, hchain, hget, rfl, rfl, Behind.copy hlast⟩

theorem full_call (h : Backed m segments) (hne : segments.entries ≠ []) (id : BackupId)
    (fault : Option BackupFault) (hok : fault = some .writing → m.backups.get? id.1 = none) :
    Backed (m.createFullBackup segments id.1 fault).2 segments ∧
      ∀ manifest, (m.createFullBackup segments id.1 fault).1 = .ok manifest →
        Current (m.createFullBackup segments id.1 fault).2 segments := by
  obtain ⟨⟨last, bytes⟩, hlast⟩ := Option.ne_none_iff_exists'.1 (mt getLast?_eq_none_iff.1 hne)
  have hfull := backed_full (m := m) hlast id rfl
  simp only [createFullBackup, hlast]
  cases fault with
  | some fault =>
    cases fault with
    | reading => exact ⟨h, fun _ hr => by cases hr⟩
    | writing => exact ⟨h.erase (hok rfl), fun _ hr => by cases hr⟩
    | saving => exact ⟨hfull.1, fun _ hr => by cases hr⟩
  | none =>
    cases m.lastBackupId with
    | none => exact ⟨hfull.1, fun _ _ => hfull.2⟩
    | some old =>
      have hself : (m.fullWritten segments id.1 last bytes.length).backups.get? id.1 = _ :=
        (SortedMap.get?_upsert m.backups id.1 _ id.1).trans (if_pos rfl)
      have hkept := backed_full hlast id
        ((get?_deleteIncrementalChain hself rfl
          (m.fullWritten segments id.1 last bytes.length).backups.size old).trans hself.symm)
      exact ⟨hkept.1, fun _ _ => hkept.2⟩

theorem createIncrementalBackup_nil {id parent : String} {fault : Option BackupFault}
    (hheld : m.lastBackupId = some parent) (hfault : fault ≠ some .reading)
    (hnil : readSegmentDiff segments m.lastSegmentId m.lastSegmentOffset = []) :
    m.createIncrementalBackup segments id fault = (.ok none, m) := by
  simp only [createIncrementalBackup, hheld, if_neg hfault, hnil]
  rfl

theorem backed_incremental (h : Backed m segments)
    (hne : ∀ id bytes, segments.get? id = some bytes → bytes ≠ []) (id : BackupId)
    (hnew : m.backups.get? id.1 = none) {parent : String} (hheld : m.lastBackupId = some parent)
    {d : SegmentDiff}
    (hdiff : (readSegmentDiff segments m.lastSegmentId m.lastSegmentOffset).getLast? = some d) :
    Backed (m.incrementalWritten segments id.1 parent
        (readSegmentDiff segments m.lastSegmentId m.lastSegmentOffset) d) segments ∧
      Current (m.incrementalWritten segments id.1 parent
        (readSegmentDiff segments m.lastSegmentId m.lastSegmentOffset) d) segments := by
  obtain ⟨-, ms, files, p, hchain, hp, hseg, hoff, hbehind⟩ := h parent hheld
  obtain ⟨bytes, hlast, hstop, hle⟩ := hbehind.getLast?_diff hne hdiff
  set written := m.incrementalWritten segments id.1 parent
    (readSegmentDiff segments m.lastSegmentId m.lastSegmentOffset) d with hwritten
  have hself : written.backups.get? id.1 = some ⟨m.incrementalManifest id.1 parent d, .empty,
      pieces segments (readSegmentDiff segments m.lastSegmentId m.lastSegmentOffset) .empty⟩ := by
    rw [hwritten, incrementalWritten, SortedMap.get?_upsert, if_pos rfl, hnew]
    rfl
  have hother : ∀ x, m.backups.get? x ≠ none → written.backups.get? x = m.backups.get? x := by
    intro x hx
    rw [hwritten, incrementalWritten, SortedMap.get?_upsert, if_neg]
    rintro rfl
    exact hx hnew
  -- the new backup continues the chain of its parent
  have hchain' := hchain.congr fun m₀ hm₀ => hother _ (hchain.get?_ne_none hm₀)
  have hgap : gap p.manifest (m.incrementalManifest id.1 parent d) = false := by
    simp [gap, incrementalManifest, hseg, hoff, hle]
  have hnext := Chained.incremental hchain' ((hother _ (by simp [hp])).trans hp) hself rfl rfl
    rfl hgap
  rw [hbehind.applied hne hseg hoff] at hnext
  refine ⟨fun held hheld' => ?_, id.1, _, rfl, id.2, hnext⟩
  cases hheld'
  refine ⟨id.2, _, segments, _, hnext, hself, rfl, rfl, ?_⟩
  show Behind segments segments d.id d.stop
  rw [hstop]
  exact Behind.copy hlast

theorem incremental_call (h : Backed m segments)
    (hne : ∀ id bytes, segments.get? id = some bytes → bytes ≠ []) (id : BackupId)
    (fault : Option BackupFault) (hnew : m.backups.get? id.1 = none) :
    Backed (m.createIncrementalBackup segments id.1 fault).2 segments ∧
      ∀ result, (m.createIncrementalBackup segments id.1 fault).1 = .ok result →
        Current (m.createIncrementalBackup segments id.1 fault).2 segments := by
  rw [createIncrementalBackup]
  cases hheld : m.lastBackupId with
  | none => exact ⟨h, fun _ hr => by cases hr⟩
  | some parent =>
    obtain ⟨hvalid, ms, files, p, hchain, -, -, -, hbehind⟩ := h parent hheld
    by_cases hfault : fault = some .reading
    · simp only [if_pos hfault]
      exact ⟨h, fun _ hr => by cases hr⟩
    simp only [if_neg hfault]
    cases hdiff : (readSegmentDiff segments m.lastSegmentId m.lastSegmentOffset).getLast? with
    | none =>
      refine ⟨h, fun _ _ => ⟨parent, ms, hheld, hvalid, ?_⟩⟩
      rwa [← hbehind.eq_of_diff_nil hne (getLast?_eq_none_iff.1 hdiff)]
    | some d =>
      have hwritten := backed_incremental h hne id hnew hheld hdiff
      cases fault with
      | none => exact ⟨hwritten.1, fun _ _ => hwritten.2⟩
      | some fault =>
        cases fault with
        | reading => exact absurd rfl hfault
        | writing =>
          have herase := h.erase hnew
          rw [hheld] at herase
          exact ⟨herase, fun _ hr => by cases hr⟩
        | saving => exact ⟨hwritten.1, fun _ hr => by cases hr⟩

end Calls

structure Sound (r : BackupRun) (logs : Logs) : Prop where
  valid : r.shard.Valid logs
  agrees : r.shard.Agrees
  backed : Backed r.manager r.segments

variable {r r' : BackupRun} {logs : Logs}

theorem segment_ne_nil (h : r.shard.Valid logs) {id : ℕ} {bytes : ByteSeq}
    (hget : r.segments.get? id = some bytes) : bytes ≠ [] := by
  rw [segments, h.store.get?_segments, Option.map_eq_some_iff] at hget
  obtain ⟨l, -, rfl⟩ := hget
  rw [← length_pos_iff, SegmentLog.length_bytes]
  omega

theorem segments_ne_nil (h : r.shard.Valid logs) : r.segments.entries ≠ [] := by
  obtain ⟨l, hl, -⟩ := h.store.current
  have hget := h.store.get?_segments r.shard.store.currentSegment
  rw [hl] at hget
  exact ne_nil_of_mem (SortedMap.mem_entries.2 hget)

theorem Sound.call (h : Sound r logs) (call : BackupCall) (hst : r.StepOk (.backup call)) :
    Backed (r.manager.call r.segments call).2 r.segments ∧
      ∀ result, (r.manager.call r.segments call).1 = .ok result →
        Current (r.manager.call r.segments call).2 r.segments := by
  cases call with
  | full id fault =>
    obtain ⟨hbacked, hcurrent⟩ := full_call h.backed (segments_ne_nil h.valid) id fault hst
    refine ⟨hbacked, fun result hresult => ?_⟩
    have hresult' : (r.manager.createFullBackup r.segments id.1 fault).1.map some = .ok result :=
      hresult
    cases hmanifest : (r.manager.createFullBackup r.segments id.1 fault).1 with
    | error e =>
      rw [hmanifest] at hresult'
      cases hresult'
    | ok manifest => exact hcurrent manifest hmanifest
  | incremental id fault =>
    exact incremental_call h.backed (fun _ _ => segment_ne_nil h.valid) id fault hst

theorem Sound.store (h : Sound r logs) {st : StoreStep} (hst : r.StepOk (.store st))
    {shard : StoreRun} (hstep : r.shard.step st = .ok shard) (hinstalls : installs r.shard st = false) :
    Backed r.manager shard.store.dir.segments := by
  intro id hid
  obtain ⟨hvalid, ms, files, b, hchain, hget, hseg, hoff, hbehind⟩ := h.backed id hid
  obtain ⟨hwrites, hinstall⟩ := hst.2 (by simp [hid])
  obtain ⟨old, more, -, -, hmore⟩ := hbehind.bookmark
  have hkey : r.shard.store.dir.segments.get? r.manager.lastSegmentId ≠ none := by
    rw [show r.shard.store.dir.segments.get? _ = _ from hmore]
    simp
  have happended := h.valid.appended hstep hkey hwrites
    (fun hinst c hc => by
      rw [hinstall hinst c hc] at hinstalls
      cases hinstalls)
  exact ⟨hvalid, ms, files, b, hchain, hget, hseg, hoff, hbehind.appended happended le_rfl⟩

theorem Sound.step (h : Sound r logs) {st : BackupStep} (hst : r.StepOk st)
    (hstep : r.step st = .ok r') : ∃ logs', Sound r' logs' := by
  cases st with
  | store st =>
    obtain ⟨shard, logs', hshard, hvalid⟩ := h.valid.step st
    have hagrees := h.agrees.step h.valid hst.1 hshard
    rw [BackupRun.step, hshard] at hstep
    cases hstep
    refine ⟨logs', hvalid, hagrees, ?_⟩
    show Backed (if installs r.shard st then _ else _) shard.store.dir.segments
    split_ifs with hinstalls
    · -- the manager asks for a full backup and holds none
      intro id hid
      cases hid
    · exact h.store hst hshard (Bool.eq_false_iff.2 hinstalls)
  | backup call =>
    cases hstep
    exact ⟨logs, h.valid, h.agrees, (h.call call hst).1⟩

theorem Sound.run (h : Sound r logs) {steps : List BackupStep} (hmeets : r.Meets steps)
    (hrun : r.run steps = .ok r') : ∃ logs', Sound r' logs' := by
  induction steps generalizing r logs with
  | nil =>
    cases hrun
    exact ⟨logs, h⟩
  | cons st steps ih =>
    cases hstep : r.step st with
    | error e =>
      rw [run, foldlM_cons, hstep] at hrun
      cases hrun
    | ok r₁ =>
      rw [run, foldlM_cons, hstep] at hrun
      obtain ⟨logs₁, h₁⟩ := h.step hmeets.1 hstep
      exact ih h₁ (hmeets.2 r₁ hstep) hrun

theorem sound_new : Sound new newLogs :=
  ⟨valid_new, StoreRun.agrees_new, fun _ hid => by cases hid⟩

theorem Sound.restores (h : Sound r logs) {m : BackupManager} {id : String}
    {ms : List BackupManifest} (hid : isValidBackupId id) (hchain : Chained m.backups id ms r.segments) :
    Restores m.backups id r.shard.store := by
  obtain ⟨opened, hopen, hsources⟩ := h.agrees.opened h.valid
  exact ⟨_, opened, ⟨ms.length, fun turns hturns => hchain.restoreChain_eq hid hturns⟩, hopen,
    hsources⟩

/-- **The backup a manager holds restores the store.**  In every run whose steps
meet `StepOk`, after every backup call that returns Ok, with a backup or with
nothing to back up, restoring the chain of the id the manager holds and opening
the restored files gives the sources the store has at the call. -/
theorem held_backup_restores (steps : List BackupStep) (r : BackupRun)
    (hrun : BackupRun.new.run steps = .ok r) (hmeets : BackupRun.new.Meets steps)
    (call : BackupCall) (hcall : r.StepOk (.backup call)) (result : Option BackupManifest)
    (hresult : (r.manager.call r.segments call).1 = .ok result) :
    ∃ id, (r.manager.call r.segments call).2.lastBackupId = some id ∧
      Restores (r.manager.call r.segments call).2.backups id r.shard.store := by
  obtain ⟨logs, hsound⟩ := sound_new.run hmeets hrun
  obtain ⟨id, ms, hheld, hid, hchain⟩ := (hsound.call call hcall).2 result hresult
  exact ⟨id, hheld, hsound.restores hid hchain⟩

def fullId : BackupId := ⟨"full_2026-01-01_00-00-00", by decide +kernel⟩

def incrementalId : BackupId := ⟨"incr_2026-01-01_00-00-01", by decide +kernel⟩

theorem run_cons {r₁ r₂ : BackupRun} {st : BackupStep} {steps : List BackupStep}
    (hstep : r.step st = .ok r₁) (hrun : r₁.run steps = .ok r₂) : r.run (st :: steps) = .ok r₂ := by
  rw [run, foldlM_cons, hstep]
  exact hrun

theorem step_store {st : StoreStep} {shard : StoreRun}
    (hstep : r.shard.step st = .ok shard) :
    r.step (.store st) =
      .ok ⟨shard, if installs r.shard st then r.manager.requireFullBackup else r.manager⟩ := by
  rw [step, hstep]
  rfl

/-- A document is added after a full backup and saved by an incremental one. -/
theorem held_backup_restores_added :
    ∃ r m, BackupRun.new.run [.backup (.full fullId none), .store (.put StoreRun.newSample)] = .ok r ∧
      BackupRun.new.Meets [.backup (.full fullId none), .store (.put StoreRun.newSample)] ∧
      r.StepOk (.backup (.incremental incrementalId none)) ∧
      (r.manager.call r.segments (.incremental incrementalId none)).1 = .ok (some m) ∧
      ∃ id, (r.manager.call r.segments (.incremental incrementalId none)).2.lastBackupId = some id ∧
        Restores (r.manager.call r.segments (.incremental incrementalId none)).2.backups id
          r.shard.store := by
  have hrun : new.run [.backup (.full fullId none), .store (.put StoreRun.newSample)] =
      .ok ⟨⟨(StoreRun.new.store.putOne StoreRun.newSample.1).raise 2, .idle⟩,
        (new.manager.call new.segments (.full fullId none)).2⟩ := rfl
  have hmeets : new.Meets [.backup (.full fullId none), .store (.put StoreRun.newSample)] := by
    refine ⟨(fun h => nomatch h), fun r₁ h₁ => ⟨⟨fun q hq _ => ?_, fun _ => ⟨fun _ => ?_, ?_⟩⟩,
      fun _ _ => trivial⟩⟩
    · cases h₁
      have hq' : q ∈ placedRecords StoreRun.new.store.dir.segments := hq
      rw [valid_new.placed] at hq'
      cases hq'
    · cases h₁
      exact le_rfl
    · intro h
      cases h
  exact ⟨_, _, hrun, hmeets, rfl, rfl, held_backup_restores _ _ hrun hmeets _ rfl _ rfl⟩

/-! ### A bookmark above the current segment -/

section Bookmark

open StoreRun

variable {big new : FittingDocument} {c : CompletedSegmentCompaction} {docs : List StoredDocument}

theorem eq_of_at_fullLogs {loc : DocLocation} {doc : StoredDocument}
    (h : At (fullLogs big.1) loc doc) : doc = big.1 := by
  obtain ⟨l, pre, post, hl, hrec, -⟩ := h
  have hmem : StoreRecord.put doc ∈ l.records := by simp [hrec]
  rw [fullLogs, SortedMap.get?_insert] at hl
  split_ifs at hl
  · cases hl
    cases hmem
  · rw [Logs.push, SortedMap.get?_insert] at hl
    split_ifs at hl
    · cases hl
      cases mem_singleton.1 hmem
      rfl
    · obtain ⟨-, rfl⟩ := newLogs_get? hl
      cases hmem

theorem eq_of_at_installed (hc : c.Ok (plannedStore big.1) (fullLogs big.1) docs)
    {loc : DocLocation} {doc : StoredDocument}
    (h : At (installedLogs (fullLogs big.1) c docs) loc doc) : doc = big.1 := by
  obtain ⟨l, pre, post, hl, hrec, hloc⟩ := h
  rw [get?_installedLogs] at hl
  split_ifs at hl
  · cases hl
    have hmem : StoreRecord.put doc ∈ docs.map .put := by
      rw [show docs.map StoreRecord.put = _ from hrec]
      simp
    obtain ⟨doc', hdoc', heq⟩ := mem_map.1 hmem
    cases heq
    obtain ⟨loc', -, hat⟩ := hc.origin doc hdoc'
    exact eq_of_at_fullLogs hat
  · exact eq_of_at_fullLogs ⟨l, pre, post, hl, hrec, hloc⟩

/-- A segment is compacted, a full backup taken and a document written. -/
def lateWrite (big new : FittingDocument) : List BackupStep :=
  [.store (.put big), .store (.planCompaction (fun _ _ => true) id 0), .store .runCompaction,
    .store .installCompaction, .backup (.full fullId none), .store (.put new)]

def compactedStore (big : StoredDocument) (c : CompletedSegmentCompaction) : BinaryDocumentStore :=
  ((plannedStore big).installSegmentCompaction c).2

theorem compactedStore_valid (hc : c.Ok (plannedStore big.1) (fullLogs big.1) docs)
    (hplanned : Valid ⟨plannedStore big.1, .completed c⟩ (fullLogs big.1)) :
    Valid ⟨compactedStore big.1 c, .idle⟩ (installedLogs (fullLogs big.1) c docs) :=
  hplanned.installed hc

theorem get?_compactedStore (hold : c.oldSegmentIds = [0]) (hout : c.newSegmentId = 2)
    (hc : c.Ok (plannedStore big.1) (fullLogs big.1) docs)
    (hvalid : Valid ⟨compactedStore big.1 c, .idle⟩ (installedLogs (fullLogs big.1) c docs)) (id : ℕ) :
    (compactedStore big.1 c).dir.segments.get? id =
      if id = 1 then some magic else if id = 2 then some c.bytes else none := by
  have hget : (compactedStore big.1 c).dir.segments.get? id =
      ((installedLogs (fullLogs big.1) c docs).get? id).map SegmentLog.bytes :=
    hvalid.store.get?_segments id
  rw [hget, get?_installedLogs, hold, hout, hc.bytes]
  by_cases h0 : id = 0
  · subst h0
    rfl
  by_cases h1 : id = 1
  · subst h1
    rfl
  rw [if_neg (by simpa using h0), if_neg h1]
  split_ifs
  · rfl
  · rw [fullLogs, SortedMap.get?_insert, if_neg h1, Logs.push, SortedMap.get?_insert, if_neg h0,
      newLogs, SortedMap.get?_insert, if_neg h0]
    rfl

def writtenStore (big new : StoredDocument) (c : CompletedSegmentCompaction) :
    BinaryDocumentStore :=
  ((compactedStore big c).putOne new).raise new.internalId

def fullManager (big : StoredDocument) (c : CompletedSegmentCompaction) : BackupManager :=
  BackupRun.new.manager.fullWritten (compactedStore big c).dir.segments fullId.1 2 c.bytes.length

theorem lateWrite_run (new : FittingDocument) (hbig : defaultSegmentSize ≤ big.1.source.length)
    (hsmall : 8 + (StoreRecord.put new.1).encode.length < defaultSegmentSize) :
    ∃ c docs, c.newSegmentId = 2 ∧ c.oldSegmentIds = [0] ∧
      c.Ok (plannedStore big.1) (fullLogs big.1) docs ∧
      Valid ⟨compactedStore big.1 c, .idle⟩ (installedLogs (fullLogs big.1) c docs) ∧
      BackupRun.new.run (lateWrite big new) =
        .ok ⟨⟨writtenStore big.1 new.1 c, .idle⟩, fullManager big.1 c⟩ := by
  obtain ⟨snapshot, c, docs, hplan, hrun, hold, hout, hc⟩ := compacted_fullStore big
  have hvalid := compactedStore_valid hc (((valid_fullStore big).planned hplan).completed hc)
  have hget := get?_compactedStore hold hout hc hvalid
  have hstep₁ : BackupRun.new.step (.store (.put big)) =
      .ok ⟨⟨fullStore big.1, .idle⟩, BackupRun.new.manager⟩ := step_store (step_put_big hbig)
  have hstep₂ : BackupRun.step ⟨⟨fullStore big.1, .idle⟩, BackupRun.new.manager⟩
      (.store (.planCompaction (fun _ _ => true) id 0)) =
      .ok ⟨⟨plannedStore big.1, .planned ⟨[0], 2, snapshot⟩⟩, BackupRun.new.manager⟩ := by
    refine step_store ?_
    show StoreRun.step ⟨fullStore big.1, .idle⟩ _ = _
    rw [StoreRun.step, hplan]
  have hstep₃ : step
      ⟨⟨plannedStore big.1, .planned ⟨[0], 2, snapshot⟩⟩, BackupRun.new.manager⟩
      (.store .runCompaction) =
      .ok ⟨⟨plannedStore big.1, .completed c⟩, BackupRun.new.manager⟩ := by
    refine step_store ?_
    show Except.bind (runSegmentCompaction (plannedStore big.1).dir ⟨[0], 2, snapshot⟩) _ = _
    rw [hrun]
    rfl
  -- the manager holds no backup, so it does not matter what the install reports
  have hstep₄ : BackupRun.step ⟨⟨plannedStore big.1, .completed c⟩, BackupRun.new.manager⟩
      (.store .installCompaction) =
      .ok ⟨⟨compactedStore big.1 c, .idle⟩, BackupRun.new.manager⟩ := by
    refine (step_store rfl).trans ?_
    split_ifs <;> rfl
  have hstep₅ : BackupRun.step ⟨⟨compactedStore big.1 c, .idle⟩, BackupRun.new.manager⟩
      (.backup (.full fullId none)) =
      .ok ⟨⟨compactedStore big.1 c, .idle⟩, fullManager big.1 c⟩ := by
    have hlast : (compactedStore big.1 c).dir.segments.entries.getLast? = some (2, c.bytes) := by
      refine SortedMap.getLast?_entries (hget 2) fun id hid => ?_
      obtain ⟨bytes, hbytes⟩ := SortedMap.mem_keys.1 hid
      rw [hget] at hbytes
      split_ifs at hbytes <;> omega
    show Except.ok (BackupRun.mk _ (createFullBackup BackupRun.new.manager
      (compactedStore big.1 c).dir.segments fullId.1 none).2) = _
    rw [createFullBackup, hlast]
    rfl
  have hstep₆ : step ⟨⟨compactedStore big.1 c, .idle⟩, fullManager big.1 c⟩
      (.store (.put new)) =
      .ok ⟨⟨writtenStore big.1 new.1 c, .idle⟩, fullManager big.1 c⟩ := by
    have hcurrent : (compactedStore big.1 c).dir.segments.get?
        (compactedStore big.1 c).currentSegment = some magic := hget 1
    have hlen : (magic ++ (StoreRecord.put new.1).encode).length < defaultSegmentSize := by
      rw [length_append]
      exact hsmall
    refine step_store ?_
    show withStore _ ((compactedStore big.1 c).put new.1) = _
    rw [put_eq hcurrent, if_pos hlen]
    rfl
  exact ⟨c, docs, hout, hold, hc, hvalid, run_cons hstep₁ (run_cons hstep₂ (run_cons hstep₃
    (run_cons hstep₄ (run_cons hstep₅ (run_cons hstep₆ rfl)))))⟩

theorem lateWrite_call (new : FittingDocument) (hget : ∀ id, (compactedStore big.1 c).dir.segments.get? id =
      if id = 1 then some magic else if id = 2 then some c.bytes else none) :
    (fullManager big.1 c).call (writtenStore big.1 new.1 c).dir.segments
      (.incremental incrementalId none) = (.ok none, fullManager big.1 c) := by
  have hdiff : readSegmentDiff (writtenStore big.1 new.1 c).dir.segments 2 c.bytes.length = [] := by
    rw [readSegmentDiff, filterMap_eq_nil_iff]
    intro e he
    by_cases h1 : e.1 = 1
    · rw [diffOf, if_pos (by omega)]
    · have hbytes : (compactedStore big.1 c).dir.segments.get? e.1 = some e.2 := by
        rw [← SortedMap.mem_entries.1 he]
        exact ((SortedMap.get?_upsert _ _ _ e.1).trans (if_neg h1)).symm
      rw [hget, if_neg h1] at hbytes
      split_ifs at hbytes with h2
      simp [diffOf, h2, Option.some_inj.1 hbytes]
  have hfault : (none : Option BackupFault) ≠ some .reading := by simp
  exact createIncrementalBackup_nil (m := fullManager big.1 c) rfl hfault hdiff

theorem lateWrite_lost (hc : c.Ok (plannedStore big.1) (fullLogs big.1) docs)
    (hvalid : Valid ⟨compactedStore big.1 c, .idle⟩ (installedLogs (fullLogs big.1) c docs))
    (hne : new.1.externalId ≠ big.1.externalId) :
    ¬Restores (fullManager big.1 c).backups fullId.1 (writtenStore big.1 new.1 c) := by
  rintro ⟨files, opened, ⟨n, hrestore⟩, hopen, hsources⟩
  -- the full backup restores the files it copied
  have hself : (fullManager big.1 c).backups.get? fullId.1 =
      some ⟨fullManifest fullId.1 2 c.bytes.length, (compactedStore big.1 c).dir.segments,
        .empty⟩ := rfl
  have hchain := (Chained.full hself rfl rfl).restoreChain_eq fullId.2 (le_max_right n 1)
  rw [hrestore _ (le_max_left n 1)] at hchain
  cases hchain
  -- and these do not mention the new document
  obtain ⟨opened', logs', hopen', hok, -, hloc⟩ := hvalid.opened
  rw [show openWithMaps _ = _ from hopen] at hopen'
  cases hopen'
  have hnone : opened.locations.get? new.1.externalId = none := by
    by_contra hsome
    obtain ⟨loc, hx⟩ := Option.ne_none_iff_exists'.1 hsome
    rw [hloc] at hx
    obtain ⟨doc, hdoc, hat⟩ : ∃ doc, doc.externalId = new.1.externalId ∧
        At (installedLogs (fullLogs big.1) c docs) loc doc :=
      located_replay _ _ (fun _ hp => hp) (by simp) _ _ hx
    rw [eq_of_at_installed hc hat] at hdoc
    exact hne hdoc.symm
  have hstored : sourceOf (writtenStore big.1 new.1 c) new.1.externalId =
      .ok (some new.1.source) := by
    have hcached : (writtenStore big.1 new.1 c).docs.get? new.1.externalId = some new.1 :=
      (SortedMap.get?_insert _ _ _ _).trans (if_pos rfl)
    rw [sourceOf, fetched, BinaryDocumentStore.get, hcached]
    rfl
  have hsame := hsources new.1.externalId
  rw [hstored, sourceOf, fetched_none hok hnone] at hsame
  cases hsame

def otherSample : FittingDocument := ⟨⟨"b", 3, .json, [7]⟩, by decide, by decide⟩

/-- A compaction puts its output above the segment still written to, the full
backup after it takes the output as its bookmark, and the incremental backup after
the next write reports that nothing changed. -/
theorem held_backup_misses_write :
    ∃ steps r call result, BackupRun.new.run steps = .ok r ∧
      (r.manager.call r.segments call).1 = .ok result ∧
      ¬∃ id, (r.manager.call r.segments call).2.lastBackupId = some id ∧
        Restores (r.manager.call r.segments call).2.backups id r.shard.store := by
  obtain ⟨c, docs, hout, hold, hc, hvalid, hrun⟩ :=
    lateWrite_run otherSample defaultSegmentSize_le_bigSample (by decide)
  have hcall := lateWrite_call otherSample (get?_compactedStore hold hout hc hvalid)
  refine ⟨_, ⟨⟨writtenStore bigSample.1 otherSample.1 c, .idle⟩, fullManager bigSample.1 c⟩, _, none,
    hrun, congrArg Prod.fst hcall, ?_⟩
  show ¬∃ id, ((fullManager bigSample.1 c).call (writtenStore bigSample.1 otherSample.1 c).dir.segments
      (.incremental incrementalId none)).2.lastBackupId = some id ∧
    Restores ((fullManager bigSample.1 c).call (writtenStore bigSample.1 otherSample.1 c).dir.segments
      (.incremental incrementalId none)).2.backups id (writtenStore bigSample.1 otherSample.1 c)
  rw [hcall]
  rintro ⟨id, hid, hrestores⟩
  cases hid
  exact lateWrite_lost hc hvalid (by decide) hrestores

end Bookmark

end BackupRun

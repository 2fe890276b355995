/-
Backups that are deleted, after a restore and when they are old.

`cleanup_after_restore` takes for obsolete every incremental backup that starts at or
behind the offset where the restored one ends, whatever segments the two offsets lie
in.  A chain that crosses a rotation may so lose the backup that was just restored
(`cleanup_deletes_restored`); `cleanup_iff` says when it does not.  The retention passes
judge each backup by a time of its own, and a parent may expire before its child
(`retention_iff`).
-/
import Riets.BackupChain

open BackupManager BinaryDocumentStore ParentChain Relation List SortedMap

def removeEach {V : Type} (backups : SortedMap String V) (ids : List String) : SortedMap String V :=
  ids.foldl SortedMap.erase backups

theorem get?_removeEach {V : Type} (backups : SortedMap String V) (ids : List String) (x : String) :
    (removeEach backups ids).get? x = if x ∈ ids then none else backups.get? x := by
  induction ids generalizing backups with
  | nil => rw [if_neg not_mem_nil, removeEach, foldl_nil]
  | cons id ids ih =>
    show (removeEach (backups.erase id) ids).get? x = _
    rw [ih, get?_erase]
    by_cases hid : x = id <;> simp [hid]

namespace BackupManager

/-- An incremental backup that starts where the restored one ends, or behind. -/
def stale (restored c : BackupManifest) : Bool :=
  c.backupType = .incremental && restored.lastBackupOffset ≤ c.startOffset

/-- `cleanup_after_restore`, when the files can be read, removed and written. -/
def cleanupAfterRestore (m : BackupManager) (id : String) :
    Except BackupError Unit × BackupManager :=
  match loadManifest m.backups id with
  | .error e => (.error e, m)
  | .ok restored =>
    let manifests := m.backups.entries.map fun e => e.2.manifest
    (.ok (),
      { backups := removeEach m.backups ((manifests.filter (stale restored)).map BackupManifest.backupId)
        lastBackupId := some id
        lastSegmentId := restored.lastBackupSegment
        lastSegmentOffset := restored.lastBackupOffset })

abbrev BuiltOn (backups : BackupDir) : String → String → Prop :=
  ParentOf BackupManifest.link backups.manifest?

/-- The restored backup and its ancestors stay, and what was built on it goes. -/
structure CleansUp (before after : BackupDir) (id : String) : Prop where
  kept : ∀ a, ReflTransGen (BuiltOn before) a id → after.get? a = before.get? a
  dropped : ∀ d, TransGen (BuiltOn before) id d → after.get? d = none

/-- The chain of a backup starts below its end, and what was built on it does not. -/
structure StartsApart (backups : BackupDir) (id : String) (restored : BackupManifest) : Prop where
  chain : ∀ a c, ReflTransGen (BuiltOn backups) a id → backups.manifest? a = some c →
    c.backupType = .incremental → c.startOffset < restored.lastBackupOffset
  built : ∀ d c, TransGen (BuiltOn backups) id d → backups.manifest? d = some c →
    restored.lastBackupOffset ≤ c.startOffset

/-- Where the chain crossed a rotation, an ancestor ends at a smaller offset than the
backup; where what was built on it did, a parent ends at no smaller one. -/
structure EndsApart (backups : BackupDir) (id : String) (restored : BackupManifest) : Prop where
  chain : ∀ a c, TransGen (BuiltOn backups) a id → backups.manifest? a = some c →
    c.lastBackupSegment < restored.lastBackupSegment → c.lastBackupOffset < restored.lastBackupOffset
  built : ∀ q d c, TransGen (BuiltOn backups) id q → BuiltOn backups q d →
    backups.manifest? q = some c → restored.lastBackupSegment < c.lastBackupSegment →
    restored.lastBackupOffset ≤ c.lastBackupOffset

variable {m : BackupManager} {id x y : String} {restored a b c : BackupManifest}
  {ms : List BackupManifest}

theorem stale_iff : stale restored c ↔
    c.backupType = .incremental ∧ restored.lastBackupOffset ≤ c.startOffset := by
  simp [stale]

theorem get?_cleanup (hfiled : m.Filed) (hrestored : m.backups.manifest? id = some restored)
    (hx : m.backups.manifest? x = some c) :
    (m.cleanupAfterRestore id).2.backups.get? x =
      if stale restored c then none else m.backups.get? x := by
  rw [cleanupAfterRestore, loadManifest_eq_ok.2 hrestored]
  show (removeEach m.backups _).get? x = _
  rw [get?_removeEach]
  refine if_congr ?_ rfl rfl
  simp only [mem_map, mem_filter]
  constructor
  · rintro ⟨c', ⟨⟨e, he, rfl⟩, hstale⟩, hid⟩
    have hmanifest : m.backups.manifest? e.1 = some e.2.manifest := by
      rw [BackupDir.manifest?, mem_entries.1 he]
      rfl
    rw [← hid, hfiled _ _ hmanifest, hmanifest, Option.some_inj] at hx
    rwa [← hx]
  · intro hstale
    obtain ⟨s, hs, rfl⟩ := Option.map_eq_some_iff.1 hx
    exact ⟨s.manifest, ⟨⟨(x, s), mem_entries.2 hs, rfl⟩, hstale⟩, hfiled x _ hx⟩

theorem cleansUp_iff (hfiled : m.Filed) (hchain : LinkedTo m.backups id ms)
    (hrestored : m.backups.manifest? id = some restored) :
    CleansUp m.backups (m.cleanupAfterRestore id).2.backups id ↔
      StartsApart m.backups id restored := by
  have hget := fun {x c} (hx : m.backups.manifest? x = some c) => get?_cleanup hfiled hrestored hx
  have hsome : ∀ {x c}, m.backups.manifest? x = some c → m.backups.get? x ≠ none := by
    intro x c hx hnone
    rw [BackupDir.manifest?, hnone] at hx
    cases hx
  constructor
  · refine fun h => ⟨fun a c ha hc htype => ?_, fun d c hd hc => ?_⟩
    · by_contra hlt
      have hnone := hget hc
      rw [if_pos (stale_iff.2 ⟨htype, by omega⟩), h.kept a ha] at hnone
      exact hsome hc hnone
    · by_contra hlt
      have hkept := hget hc
      rw [if_neg fun hstale => hlt (stale_iff.1 hstale).2, h.dropped d hd] at hkept
      exact hsome hc hkept.symm
  · refine fun h => ⟨fun a ha => ?_, fun d hd => ?_⟩
    · obtain ⟨bs, hbs⟩ := hchain.ancestor ha
      obtain ⟨c, hc⟩ := hbs.loaded
      rw [hget hc, if_neg]
      intro hstale
      obtain ⟨htype, hle⟩ := stale_iff.1 hstale
      have hlt := h.chain a c ha hc htype
      omega
    · obtain ⟨q, -, c, hc, hlink⟩ := TransGen.tail'_iff.1 hd
      rw [hget hc, if_pos (stale_iff.2 ⟨(BackupManifest.link_eq_child.1 hlink).1, h.built d c hd hc⟩)]

theorem Linked.stop_lt {ids : List String} (h : m.Linked ids)
    (hpath : TransGen (BuiltOn m.backups) x y) (hx : m.backups.manifest? x = some a)
    (hy : m.backups.manifest? y = some b) : a.stop < b.stop := by
  induction hpath generalizing b with
  | single hstep =>
    obtain ⟨c, hc, hlink⟩ := hstep
    exact (h.meets _ _ _ _ hc hlink hx).2.trans_eq (congrArg _ (Option.some_inj.1 (hc.symm.trans hy)))
  | tail hpath hstep ih =>
    obtain ⟨c, hc, hlink⟩ := hstep
    obtain ⟨q, -, z, hz, -⟩ := TransGen.tail'_iff.1 hpath
    rw [hc, Option.some_inj] at hy
    subst hy
    exact (ih hz).trans (h.meets _ _ _ _ hc hlink hz).2

theorem Linked.startsApart_iff {ids : List String} (h : m.Linked ids)
    (hchain : LinkedTo m.backups id ms) (hrestored : m.backups.manifest? id = some restored) :
    StartsApart m.backups id restored ↔ EndsApart m.backups id restored := by
  constructor
  · refine fun hstarts => ⟨fun a c ha hc hseg => ?_, fun q d c hq hd hc hseg => ?_⟩
    · obtain ⟨k, ⟨ck, hk, hlink⟩, hpath⟩ := TransGen.head'_iff.1 ha
      have hlt := hstarts.chain k ck hpath hk (BackupManifest.link_eq_child.1 hlink).1
      rwa [(h.meets _ _ _ _ hk hlink hc).1] at hlt
    · obtain ⟨cd, hcd, hlink⟩ := hd
      have hle := hstarts.built d cd (hq.tail ⟨cd, hcd, hlink⟩) hcd
      rwa [(h.meets _ _ _ _ hcd hlink hc).1] at hle
  · refine fun hends => ⟨fun a c ha hc htype => ?_, fun d c hd hc => ?_⟩
    · obtain ⟨bs, hbs⟩ := hchain.ancestor ha
      cases hbs with
      | root hload hlink =>
        rw [hc, Option.some_inj] at hload
        rw [← hload, BackupManifest.link_eq_root, htype] at hlink
        cases hlink
      | @child _ p cp _ hp hload hlink =>
        rw [hc, Option.some_inj] at hload
        subst hload
        obtain ⟨b, hb⟩ := hp.loaded
        have hpath : TransGen (BuiltOn m.backups) p id := TransGen.head' ⟨c, hc, hlink⟩ ha
        have hseg := hends.chain p b hpath hb
        have hstop := BackupManifest.stop_lt_stop.1 (h.stop_lt hpath hb hrestored)
        rw [(h.meets _ _ _ _ hc hlink hb).1]
        omega
    · obtain ⟨q, hpath, hstep⟩ := TransGen.tail'_iff.1 hd
      obtain ⟨c', hc', hlink⟩ := hstep
      rw [hc, Option.some_inj] at hc'
      subst hc'
      rcases reflTransGen_iff_eq_or_transGen.1 hpath with rfl | hpath
      · exact (h.meets _ _ _ _ hc hlink hrestored).1.ge
      · obtain ⟨_, -, b, hb, -⟩ := TransGen.tail'_iff.1 hpath
        have hseg := hends.built q d b hpath ⟨c, hc, hlink⟩ hb
        have hstop := BackupManifest.stop_lt_stop.1 (h.stop_lt hpath hrestored hb)
        rw [(h.meets _ _ _ _ hc hlink hb).1]
        omega

/-- **The clean-up after a restore**, in every directory a run leaves.  It keeps the
restored chain and deletes what was built on it exactly when their starts lie apart;
where no id is used twice these are the ends of their parents. -/
theorem cleanup_iff {steps : List BackupStep} {r : BackupRun} (hrun : BackupRun.new.run steps = .ok r)
    {turns : ℕ} {target files : SortedMap ℕ ByteSeq}
    (hrestored : restoreChain r.manager.backups turns id target = some (.ok files)) :
    ∃ restored, r.manager.backups.manifest? id = some restored ∧
      (CleansUp r.manager.backups (r.manager.cleanupAfterRestore id).2.backups id ↔
        StartsApart r.manager.backups id restored) ∧
      ((BackupRun.callIds steps).Nodup →
        (CleansUp r.manager.backups (r.manager.cleanupAfterRestore id).2.backups id ↔
          EndsApart r.manager.backups id restored)) := by
  obtain ⟨ms, hchain⟩ := linkedTo_of_restoreChain hrestored
  obtain ⟨restored, hload⟩ := hchain.loaded
  have hiff := cleansUp_iff (BackupRun.filed_run BackupRun.filed_new hrun) hchain hload
  refine ⟨restored, hload, hiff, fun hnodup => ?_⟩
  obtain ⟨ids, hlinked⟩ :=
    BackupRun.linked_run BackupRun.linked_new hrun hnodup fun _ _ => not_mem_nil
  rw [hiff]
  exact hlinked.startsApart_iff hchain hload

section Rotated

open BackupRun StoreRun

/-- A full backup of a new store, a document that fills its segment, and an incremental
backup. -/
def rotatedSteps (big : FittingDocument) : List BackupStep :=
  [.backup (.full fullId none), .store (.put big), .backup (.incremental incrementalId none)]

/-- The manager behind these steps, from the files at the end: both backups end at
offset 8, in two segments. -/
def rotatedManager (segments : SortedMap ℕ ByteSeq) : BackupManager :=
  (BackupRun.new.manager.fullWritten BackupRun.new.segments fullId.1 0 8).incrementalWritten
    segments incrementalId.1 fullId.1 (readSegmentDiff segments 0 8) ⟨1, 0, 8⟩

theorem rotated_run {big : FittingDocument} (hbig : defaultSegmentSize ≤ big.1.source.length) :
    new.run (rotatedSteps big) =
      .ok ⟨⟨fullStore big.1, .idle⟩, rotatedManager (fullStore big.1).dir.segments⟩ := by
  have hdiff : (readSegmentDiff (fullStore big.1).dir.segments 0 8).getLast? = some ⟨1, 0, 8⟩ := by
    have hlast : diffOf 0 8 (1, StoreDir.magic) = some ⟨1, 0, 8⟩ := rfl
    rw [readSegmentDiff, entries_fullStore, filterMap_cons, filterMap_cons, hlast, filterMap_nil]
    cases diffOf 0 8 (0, StoreDir.magic ++ (StoreRecord.put big.1).encode) <;> rfl
  have hfull : new.step (.backup (.full fullId none)) = .ok ⟨new,
      new.manager.fullWritten new.segments fullId.1 0 8⟩ := rfl
  have hincremental : step ⟨⟨fullStore big.1, .idle⟩,
      new.manager.fullWritten new.segments fullId.1 0 8⟩
      (.backup (.incremental incrementalId none)) =
      .ok ⟨⟨fullStore big.1, .idle⟩, rotatedManager (fullStore big.1).dir.segments⟩ := by
    show Except.ok (BackupRun.mk _ (createIncrementalBackup _ (fullStore big.1).dir.segments _ none).2) = _
    rw [createIncrementalBackup]
    simp only [fullWritten, reduceCtorEq, if_false, hdiff]
    rfl
  exact run_cons hfull (run_cons (step_store (step_put_big hbig)) (run_cons hincremental rfl))

theorem rotated_restored (segments : SortedMap ℕ ByteSeq) : ∃ files,
    restoreChain (rotatedManager segments).backups 2 incrementalId.1 .empty = some (.ok files) := by
  have hfull : Chained (rotatedManager segments).backups fullId.1 _ _ := .full rfl rfl rfl
  have hchain : Chained (rotatedManager segments).backups incrementalId.1 _ _ :=
    .incremental hfull rfl rfl rfl rfl rfl rfl
  exact ⟨_, hchain.restoreChain_eq incrementalId.2 le_rfl⟩

theorem not_cleansUp_rotated (segments : SortedMap ℕ ByteSeq) (hfiled : (rotatedManager segments).Filed) :
    ¬CleansUp (rotatedManager segments).backups
      ((rotatedManager segments).cleanupAfterRestore incrementalId.1).2.backups incrementalId.1 := by
  intro h
  have hload : (rotatedManager segments).backups.manifest? incrementalId.1 =
      some ⟨incrementalId.1, .incremental, 8, some fullId.1, 1, 8⟩ := rfl
  have hdeleted := get?_cleanup hfiled hload hload
  rw [if_pos (stale_iff.2 ⟨rfl, le_rfl⟩), h.kept _ .refl] at hdeleted
  cases hdeleted

theorem cleanup_iff_rotated :
    ∃ (m : BackupManager) (restored : BackupManifest),
      m.backups.manifest? incrementalId.1 = some restored ∧
      (CleansUp m.backups (m.cleanupAfterRestore incrementalId.1).2.backups incrementalId.1 ↔
        StartsApart m.backups incrementalId.1 restored) ∧
      (CleansUp m.backups (m.cleanupAfterRestore incrementalId.1).2.backups incrementalId.1 ↔
        EndsApart m.backups incrementalId.1 restored) := by
  obtain ⟨files, hrestored⟩ := rotated_restored (fullStore bigSample.1).dir.segments
  obtain ⟨restored, hload, hstarts, hends⟩ :=
    cleanup_iff (rotated_run defaultSegmentSize_le_bigSample) hrestored
  exact ⟨_, restored, hload, hstarts, hends (by decide)⟩

theorem cleanup_deletes_restored : ∃ steps r id turns target files,
    BackupRun.new.run steps = .ok r ∧
      restoreChain r.manager.backups turns id target = some (.ok files) ∧
      ¬CleansUp r.manager.backups (r.manager.cleanupAfterRestore id).2.backups id := by
  have hrun := rotated_run defaultSegmentSize_le_bigSample
  obtain ⟨files, hrestored⟩ := rotated_restored (fullStore bigSample.1).dir.segments
  exact ⟨rotatedSteps bigSample, _, incrementalId.1, 2, .empty, files, hrun, hrestored,
    not_cleansUp_rotated _ (filed_run filed_new hrun)⟩

end Rotated

end BackupManager

/-! ### Retention -/

/-- A backup with the times it is judged by, in nanoseconds since the epoch: when its
manifest was made, and when its directory was last changed. -/
structure DatedBackup where
  manifest : BackupManifest
  made : ℕ
  modified : ℤ

/-- `created_at`: `create_full_backup` takes milliseconds, `create_incremental_backup`
seconds. -/
def DatedBackup.createdAt (b : DatedBackup) : ℕ :=
  match b.manifest.backupType with
  | .full => b.made / 10 ^ 6
  | .incremental => b.made / 10 ^ 9

structure DatedDir where
  backups : SortedMap String DatedBackup
  filed : ∀ x b, backups.get? x = some b → b.manifest.backupId = x

/-- `ShardManager::delete_backups_old`, when every directory can be removed; `cutoff` is
the lifetime before now. -/
def ShardManager.deleteBackupsOld (d : DatedDir) (cutoff : ℤ) : SortedMap String DatedBackup :=
  removeEach d.backups ((d.backups.entries.filter fun e => e.2.modified < cutoff).map Prod.fst)

namespace DatedDir

variable {d : DatedDir} {cutoff : ℤ} {after : SortedMap String DatedBackup}
  {expired : DatedBackup → Prop}

def listBackups (d : DatedDir) : List DatedBackup :=
  (d.backups.entries.map Prod.snd).mergeSort fun b b' => b.createdAt ≤ b'.createdAt

/-- The cutoff in milliseconds, as a `u64`. -/
def cutoffMs (cutoff : ℤ) : ℕ := cutoff.toNat / 10 ^ 6 % 2 ^ 64

/-- The manager's `delete_backups_old`, when every directory can be removed. -/
def deleteBackupsOld (d : DatedDir) (cutoff : ℤ) : SortedMap String DatedBackup :=
  removeEach d.backups ((d.listBackups.filter fun b => b.createdAt < cutoffMs cutoff).map
    fun b => b.manifest.backupId)

/-- Only what was made before the cutoff goes, and what stays keeps its chain. -/
structure Retains (d : DatedDir) (cutoff : ℤ) (after : SortedMap String DatedBackup) : Prop where
  old : ∀ x b, d.backups.get? x = some b → after.get? x = none → (b.made : ℤ) < cutoff
  chains : KeepsChains (fun b : DatedBackup => b.manifest.link) d.backups.get? after.get?

/-- When a backup with a chain expires, those built on it have expired too. -/
def ExpiresInOrder (d : DatedDir) (expired : DatedBackup → Prop) : Prop :=
  ∀ k p as b c, Rooted (fun b : DatedBackup => b.manifest.link) d.backups.get? p as →
    d.backups.get? p = some b → d.backups.get? k = some c → c.manifest.link = .child p →
    expired b → expired c

structure Deletes (d : DatedDir) (expired : DatedBackup → Prop) (after : SortedMap String DatedBackup) :
    Prop where
  part : Part after.get? d.backups.get?
  expired : ∀ x b, d.backups.get? x = some b → (after.get? x = none ↔ expired b)

theorem Deletes.retains_iff (h : d.Deletes expired after) : d.Retains cutoff after ↔
    (∀ x b, d.backups.get? x = some b → expired b → (b.made : ℤ) < cutoff) ∧
      d.ExpiresInOrder expired := by
  constructor
  · intro hretains
    refine ⟨fun x b hx hold => hretains.old x b hx ((h.expired x b hx).2 hold), ?_⟩
    intro k p as b c has hp hk hlink hold
    by_contra hkept
    exact (keeps_chains_iff h.part).1 hretains.chains k p as has ⟨c, hk, hlink⟩
      (fun hnone => hkept ((h.expired k c hk).1 hnone)) ((h.expired p b hp).2 hold)
  · rintro ⟨hold, horder⟩
    refine ⟨fun x b hx hnone => hold x b hx ((h.expired x b hx).1 hnone), ?_⟩
    refine (keeps_chains_iff h.part).2 fun k p as has hparent hkept hnone => hkept ?_
    obtain ⟨c, hk, hlink⟩ := hparent
    obtain ⟨b, hp⟩ := has.loaded
    exact (h.expired k c hk).2 (horder k p as b c has hp hk hlink ((h.expired p b hp).1 hnone))

theorem deletes_removeEach {ids : List String}
    (hids : ∀ x b, d.backups.get? x = some b → (x ∈ ids ↔ expired b)) :
    d.Deletes expired (removeEach d.backups ids) := by
  constructor
  · intro x b hx
    rw [get?_removeEach] at hx
    split_ifs at hx
    exact hx
  · intro x b hx
    rw [get?_removeEach, ← hids x b hx, hx]
    split_ifs with hmem <;> simp [hmem]

theorem deletes_shardManager (d : DatedDir) (cutoff : ℤ) :
    d.Deletes (fun b => b.modified < cutoff) (ShardManager.deleteBackupsOld d cutoff) := by
  refine deletes_removeEach fun x b hx => ?_
  simp only [mem_map, mem_filter, decide_eq_true_eq]
  constructor
  · rintro ⟨e, ⟨he, hold⟩, rfl⟩
    rw [mem_entries.1 he, Option.some_inj] at hx
    rwa [← hx]
  · exact fun hold => ⟨(x, b), ⟨mem_entries.2 hx, hold⟩, rfl⟩

theorem deletes_manager (d : DatedDir) (cutoff : ℤ) :
    d.Deletes (fun b => b.createdAt < cutoffMs cutoff) (d.deleteBackupsOld cutoff) := by
  refine deletes_removeEach fun x b hx => ?_
  simp only [listBackups, mem_map, mem_filter, mem_mergeSort, decide_eq_true_eq]
  constructor
  · rintro ⟨b', ⟨⟨e, he, rfl⟩, hold⟩, hid⟩
    rw [d.filed e.1 e.2 (mem_entries.1 he)] at hid
    rw [← hid, mem_entries.1 he, Option.some_inj] at hx
    rwa [← hx]
  · exact fun hold => ⟨b, ⟨⟨(x, b), mem_entries.2 hx, rfl⟩, hold⟩, d.filed x b hx⟩

/-- **Retention.**  The pass by directory times keeps the property when no directory is
older than its manifest lets it be and parents expire after their children; the pass by
`created_at` when in addition no young incremental backup has a stamp below the cutoff,
for seconds are compared with milliseconds. -/
theorem retention_iff (d : DatedDir) (cutoff : ℤ) :
    (d.Retains cutoff (ShardManager.deleteBackupsOld d cutoff) ↔
      (∀ x b, d.backups.get? x = some b → b.modified < cutoff → (b.made : ℤ) < cutoff) ∧
        d.ExpiresInOrder fun b => b.modified < cutoff) ∧
    (d.Retains cutoff (d.deleteBackupsOld cutoff) ↔
      (∀ x b, d.backups.get? x = some b → b.manifest.backupType = .incremental →
        cutoff ≤ b.made → cutoffMs cutoff ≤ b.made / 10 ^ 9) ∧
        d.ExpiresInOrder fun b => b.createdAt < cutoffMs cutoff) := by
  refine ⟨(deletes_shardManager d cutoff).retains_iff, (deletes_manager d cutoff).retains_iff.trans ?_⟩
  refine and_congr_left' (forall₃_congr fun x b hx => ?_)
  rw [DatedBackup.createdAt]
  cases b.manifest.backupType with
  | full =>
    -- in milliseconds the order is that of the times
    have hle : cutoffMs cutoff ≤ cutoff.toNat / 10 ^ 6 := Nat.mod_le _ _
    refine iff_of_true (fun hlt => ?_) fun htype => by cases htype
    have hstamp : b.made / 10 ^ 6 < cutoffMs cutoff := hlt
    omega
  | incremental =>
    constructor
    · intro h _ hyoung
      by_contra hlt
      have hold := h (Nat.not_le.1 hlt)
      omega
    · intro h hlt
      by_contra hyoung
      have hle := h rfl (Int.not_lt.1 hyoung)
      exact absurd hlt (Nat.not_lt.2 hle)

def sample : DatedDir where
  backups := (SortedMap.empty.insert BackupRun.fullId.1 ⟨fullManifest BackupRun.fullId.1 0 8,
    1767225600 * 10 ^ 9, 1767225600 * 10 ^ 9⟩).insert BackupRun.incrementalId.1
      ⟨⟨BackupRun.incrementalId.1, .incremental, 8, some BackupRun.fullId.1, 0, 16⟩,
        1767225601 * 10 ^ 9, 1767225601 * 10 ^ 9⟩
  filed := by
    intro x b hx
    rw [get?_insert, get?_insert] at hx
    split_ifs at hx with h h
    · cases hx
      exact h.symm
    · cases hx
      exact h.symm
    · cases hx

/-- With a cutoff between the two, one pass deletes the parent of a backup that stays,
and the other the young backup too. -/
theorem retention_breaks :
    ¬sample.Retains (17672256005 * 10 ^ 8)
      (ShardManager.deleteBackupsOld sample (17672256005 * 10 ^ 8)) ∧
    ¬sample.Retains (17672256005 * 10 ^ 8) (sample.deleteBackupsOld (17672256005 * 10 ^ 8)) := by
  constructor
  · intro h
    have horder := ((deletes_shardManager _ _).retains_iff.1 h).2
    have hlt := horder BackupRun.incrementalId.1 BackupRun.fullId.1 _ _ _ (.root rfl rfl) rfl rfl rfl
      (by decide)
    exact absurd hlt (by decide)
  · intro h
    have hmade := ((deletes_manager _ _).retains_iff.1 h).1 BackupRun.incrementalId.1 _ rfl (by decide)
    exact absurd hmade (by decide)

end DatedDir

/-
How the manifests of a backup directory hang together.

A manifest names the backup it builds on, and `followParents` finds the chain of
these names.  `call_cases` says what one call leaves in the directory: nothing new, a
full backup, or an incremental one that starts at the manager's bookmark and ends
behind it.
-/
import Mathlib.Data.List.Chain
import Riets.Backup
import Riets.ParentChain

open BackupManager ParentChain List

namespace BackupManifest

def link (m : BackupManifest) : Link String :=
  match m.backupType, m.parentBackupId with
  | .full, _ => .root
  | .incremental, some parent => .child parent
  | .incremental, none => .broken

def stop (m : BackupManifest) : ℕ ×ₗ ℕ := toLex (m.lastBackupSegment, m.lastBackupOffset)

variable {m p c : BackupManifest} {parent : String}

theorem link_eq_root : m.link = .root ↔ m.backupType = .full := by
  unfold link
  split <;> simp_all

theorem link_eq_child :
    m.link = .child parent ↔ m.backupType = .incremental ∧ m.parentBackupId = some parent := by
  unfold link
  split <;> simp_all

theorem stop_lt_stop : p.stop < c.stop ↔ p.lastBackupSegment < c.lastBackupSegment ∨
    p.lastBackupSegment = c.lastBackupSegment ∧ p.lastBackupOffset < c.lastBackupOffset :=
  Prod.Lex.toLex_lt_toLex

end BackupManifest

def BackupDir.manifest? (backups : BackupDir) (id : String) : Option BackupManifest :=
  (backups.get? id).map ShardBackup.manifest

abbrev LinkedTo (backups : BackupDir) : String → List BackupManifest → Prop :=
  Rooted BackupManifest.link backups.manifest?

theorem loadManifest_eq_ok {backups : BackupDir} {id : String} {m : BackupManifest} :
    loadManifest backups id = .ok m ↔ backups.manifest? id = some m := by
  unfold loadManifest BackupDir.manifest?
  cases backups.get? id <;> simp

section Follow

variable {backups : BackupDir} {id : String} {ms : List BackupManifest}

theorem LinkedTo.followParents_eq (h : LinkedTo backups id ms) {m : BackupManifest}
    (hm : backups.manifest? id = some m) {turns : ℕ} (hturns : ms.length ≤ turns)
    (children : List BackupManifest) :
    followParents backups turns m children = some (.ok (ms ++ children)) := by
  induction h generalizing m turns children with
  | root hload hlink =>
    rw [hload, Option.some_inj] at hm
    subst hm
    obtain ⟨turns, rfl⟩ := Nat.exists_eq_add_of_le' hturns
    rw [length_singleton, followParents, BackupManifest.link_eq_root.1 hlink]
    rfl
  | child h hload hlink ih =>
    rw [hload, Option.some_inj] at hm
    subst hm
    rw [length_append, length_singleton] at hturns
    obtain ⟨turns, rfl⟩ := Nat.exists_eq_add_of_le' (show 1 ≤ turns by omega)
    obtain ⟨htype, hparent⟩ := BackupManifest.link_eq_child.1 hlink
    obtain ⟨p, hp⟩ := h.loaded
    rw [followParents, htype, hparent]
    simp only [loadManifest_eq_ok.2 hp]
    rw [ih hp (by omega), append_assoc]
    rfl

theorem linkedTo_of_followParents {turns : ℕ} {m : BackupManifest}
    (hm : backups.manifest? id = some m) {children chain : List BackupManifest}
    (h : followParents backups turns m children = some (.ok chain)) :
    ∃ ms, chain = ms ++ children ∧ LinkedTo backups id ms := by
  induction turns generalizing id m children with
  | zero => cases h
  | succ turns ih =>
    rw [followParents] at h
    cases htype : m.backupType with
    | full =>
      simp only [htype] at h
      cases h
      exact ⟨[m], rfl, .root hm (BackupManifest.link_eq_root.2 htype)⟩
    | incremental =>
      simp only [htype] at h
      cases hparent : m.parentBackupId with
      | none =>
        simp only [hparent] at h
        cases h
      | some parent =>
        simp only [hparent] at h
        cases hload : loadManifest backups parent with
        | error e =>
          simp only [hload] at h
          cases h
        | ok p =>
          simp only [hload] at h
          obtain ⟨ms, rfl, hms⟩ := ih (loadManifest_eq_ok.1 hload) h
          exact ⟨ms ++ [m], by simp, hms.child hm (BackupManifest.link_eq_child.2 ⟨htype, hparent⟩)⟩

theorem checkChain_eq_ok (ms : List BackupManifest) :
    checkChain ms = .ok () ↔ ms.IsChain fun p c => gap p c = false := by
  induction ms with
  | nil => simp [checkChain]
  | cons p ms ih =>
    cases ms with
    | nil => simp [checkChain]
    | cons c ms =>
      rw [checkChain, isChain_cons_cons, ← ih]
      cases gap p c <;> simp

/-- `restore_chain` up to its last loop, the first to touch the target. -/
def restorePlan (backups : BackupDir) (turns : ℕ) (id : String) :
    Option (Except BackupError (List BackupManifest)) :=
  if !isValidBackupId id then
    some (.error (.ioError ("invalid backup id '" ++ id ++ "'")))
  else
    match loadManifest backups id with
    | .error e => some (.error e)
    | .ok manifest =>
      match followParents backups turns manifest [] with
      | none => none
      | some (.error e) => some (.error e)
      | some (.ok chain) => some ((checkChain chain).map fun _ => chain)

theorem restoreChain_eq_plan (turns : ℕ) (target : SortedMap ℕ ByteSeq) :
    restoreChain backups turns id target = (restorePlan backups turns id).map fun plan =>
      plan.bind fun chain =>
        chain.foldlM (fun target m => restore backups m.backupId target) target := by
  unfold restoreChain restorePlan
  split_ifs
  · rfl
  cases loadManifest backups id with
  | error e => rfl
  | ok manifest =>
    simp only
    rcases followParents backups turns manifest [] with _ | e | chain
    · rfl
    · rfl
    · simp only [Option.map_some]
      cases checkChain chain <;> rfl

theorem LinkedTo.restorePlan_eq (h : LinkedTo backups id ms) (hid : isValidBackupId id)
    {turns : ℕ} (hturns : ms.length ≤ turns) :
    restorePlan backups turns id = some ((checkChain ms).map fun _ => ms) := by
  obtain ⟨m, hm⟩ := h.loaded
  rw [restorePlan, hid]
  simp only [loadManifest_eq_ok.2 hm, h.followParents_eq hm hturns [], append_nil]
  rfl

theorem linkedTo_of_restoreChain {turns : ℕ} {target files : SortedMap ℕ ByteSeq}
    (h : restoreChain backups turns id target = some (.ok files)) :
    ∃ ms, LinkedTo backups id ms := by
  rw [restoreChain] at h
  split_ifs at h
  · cases h
  cases hload : loadManifest backups id with
  | error e =>
    rw [hload] at h
    cases h
  | ok m =>
    rw [hload] at h
    rcases hfollow : followParents backups turns m [] with _ | e | chain
    · simp only [hfollow] at h
      cases h
    · simp only [hfollow] at h
      cases h
    · obtain ⟨ms, -, hms⟩ := linkedTo_of_followParents (loadManifest_eq_ok.1 hload) hfollow
      exact ⟨ms, hms⟩

end Follow

/-! ### What a call leaves -/

namespace BackupManager

open List Option BackupDir SortedMap

def manifestWritten (m : BackupManager) (segments : SortedMap ℕ ByteSeq) :
    BackupCall → Option BackupManifest
  | .full id fault =>
    if fault = none ∨ fault = some .saving then
      segments.entries.getLast?.map fun e => fullManifest id.1 e.1 e.2.length
    else none
  | .incremental id fault =>
    if fault = none ∨ fault = some .saving then do
      let parent ← m.lastBackupId
      let last ← (readSegmentDiff segments m.lastSegmentId m.lastSegmentOffset).getLast?
      some (m.incrementalManifest id.1 parent last)
    else none

def bookmark (m : BackupManager) : ℕ ×ₗ ℕ := toLex (m.lastSegmentId, m.lastSegmentOffset)

variable {m : BackupManager} {segments : SortedMap ℕ ByteSeq} {w : BackupManifest}

theorem erase_part (backups : BackupDir) (id : String) :
    Part (manifest? (backups.erase id)) backups.manifest? := by
  intro x c hx
  rw [manifest?, get?_erase] at hx
  split_ifs at hx
  · cases hx
  · exact hx

theorem deleteIncrementalChain_part (turns : ℕ) (backups : BackupDir) (current : String) :
    Part (deleteIncrementalChain turns backups current).manifest? backups.manifest? := by
  induction turns generalizing backups current with
  | zero => exact fun _ _ hx => hx
  | succ turns ih =>
    intro x c hx
    rw [deleteIncrementalChain] at hx
    split at hx
    · exact hx
    · split at hx
      · exact hx
      · exact erase_part _ _ x c (ih _ _ x c hx)
      · exact erase_part _ _ x c hx

theorem bookmark_lt_of_diff {d : SegmentDiff}
    (hd : d ∈ readSegmentDiff segments m.lastSegmentId m.lastSegmentOffset) :
    m.bookmark < toLex (d.id, d.stop) := by
  obtain ⟨e, -, he⟩ := mem_filterMap.1 hd
  rw [bookmark, Prod.Lex.toLex_lt_toLex]
  unfold diffOf at he
  simp only at he
  split_ifs at he with hlt heq hlen hlen
  · cases he
    exact .inr ⟨heq.symm, hlen⟩
  · cases he
    exact .inl (show m.lastSegmentId < e.1 by omega)

theorem call_of_none {call : BackupCall} (h : m.manifestWritten segments call = none) :
    ∃ backups : BackupDir, Part backups.manifest? m.backups.manifest? ∧
      (m.call segments call).2 = { m with backups } := by
  have hsame : Part m.backups.manifest? m.backups.manifest? := fun _ _ hx => hx
  cases call with
  | full id fault =>
    rw [call, createFullBackup]
    cases hlast : segments.entries.getLast? with
    | none => exact ⟨_, hsame, rfl⟩
    | some e =>
      rw [manifestWritten, hlast] at h
      rcases fault with _ | _ | _ | _
      · cases h
      · exact ⟨_, hsame, rfl⟩
      · exact ⟨_, erase_part _ _, rfl⟩
      · cases h
  | incremental id fault =>
    rcases m with ⟨backups, _ | parent, last, offset⟩
    · exact ⟨backups, hsame, rfl⟩
    cases hd : (readSegmentDiff segments last offset).getLast? with
    | none =>
      refine ⟨backups, hsame, ?_⟩
      simp only [call, createIncrementalBackup, hd]
      split_ifs <;> rfl
    | some d =>
      simp only [manifestWritten, hd] at h
      rcases fault with _ | _ | _ | _
      · cases h
      · exact ⟨backups, hsame, rfl⟩
      · refine ⟨_, erase_part backups id.1, ?_⟩
        simp only [call, createIncrementalBackup, hd]
        rfl
      · cases h

/-- A manifest is the newest of a manager: it is held, and the others were there
before. -/
structure Newest (m m' : BackupManager) (w : BackupManifest) : Prop where
  held : m'.lastBackupId = some w.backupId
  stop : w.stop = m'.bookmark
  backups : ∀ x c, m'.backups.manifest? x = some c →
    x = w.backupId ∧ c = w ∨ x ≠ w.backupId ∧ m.backups.manifest? x = some c

/-- Where a manifest starts: it is a full backup, or it starts at the bookmark of the
manager and ends behind it. -/
def Starts (m : BackupManager) (w : BackupManifest) : Prop :=
  w.link = .root ∨ ∃ parent, m.lastBackupId = some parent ∧ w.link = .child parent ∧
    w.startOffset = m.lastSegmentOffset ∧ m.bookmark < w.stop

theorem call_of_some {call : BackupCall} (h : m.manifestWritten segments call = some w) :
    w.backupId = call.id ∧ Starts m w ∧ Newest m (m.call segments call).2 w := by
  have hupsert : ∀ (id : String) (f : Option ShardBackup → ShardBackup) (x : String)
      (c : BackupManifest), manifest? (m.backups.upsert id f) x = some c →
      x = id ∧ c = (f (m.backups.get? id)).manifest ∨
        x ≠ id ∧ m.backups.manifest? x = some c := by
    intro id f x c hx
    rw [manifest?, get?_upsert] at hx
    split_ifs at hx with hid
    · exact .inl ⟨hid, (some_inj.1 hx).symm⟩
    · exact .inr ⟨hid, hx⟩
  cases call with
  | full id fault =>
    rw [manifestWritten] at h
    split_ifs at h with hfault
    obtain ⟨e, hlast, rfl⟩ := map_eq_some_iff.1 h
    refine ⟨rfl, .inl rfl, ?_⟩
    rw [call, createFullBackup, hlast]
    rcases hfault with rfl | rfl
    · cases m.lastBackupId with
      | none => exact ⟨rfl, rfl, fun x c hx => hupsert _ _ x c hx⟩
      | some old =>
        refine ⟨rfl, rfl, fun x c hx => ?_⟩
        have hwritten := deleteIncrementalChain_part _ _ _ x c hx
        exact hupsert _ _ x c hwritten
    · exact ⟨rfl, rfl, fun x c hx => hupsert _ _ x c hx⟩
  | incremental id fault =>
    rw [manifestWritten] at h
    split_ifs at h with hfault
    obtain ⟨parent, hheld, h⟩ := bind_eq_some_iff.1 h
    obtain ⟨d, hd, h⟩ := bind_eq_some_iff.1 h
    cases h
    refine ⟨rfl, .inr ⟨parent, hheld, rfl, rfl, bookmark_lt_of_diff (mem_of_getLast? hd)⟩, ?_⟩
    rw [call, createIncrementalBackup, hheld]
    rcases hfault with rfl | rfl <;>
    · simp only [hd, reduceCtorEq, if_false]
      exact ⟨rfl, rfl, fun x c hx => hupsert _ _ x c hx⟩

def Filed (m : BackupManager) : Prop :=
  ∀ x c, m.backups.manifest? x = some c → c.backupId = x

theorem Filed.call (h : m.Filed) (segments : SortedMap ℕ ByteSeq) (call : BackupCall) :
    (m.call segments call).2.Filed := by
  intro x c hx
  cases hw : m.manifestWritten segments call with
  | none =>
    obtain ⟨backups, hpart, heq⟩ := call_of_none hw
    rw [heq] at hx
    exact h x c (hpart x c hx)
  | some w =>
    obtain ⟨-, -, hnewest⟩ := call_of_some hw
    rcases hnewest.backups x c hx with ⟨rfl, rfl⟩ | ⟨-, hold⟩
    · rfl
    · exact h x c hold

/-- The links between the backups of a manager, whose calls had some ids: the held
backup ends at the bookmark, and each incremental one starts where its parent ends and
ends behind it. -/
structure Linked (m : BackupManager) (ids : List String) : Prop where
  used : ∀ x c, m.backups.manifest? x = some c → x ∈ ids
  named : ∀ x c p, m.backups.manifest? x = some c → c.link = .child p → p ∈ ids
  heldUsed : ∀ x, m.lastBackupId = some x → x ∈ ids
  held : ∀ x c, m.lastBackupId = some x → m.backups.manifest? x = some c → c.stop = m.bookmark
  meets : ∀ x c p b, m.backups.manifest? x = some c → c.link = .child p →
    m.backups.manifest? p = some b → c.startOffset = b.lastBackupOffset ∧ b.stop < c.stop

theorem Linked.call {ids : List String} (h : m.Linked ids) (segments : SortedMap ℕ ByteSeq)
    (call : BackupCall) (hnew : call.id ∉ ids) :
    (m.call segments call).2.Linked (call.id :: ids) := by
  cases hw : m.manifestWritten segments call with
  | none =>
    obtain ⟨backups, hpart, heq⟩ := call_of_none hw
    rw [heq]
    exact ⟨fun x c hx => mem_cons_of_mem _ (h.used x c (hpart x c hx)),
      fun x c p hx hlink => mem_cons_of_mem _ (h.named x c p (hpart x c hx) hlink),
      fun x hx => mem_cons_of_mem _ (h.heldUsed x hx),
      fun x c hheld hx => h.held x c hheld (hpart x c hx),
      fun x c p b hx hlink hp => h.meets x c p b (hpart x c hx) hlink (hpart p b hp)⟩
  | some w =>
    obtain ⟨hid, hstarts, hnewest⟩ := call_of_some hw
    have hparent : ∀ p, w.link = .child p → m.lastBackupId = some p ∧
        w.startOffset = m.lastSegmentOffset ∧ m.bookmark < w.stop := by
      intro p hlink
      rcases hstarts with hroot | ⟨parent, hheld, hchild, hstart, hlt⟩
      · rw [hroot] at hlink
        cases hlink
      · rw [hchild, Link.child.injEq] at hlink
        exact ⟨hlink ▸ hheld, hstart, hlt⟩
    refine ⟨fun x c hx => ?_, fun x c p hx hlink => ?_, fun x hx => ?_, fun x c hheld hx => ?_,
      fun x c p b hx hlink hp => ?_⟩
    · rcases hnewest.backups x c hx with ⟨rfl, -⟩ | ⟨-, hold⟩
      · exact hid ▸ mem_cons_self
      · exact mem_cons_of_mem _ (h.used x c hold)
    · refine mem_cons_of_mem _ ?_
      rcases hnewest.backups x c hx with ⟨-, rfl⟩ | ⟨-, hold⟩
      · exact h.heldUsed p (hparent p hlink).1
      · exact h.named x c p hold hlink
    · rw [hnewest.held, some_inj] at hx
      rw [← hx, hid]
      exact mem_cons_self
    · rw [hnewest.held, some_inj] at hheld
      rcases hnewest.backups x c hx with ⟨-, rfl⟩ | ⟨hne, -⟩
      · exact hnewest.stop
      · exact absurd hheld.symm hne
    · rcases hnewest.backups p b hp with ⟨rfl, -⟩ | ⟨-, hpold⟩
      · -- no backup names an id before it is used
        exfalso
        apply hnew
        rw [← hid]
        rcases hnewest.backups x c hx with ⟨-, rfl⟩ | ⟨-, hold⟩
        · exact h.heldUsed _ (hparent _ hlink).1
        · exact h.named x c _ hold hlink
      rcases hnewest.backups x c hx with ⟨-, rfl⟩ | ⟨-, hold⟩
      · obtain ⟨hheld, hstart, hlt⟩ := hparent p hlink
        have hstop := h.held p b hheld hpold
        refine ⟨?_, hstop ▸ hlt⟩
        rw [hstart]
        exact (congrArg (fun e => (ofLex e).2) hstop).symm
      · exact h.meets x c p b hold hlink hpold

end BackupManager

namespace BackupRun

open List

def callIds (steps : List BackupStep) : List String :=
  steps.filterMap fun
    | .store _ => none
    | .backup call => some call.id

variable {r r' : BackupRun} {st : BackupStep} {steps : List BackupStep}

theorem of_run_cons (hrun : r.run (st :: steps) = .ok r') :
    ∃ r₁, r.step st = .ok r₁ ∧ r₁.run steps = .ok r' := by
  rw [run, foldlM_cons] at hrun
  exact Except.of_bind_ok hrun

theorem step_manager (hstep : r.step st = .ok r') :
    (∃ shard, st = .store shard ∧
      (r'.manager = r.manager ∨ r'.manager = r.manager.requireFullBackup)) ∨
    ∃ call, st = .backup call ∧ r'.manager = (r.manager.call r.segments call).2 := by
  cases st with
  | store shard =>
    obtain ⟨shard', -, hstep⟩ := Except.of_bind_ok hstep
    cases hstep
    refine .inl ⟨shard, rfl, ?_⟩
    show (if _ then _ else _) = _ ∨ (if _ then _ else _) = _
    split_ifs
    · exact .inr rfl
    · exact .inl rfl
  | backup call =>
    cases hstep
    exact .inr ⟨call, rfl, rfl⟩

theorem filed_run (h : r.manager.Filed) (hrun : r.run steps = .ok r') : r'.manager.Filed := by
  induction steps generalizing r with
  | nil =>
    cases hrun
    exact h
  | cons st steps ih =>
    obtain ⟨r₁, hstep, hrest⟩ := of_run_cons hrun
    refine ih ?_ hrest
    rcases step_manager hstep with ⟨-, -, hm | hm⟩ | ⟨call, -, hm⟩
    · rwa [hm]
    · rw [hm]
      exact h
    · rw [hm]
      exact h.call _ call

theorem linked_run {ids : List String} (h : r.manager.Linked ids) (hrun : r.run steps = .ok r')
    (hnodup : (callIds steps).Nodup) (hnew : ∀ x ∈ callIds steps, x ∉ ids) :
    ∃ ids', r'.manager.Linked ids' := by
  induction steps generalizing r ids with
  | nil =>
    cases hrun
    exact ⟨ids, h⟩
  | cons st steps ih =>
    obtain ⟨r₁, hstep, hrest⟩ := of_run_cons hrun
    rcases step_manager hstep with ⟨shard, rfl, hm | hm⟩ | ⟨call, rfl, hm⟩
    · exact ih (hm ▸ h) hrest hnodup hnew
    · have hfull : r₁.manager.Linked ids := by
        rw [hm]
        exact ⟨h.used, h.named, (fun _ hx => by cases hx), (fun _ _ hx => by cases hx), h.meets⟩
      exact ih hfull hrest hnodup hnew
    · have hids : callIds (.backup call :: steps) = call.id :: callIds steps := rfl
      rw [hids, nodup_cons] at hnodup
      rw [hids] at hnew
      have hcalled := h.call r.segments call (hnew _ mem_cons_self)
      rw [← hm] at hcalled
      refine ih hcalled hrest hnodup.2 ?_
      intro x hx hmem
      rcases mem_cons.1 hmem with rfl | hold
      · exact hnodup.1 hx
      · exact hnew x (mem_cons_of_mem _ hx) hold

theorem filed_new : new.manager.Filed := fun _ _ hx => by cases hx

theorem linked_new : new.manager.Linked [] :=
  ⟨(fun _ _ hx => by cases hx), (fun _ _ _ hx => by cases hx), (fun _ hx => by cases hx),
    (fun _ _ hx => by cases hx), (fun _ _ _ _ hx => by cases hx)⟩

end BackupRun

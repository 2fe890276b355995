/-
Gaps in a chain of backups.

`restore_chain` compares each manifest of a chain with the one before it.  It asks
whether the child begins before its parent ends, and only in one segment, so a chain
whose pieces leave bytes out between them is restored all the same.  What it does
refuse are the chains that go back (`refuses_iff`).
-/
import Riets.BackupChain

namespace BackupManager

open ParentChain BackupRun BackupManifest List

/-- A child starts behind the end of its parent: the bytes between are in neither. -/
def HasGap (ms : List BackupManifest) : Prop :=
  ∃ pre p c post, ms = pre ++ p :: c :: post ∧ p.lastBackupOffset < c.startOffset

/-- A child ends in a segment before its parent's, or in the same one and starts before
its parent's end. -/
def StepsBack (ms : List BackupManifest) : Prop :=
  ∃ pre p c post, ms = pre ++ p :: c :: post ∧ (c.lastBackupSegment < p.lastBackupSegment ∨
    c.lastBackupSegment = p.lastBackupSegment ∧ c.startOffset < p.lastBackupOffset)

/-- `restore_chain` returns an error before it touches the target. -/
def Refuses (backups : BackupDir) (id : String) : Prop :=
  ∃ e n, ∀ turns, n ≤ turns → restorePlan backups turns id = some (.error e)

/-- The manifests that the calls of a manager left one after the other: a full backup
and the incremental ones behind it.  Calls that wrote no manifest may stand between
them, and the install of a compaction. -/
inductive Produced : List BackupManifest → BackupManager → Prop
  | full {m : BackupManager} {segments : SortedMap ℕ ByteSeq} {call : BackupCall}
      {w : BackupManifest} (hw : m.manifestWritten segments call = some w)
      (hfull : w.backupType = .full) : Produced [w] (m.call segments call).2
  | incremental {ms : List BackupManifest} {m : BackupManager} (h : Produced ms m)
      {segments : SortedMap ℕ ByteSeq} {call : BackupCall} {w : BackupManifest}
      (hw : m.manifestWritten segments call = some w) (hincremental : w.backupType = .incremental) :
      Produced (ms ++ [w]) (m.call segments call).2
  | other {ms : List BackupManifest} {m : BackupManager} (h : Produced ms m)
      {segments : SortedMap ℕ ByteSeq} {call : BackupCall}
      (hw : m.manifestWritten segments call = none) : Produced ms (m.call segments call).2
  | compacted {ms : List BackupManifest} {m : BackupManager} (h : Produced ms m) :
      Produced ms m.requireFullBackup

variable {backups : BackupDir} {id : String} {ms : List BackupManifest} {p c : BackupManifest}

theorem gap_eq_false : gap p c = false ↔ ¬(c.lastBackupSegment < p.lastBackupSegment ∨
    c.lastBackupSegment = p.lastBackupSegment ∧ c.startOffset < p.lastBackupOffset) := by
  rw [gap, ← Bool.not_eq_true, not_iff_not]
  simp

theorem checkChain_eq_ok_iff : checkChain ms = .ok () ↔ ¬StepsBack ms := by
  rw [checkChain_eq_ok, isChain_iff_forall_rel_of_append_cons_cons]
  constructor
  · rintro h ⟨pre, p, c, post, hms, hback⟩
    exact gap_eq_false.1 (h hms) hback
  · intro h p c pre post hms
    exact gap_eq_false.2 fun hback => h ⟨pre, p, c, post, hms, hback⟩

theorem refuses_iff (h : LinkedTo backups id ms) :
    Refuses backups id ↔ (isValidBackupId id → StepsBack ms) := by
  by_cases hid : isValidBackupId id
  · have hplan : ∀ {turns}, ms.length ≤ turns → _ := h.restorePlan_eq hid
    constructor
    · rintro ⟨e, n, hrefuses⟩ -
      by_contra hback
      have hok := hplan (le_max_left ms.length n)
      rw [hrefuses _ (le_max_right _ _), checkChain_eq_ok_iff.2 hback] at hok
      cases hok
    · intro hback
      cases hcheck : checkChain ms with
      | ok => exact absurd (hback hid) (checkChain_eq_ok_iff.1 hcheck)
      | error e =>
        refine ⟨e, ms.length, fun turns hturns => ?_⟩
        rw [hplan hturns, hcheck]
        rfl
  · refine ⟨fun _ hvalid => absurd hvalid hid, fun _ => ?_⟩
    refine ⟨.ioError ("invalid backup id '" ++ id ++ "'"), 0, fun turns _ => ?_⟩
    rw [restorePlan, if_pos (by simpa using hid)]

theorem Produced.isChain {m : BackupManager} (h : Produced ms m) :
    (ms.IsChain fun p c => gap p c = false) ∧ ∃ last, ms.getLast? = some last ∧ last.stop = m.bookmark := by
  induction h with
  | full hw hfull =>
    obtain ⟨-, -, hnewest⟩ := call_of_some hw
    exact ⟨isChain_singleton _, _, rfl, hnewest.stop⟩
  | @incremental ms m h segments call w hw hincremental ih =>
    obtain ⟨-, hstarts, hnewest⟩ := call_of_some hw
    obtain ⟨hchain, last, hlast, hstop⟩ := ih
    refine ⟨isChain_append.2 ⟨hchain, isChain_singleton _, fun p hp c hc => ?_⟩, w,
      by simp, hnewest.stop⟩
    rw [hlast] at hp
    cases hp
    cases hc
    rcases hstarts with hroot | ⟨parent, -, -, hstart, hlt⟩
    · rw [link_eq_root, hincremental] at hroot
      cases hroot
    -- the new manifest starts where the last one ends
    have hoffset : last.lastBackupOffset = w.startOffset := by
      rw [hstart]
      exact congrArg (fun e => (ofLex e).2) hstop
    rw [← hstop, stop_lt_stop] at hlt
    rw [gap_eq_false]
    omega
  | other h hw ih =>
    obtain ⟨backups, -, heq⟩ := call_of_none hw
    rw [heq]
    exact ih
  | compacted h ih => exact ih

/-- **The contiguity check.**  A chain with a gap is refused before the target is
touched exactly when its id is malformed or some link steps back; the chains that the
calls leave pass the check. -/
theorem gap_refused_iff (ms : List BackupManifest) :
    (∀ (backups : BackupDir) (id : String), LinkedTo backups id ms →
      ((HasGap ms → Refuses backups id) ↔ ¬HasGap ms ∨ isValidBackupId id = false ∨ StepsBack ms)) ∧
    ∀ m : BackupManager, Produced ms m → checkChain ms = .ok () := by
  refine ⟨fun backups id h => ?_, fun m h => (checkChain_eq_ok ms).2 h.isChain.1⟩
  rw [refuses_iff h, imp_iff_not_or, imp_iff_not_or, Bool.not_eq_true]

def gapDir : BackupDir :=
  (SortedMap.empty.insert fullId.1
    ⟨fullManifest fullId.1 0 100, .empty, .empty⟩).insert incrementalId.1
    ⟨⟨incrementalId.1, .incremental, 200, some fullId.1, 0, 300⟩, .empty, .empty⟩

def gapChain : List BackupManifest :=
  [fullManifest fullId.1 0 100] ++
    [⟨incrementalId.1, .incremental, 200, some fullId.1, 0, 300⟩]

theorem gapChain_linked : LinkedTo gapDir incrementalId.1 gapChain :=
  .child (.root rfl rfl) rfl rfl

theorem gap_refused_iff_gapChain :
    ((HasGap gapChain → Refuses gapDir incrementalId.1) ↔
      ¬HasGap gapChain ∨ isValidBackupId incrementalId.1 = false ∨ StepsBack gapChain) ∧
      checkChain [fullManifest fullId.1 0 8] = .ok () :=
  ⟨(gap_refused_iff _).1 _ _ gapChain_linked, (gap_refused_iff _).2 _
    (@Produced.full new.manager new.segments (.full fullId none) _ rfl rfl)⟩

/-- The bytes from 100 to 200 are in neither backup, and the chain is not refused. -/
theorem gap_accepted : LinkedTo gapDir incrementalId.1 gapChain ∧ HasGap gapChain ∧
    ¬Refuses gapDir incrementalId.1 := by
  refine ⟨gapChain_linked, ⟨[], _, _, [], rfl, by decide⟩, fun hrefuses => ?_⟩
  have hback := (refuses_iff gapChain_linked).1 hrefuses incrementalId.2
  exact checkChain_eq_ok_iff.1 (rfl : checkChain gapChain = .ok ()) hback

end BackupManager

/-
The swap of a restored copy into the directory of a shard.

A restore prepares a complete copy of the data in `restore.new`, then moves the
live directories to `restore.old`, the copy into their place, empties the log
and drops both restore directories.  The existence of `restore.old` is the
commit point: a start that finds it finishes the swap, a start that finds only
`restore.new` throws the copy away.
-/
import Riets.ShardRoot

open CrashProgram FileTree

namespace ShardRoot

open List ShardName Wal

def restoreDataDirs : List ShardName := [.index, .documents]

/-- `sync_tree`: it reads the directory and changes nothing. -/
def syncTree (p : FilePath ShardName) : ShardProgram Unit := do
  if ← inspect (exists? p) then pure () else throw (.error .notFound)

/-- `fs::remove_file`, a missing file being no error. -/
def removeFileIfExists (p : FilePath ShardName) : ShardProgram Unit := do
  match ← inspect fun t => t.entry p with
  | some (.file _) => perform (remove p)
  | some .dir => throw (.error .isADirectory)
  | none => pure ()

/-- The live directory goes to `restore.old`, unless one was moved there before
a crash. -/
def setAside (dir : ShardName) : ShardProgram Unit := do
  if (← inspect (exists? [dir])) && !(← inspect (exists? [.restoreOld, dir])) then
    perform (rename [dir] [.restoreOld] dir)

section Programs

variable (rd : ReadDir ShardName) (crc : RecordCrc)

/-- The body of the loop of `swap_in_restore`. -/
def swapDir (dir : ShardName) : ShardProgram Unit := do
  if ← inspect (exists? [.restoreNew, dir]) then
    setAside dir
    removeDirIfExists rd [dir] -- a half-moved copy from before a crash
    perform (rename [.restoreNew, dir] [] dir)
  else
    pure () -- already swapped before a crash

/-- The commit point: once the copy is synced, `restore.old` is created. -/
def beginSwap : ShardProgram Unit := do
  if ← inspect (exists? [.restoreOld]) then
    pure ()
  else
    restoreDataDirs.forM fun dir => syncTree [.restoreNew, dir]
    perform (createDir [] .restoreOld)

def swapInRestore : ShardProgram Unit := do
  beginSwap
  restoreDataDirs.forM (swapDir rd)
  removeDirIfExists rd [.indexNew]
  removeDirIfExists rd [.indexOld]
  removeFileIfExists [.documentsMaps]

def finishRestoreSwap : ShardProgram Unit := do
  removeDirIfExists rd [.restoreOld]
  removeDirIfExists rd [.restoreNew]

/-- `reset_wal_after_restore`: the log is recreated empty. -/
def resetWalAfterRestore : ShardProgram Unit := do
  removeDirIfExists rd [.wal]
  walOpen crc

/-- The file operations of `commit_restore`. -/
def commitRestore : ShardProgram Unit := do
  swapInRestore rd
  resetWalAfterRestore rd crc
  finishRestoreSwap rd

def recoverInterruptedRestore : ShardProgram Bool := do
  if ← inspect (exists? [.restoreOld]) then
    swapInRestore rd
    removeDirIfExists rd [.wal]
    finishRestoreSwap rd
    return true
  else
    removeDirIfExists rd [.restoreNew]
    return false

end Programs

/-! ### The states a restore goes through -/

/-- Every name of the shard is what it is used as: the maps are a file, the
others directories. -/
structure Shaped (t : FileTree ShardName) : Prop where
  dirs : ∀ n ∈ [ShardName.index, .documents, .indexNew, .indexOld, .wal, .restoreNew, .restoreOld],
    ∀ bytes, t.entry [n] ≠ some (.file bytes)
  maps : t.entry [.documentsMaps] ≠ some .dir

/-- A complete copy lies in `restore.new`, and no commit has started. -/
structure Staged (t : FileTree ShardName) : Prop extends Shaped t where
  copy : ∀ d ∈ restoreDataDirs, t.entry [.restoreNew, d] = some .dir
  uncommitted : t.entry [.restoreOld] = none

variable (t₀ : FileTree ShardName)

/-- Everything but the copy is as it was in `t₀`. -/
def Kept (t : FileTree ShardName) : Prop :=
  ∀ q, ¬[restoreNew] <+: q → t.entry q = t₀.entry q

/-- The directory `d` is the one of the copy, which has left `restore.new`. -/
def DirSwapped (d : ShardName) (t : FileTree ShardName) : Prop :=
  t.entry [.restoreNew, d] = none ∧ t.content [d] = t₀.content [.restoreNew, d]

/-- The commit has started and is not finished: each directory of the copy is
still in `restore.new` or already in its place. -/
structure Swapping (t : FileTree ShardName) : Prop extends Shaped t where
  committed : t.entry [.restoreOld] = some .dir
  ready : ∀ d ∈ restoreDataDirs,
    t.content [.restoreNew, d] = t₀.content [.restoreNew, d] ∨ DirSwapped t₀ d t

/-- The data is the copy, the maps are gone and the log holds no record. -/
structure Restored (t : FileTree ShardName) : Prop where
  data : ∀ d ∈ restoreDataDirs, t.content [d] = t₀.content [.restoreNew, d]
  maps : t.entry [.documentsMaps] = none
  wal : t.entry [.wal] = none ∨ Fresh t

def Interrupted (t : FileTree ShardName) : Prop :=
  Shaped t ∧ t.entry [.restoreOld] = none ∧ (Kept t₀ t ∨ Restored t₀ t) ∨ Swapping t₀ t

structure Settled (t : FileTree ShardName) : Prop extends Shaped t where
  noOld : t.entry [.restoreOld] = none
  noNew : t.entry [.restoreNew] = none
  data : Kept t₀ t ∨ Restored t₀ t

variable {t₀} {t u : FileTree ShardName} {d : ShardName} {rd : ReadDir ShardName}

theorem Shaped.of_sub (h : Shaped t) (hu : ∀ q, u.entry q = t.entry q ∨ u.entry q = none) :
    Shaped u := by
  refine ⟨fun n hn bytes => ?_, ?_⟩
  · rcases hu [n] with h' | h' <;> rw [h']
    · exact h.dirs n hn bytes
    · simp
  · rcases hu [.documentsMaps] with h' | h' <;> rw [h']
    · exact h.maps
    · simp

variable {p : FilePath ShardName}

theorem Shaped.thinned (h : Shaped t) (hu : Thinned p t u) : Shaped u :=
  h.of_sub fun q => (hu q).imp_right fun h => h.2

theorem thinned_of_without (h : Without p t u) : Thinned p t u := by
  intro q
  rw [h]
  by_cases hpq : p <+: q
  · exact .inr ⟨hpq, if_pos hpq⟩
  · exact .inl (if_neg hpq)

theorem entry_of_thinned {q : FilePath ShardName} (h : Thinned p t u) (hq : ¬p <+: q) :
    u.entry q = t.entry q :=
  (h q).resolve_right fun h => hq h.1

theorem Swapping.of_agree (h : Swapping t₀ t) (hshaped : Shaped u)
    (hold : u.entry [.restoreOld] = some .dir)
    (hlive : ∀ e ∈ restoreDataDirs, u.content [e] = t.content [e])
    (hcopy : ∀ e ∈ restoreDataDirs, u.content [.restoreNew, e] = t.content [.restoreNew, e]) :
    Swapping t₀ u := by
  refine ⟨hshaped, hold, fun e he => ?_⟩
  rw [DirSwapped, hlive e he, hcopy e he, show u.entry [.restoreNew, e] = t.entry [.restoreNew, e]
    from congrFun (hcopy e he) []]
  exact h.ready e he

/-! ### One directory -/

theorem ne_of_mem_restoreDataDirs (hd : d ∈ restoreDataDirs) :
    d ≠ .restoreNew ∧ d ≠ .restoreOld ∧ d ≠ .wal ∧ d ≠ .documentsMaps ∧ d ≠ .indexNew ∧
      d ≠ .indexOld := by
  rw [restoreDataDirs, mem_cons, mem_singleton] at hd
  rcases hd with rfl | rfl <;> decide

/-- While `d` is still in `restore.new`, only its live place and its place in
`restore.old` change. -/
def Clearing (d : ShardName) (t u : FileTree ShardName) : Prop :=
  (∀ q, ¬[d] <+: q → ¬[.restoreOld, d] <+: q → u.entry q = t.entry q) ∧
    ∀ bytes, u.entry [d] ≠ some (.file bytes)

theorem Clearing.thinned {v : FileTree ShardName} (h : Clearing d t u) (hv : Thinned [d] u v) :
    Clearing d t v := by
  refine ⟨fun q hq hq' => (entry_of_thinned hv hq).trans (h.1 q hq hq'), fun bytes => ?_⟩
  rcases hv [d] with h' | ⟨-, h'⟩ <;> rw [h']
  · exact h.2 bytes
  · simp

theorem Clearing.swapping (hd : d ∈ restoreDataDirs) (ht : Swapping t₀ t)
    (hcopy : t.content [.restoreNew, d] = t₀.content [.restoreNew, d]) (h : Clearing d t u) :
    Swapping t₀ u := by
  have hne := ne_of_mem_restoreDataDirs hd
  refine ⟨⟨fun n hn bytes => ?_, ?_⟩, ?_, fun e he => ?_⟩
  · by_cases hnd : n = d
    · rw [hnd]
      exact h.2 bytes
    · rw [h.1 [n] (by simp [Ne.symm hnd]) (by simp)]
      exact ht.dirs n hn bytes
  · rw [h.1 _ (by simp [hne]) (by simp)]
    exact ht.maps
  · rw [h.1 _ (by simp [hne]) (by simp)]
    exact ht.committed
  · have hnew : u.content [.restoreNew, e] = t.content [.restoreNew, e] :=
      funext fun q => h.1 _ (by simp [hne]) (by simp)
    by_cases hed : e = d
    · exact .inl (hed ▸ hnew.trans (hed ▸ hcopy))
    · have hlive : u.content [e] = t.content [e] :=
        funext fun q => h.1 _ (by simp [Ne.symm hed])
          (by simp [Ne.symm (ne_of_mem_restoreDataDirs he).2.1])
      rw [DirSwapped, hlive, hnew, show u.entry [.restoreNew, e] = t.entry [.restoreNew, e]
        from congrFun hnew []]
      exact ht.ready e he

theorem Swapping.renamed (hd : d ∈ restoreDataDirs) (ht : Swapping t₀ t)
    (hcopy : t.content [.restoreNew, d] = t₀.content [.restoreNew, d])
    (hdir : t₀.entry [.restoreNew, d] = some .dir) (h : Moved [.restoreNew, d] [d] t u) :
    Swapping t₀ u ∧ DirSwapped t₀ d u ∧
      ∀ e ∈ restoreDataDirs, e ≠ d → DirSwapped t₀ e t → DirSwapped t₀ e u := by
  have hne := ne_of_mem_restoreDataDirs hd
  have hcopied : ∀ q, u.entry (d :: q) = t₀.entry (.restoreNew :: d :: q) := by
    intro q
    rw [h, if_pos ⟨q, rfl⟩]
    exact congrFun hcopy q
  have hgone : u.entry [.restoreNew, d] = none := by
    rw [h, if_neg (by simp [hne]), if_pos prefix_rfl]
  -- everything else stays where it is
  have hother : ∀ n q, n ≠ d → (n = .restoreNew → ¬[d] <+: q) →
      u.entry (n :: q) = t.entry (n :: q) := by
    intro n q hn hq
    rw [h, if_neg (by simp [Ne.symm hn]), if_neg]
    rw [cons_prefix_cons]
    rintro ⟨rfl, hdq⟩
    exact hq rfl hdq
  have hswapped : DirSwapped t₀ d u := ⟨hgone, funext hcopied⟩
  have hkeep : ∀ e ∈ restoreDataDirs, e ≠ d →
      u.content [.restoreNew, e] = t.content [.restoreNew, e] ∧ u.content [e] = t.content [e] := by
    intro e he hed
    refine ⟨funext fun q => hother _ _ (Ne.symm hne.1) fun _ => by simp [Ne.symm hed],
      funext fun q => hother e q hed fun hnew => ?_⟩
    exact absurd hnew (ne_of_mem_restoreDataDirs he).1
  refine ⟨⟨⟨fun n hn bytes => ?_, ?_⟩, ?_, fun e he => ?_⟩, hswapped, fun e he hed hsw => ?_⟩
  · by_cases hnd : n = d
    · rw [hnd, hcopied, hdir]
      simp
    · rw [hother n [] hnd (by simp)]
      exact ht.dirs n hn bytes
  · rw [hother _ _ (Ne.symm hne.2.2.2.1) (by simp)]
    exact ht.maps
  · rw [hother _ _ (Ne.symm hne.2.1) (by simp)]
    exact ht.committed
  · by_cases hed : e = d
    · exact .inr (hed ▸ hswapped)
    · obtain ⟨hnew, hlive⟩ := hkeep e he hed
      rw [DirSwapped, hlive, hnew, show u.entry [.restoreNew, e] = t.entry [.restoreNew, e]
        from congrFun hnew []]
      exact ht.ready e he
  · obtain ⟨hnew, hlive⟩ := hkeep e he hed
    exact ⟨(congrFun hnew []).trans hsw.1, hlive.trans hsw.2⟩

/-- The states in which the directories of `rest` may still have to be
swapped. -/
def SwappingRest (t₀ : FileTree ShardName) (rest : List ShardName) (t : FileTree ShardName) :
    Prop :=
  Swapping t₀ t ∧ ∀ e ∈ restoreDataDirs, e ∈ rest ∨ DirSwapped t₀ e t

theorem setAside_spec (hd : d ∈ restoreDataDirs) (ht : Swapping t₀ t)
    (hcopy : t.content [.restoreNew, d] = t₀.content [.restoreNew, d]) :
    Spec (fun s => s = t) (setAside d) (fun _ => Clearing d t) (Swapping t₀) := by
  have hne := ne_of_mem_restoreDataDirs hd
  have hdirs : ∀ bytes, t.entry [d] ≠ some (.file bytes) := ht.dirs d (by
    rw [restoreDataDirs, mem_cons, mem_singleton] at hd
    rcases hd with rfl | rfl <;> simp)
  refine Spec.inspect_bind (Spec.inspect_bind ?_)
  refine Spec.ite (fun hcond => Spec.perform ?_) fun _ => Spec.pure ?_
  · rintro s rfl
    rw [Bool.and_eq_true, Bool.not_eq_true', exists?_iff, not_exists?_iff] at hcond
    obtain ⟨u, hu, hmoved⟩ : ∃ u, rename [d] [.restoreOld] d s = .ok u ∧
        Moved [d] [.restoreOld, d] s u :=
      rename_ok hcond.1 ht.committed (by simp [hne]) hcond.2
    refine ⟨ht, u, hu, fun q hq hq' => ?_, fun bytes => ?_⟩
    · rw [hmoved, if_neg hq', if_neg hq]
    · rw [hmoved, if_neg (by simp), if_pos prefix_rfl]
      simp
  · rintro s rfl
    exact ⟨fun _ _ _ => rfl, hdirs⟩

theorem swapDir_spec (hd : d ∈ restoreDataDirs) (hdir : t₀.entry [.restoreNew, d] = some .dir)
    (rest : List ShardName) :
    Spec (SwappingRest t₀ (d :: rest)) (swapDir rd d) (fun _ => SwappingRest t₀ rest)
      (Swapping t₀) := by
  refine Spec.of_forall fun t ht => ?_
  obtain ⟨hsw, hrest⟩ := ht
  have hne := ne_of_mem_restoreDataDirs hd
  refine Spec.inspect_bind (Spec.ite (fun hex => ?_) fun hex => Spec.pure ?_)
  · have hcopy : t.content [.restoreNew, d] = t₀.content [.restoreNew, d] :=
      (hsw.ready d hd).resolve_right fun h => by simp [exists?, h.1] at hex
    refine Spec.bind (setAside_spec hd hsw hcopy) fun _ => Spec.of_forall fun u hu => ?_
    refine Spec.bind ((removeDirIfExists_spec rd (by simp) hu.2).mono (fun _ h => h)
      (fun _ _ h => h) (fun v hv => (hu.thinned hv).swapping hd hsw hcopy)) fun _ => Spec.perform ?_
    intro v hv
    have hclear : Clearing d t v := hu.thinned (thinned_of_without hv)
    have hvsw := hclear.swapping hd hsw hcopy
    have hvcopy : v.content [.restoreNew, d] = t₀.content [.restoreNew, d] :=
      (funext fun q => hclear.1 _ (by simp [hne]) (by simp)).trans hcopy
    obtain ⟨w, hw, hmoved⟩ : ∃ w, rename [.restoreNew, d] [] d v = .ok w ∧
        Moved [.restoreNew, d] [d] v w := by
      refine rename_ok ?_ v.root (by simp [Ne.symm hne.1]) ?_
      · rw [show v.entry [.restoreNew, d] = some .dir from (congrFun hvcopy []).trans hdir]
        rfl
      · rw [hv]
        exact if_pos prefix_rfl
    obtain ⟨hwsw, hdone, hkept⟩ := hvsw.renamed hd hvcopy hdir hmoved
    refine ⟨hvsw, w, hw, hwsw, fun e he => ?_⟩
    by_cases hed : e = d
    · exact .inr (hed ▸ hdone)
    refine ((hrest e he).imp_left fun h => (mem_cons.1 h).resolve_left hed).imp_right ?_
    -- a directory already swapped was not touched while `d` was cleared
    intro hdone
    have hne' := ne_of_mem_restoreDataDirs he
    refine hkept e he hed ⟨?_, ?_⟩
    · rw [hclear.1 _ (by simp [hne]) (by simp)]
      exact hdone.1
    · refine (funext fun q => hclear.1 _ (by simp [Ne.symm hed]) ?_).trans hdone.2
      simp [Ne.symm hne'.2.1]
  · rintro s rfl
    refine ⟨hsw, fun e he => ?_⟩
    rcases hrest e he with hmem | hdone
    · rcases mem_cons.1 hmem with rfl | hmem
      · refine .inr ((hsw.ready e hd).resolve_left fun hcopy => hex ?_)
        rw [exists?_iff, show s.entry [.restoreNew, e] = some .dir from
          (congrFun hcopy []).trans hdir]
        rfl
      · exact .inl hmem
    · exact .inr hdone

/-! ### The whole swap -/

theorem removeOther_spec {n : ShardName} (ht : SwappingRest t₀ [] t)
    (hn : n ∈ [indexNew, .indexOld, .wal]) :
    Spec (fun s => s = t) (removeDirIfExists rd [n])
      (fun _ s => Without [n] t s ∧ SwappingRest t₀ [] s) (Swapping t₀) := by
  have hdirs : ∀ bytes, t.entry [n] ≠ some (.file bytes) := ht.1.dirs n (by
    simp only [mem_cons, not_mem_nil, or_false] at hn ⊢
    tauto)
  have hcases : n ≠ .restoreOld ∧ n ≠ .restoreNew ∧ n ≠ .index ∧ n ≠ .documents := by
    simp only [mem_cons, not_mem_nil, or_false] at hn
    rcases hn with rfl | rfl | rfl <;> decide
  -- whatever is removed at `n`, the swap does not see it
  have hthin : ∀ u, Thinned [n] t u → SwappingRest t₀ [] u := by
    intro u hu
    have hout : ∀ m q, m ≠ n → u.entry (m :: q) = t.entry (m :: q) := by
      intro m q hm
      exact entry_of_thinned hu (by simp [Ne.symm hm])
    have hlive : ∀ e ∈ restoreDataDirs, u.content [e] = t.content [e] := by
      intro e he
      refine funext fun q => hout e q ?_
      rw [restoreDataDirs, mem_cons, mem_singleton] at he
      rcases he with rfl | rfl
      · exact Ne.symm hcases.2.2.1
      · exact Ne.symm hcases.2.2.2
    have hcopy : ∀ e, u.content [.restoreNew, e] = t.content [.restoreNew, e] := fun e =>
      funext fun q => hout _ _ (Ne.symm hcases.2.1)
    refine ⟨ht.1.of_agree (ht.1.toShaped.thinned hu) ?_ hlive fun e _ => hcopy e, fun e he => ?_⟩
    · rw [hout _ _ (Ne.symm hcases.1)]
      exact ht.1.committed
    · have hdone := (ht.2 e he).resolve_left not_mem_nil
      exact .inr ⟨(congrFun (hcopy e) []).trans hdone.1, (hlive e he).trans hdone.2⟩
  exact (removeDirIfExists_spec rd (by simp) hdirs).mono (fun _ h => h)
    (fun _ u hu => ⟨hu, hthin u (thinned_of_without hu)⟩) (fun u hu => (hthin u hu).1)

theorem syncTree_spec {C : FileTree ShardName → Prop}
    (h : (t.entry p).isSome) : Spec (fun s => s = t) (syncTree p) (fun _ s => s = t) C := by
  refine Spec.inspect_bind (Spec.ite (fun _ => Spec.pure fun _ hs => hs) fun hex => ?_)
  exact absurd h hex

/-- Everything that can be on disk before the swap has begun or while it is
under way. -/
def Beginning (t₀ t : FileTree ShardName) : Prop := t = t₀ ∨ Swapping t₀ t

theorem beginSwap_spec (h₀ : Staged t₀) :
    Spec (Beginning t₀) beginSwap (fun _ => Swapping t₀) (Beginning t₀) := by
  refine Spec.of_forall fun t ht => ?_
  refine Spec.inspect_bind (Spec.ite (fun hex => Spec.pure ?_) fun hex => ?_)
  · rintro s rfl
    refine ht.resolve_left ?_
    rintro rfl
    rw [exists?_iff, h₀.uncommitted] at hex
    cases hex
  · have htt : t = t₀ := ht.resolve_right fun h => hex (by rw [exists?_iff, h.committed]; rfl)
    refine Spec.bind (Q := fun _ s => s = t₀) ?_ fun _ => Spec.perform ?_
    · rw [htt]
      refine (Spec.forM (I := fun rest s => s = t₀ ∧ ∀ d ∈ rest, d ∈ restoreDataDirs)
        (fun d rest => Spec.of_forall fun s hs => ?_) restoreDataDirs).mono ?_
        (fun _ _ h => h.1) (fun _ h => h)
      · rw [hs.1]
        have hcopy := h₀.copy d (hs.2 d mem_cons_self)
        refine (syncTree_spec (by rw [hcopy]; rfl)).mono (fun _ h => h) ?_ (fun _ h => h)
        exact fun _ u hu => ⟨hu, fun e he => hs.2 e (mem_cons_of_mem d he)⟩
      · rintro s rfl
        exact ⟨rfl, fun _ h => h⟩
    · intro s hs
      rw [hs]
      obtain ⟨u, hu, hplaced⟩ : ∃ u, createDir [] .restoreOld t₀ = .ok u ∧
          Placed [.restoreOld] .dir t₀ u := createDir_ok h₀.uncommitted t₀.root
      have hother : ∀ n q, n ≠ .restoreOld → u.entry (n :: q) = t₀.entry (n :: q) := by
        intro n q hn
        rw [hplaced, if_neg (by simp [hn])]
      refine ⟨.inl rfl, u, hu, ⟨fun n hn bytes => ?_, ?_⟩, ?_, fun d _ => .inl ?_⟩
      · by_cases hold : n = .restoreOld
        · rw [hold, hplaced, if_pos rfl]
          simp
        · rw [hother n [] hold]
          exact h₀.dirs n hn bytes
      · rw [hother _ _ (by simp)]
        exact h₀.maps
      · rw [hplaced, if_pos rfl]
      · exact funext fun q => hother _ _ (by simp)

/-- The swap is through: the data is the copy and what was derived from the old
data is gone. -/
def SwappedIn (t₀ t : FileTree ShardName) : Prop :=
  SwappingRest t₀ [] t ∧ t.entry [.documentsMaps] = none

theorem removeMaps_spec (ht : SwappingRest t₀ [] t) :
    Spec (fun s => s = t) (removeFileIfExists [.documentsMaps]) (fun _ => SwappedIn t₀)
      (Swapping t₀) := by
  refine Spec.inspect_bind ?_
  rcases hentry : t.entry [.documentsMaps] with _ | bytes | _
  · refine Spec.pure ?_
    rintro s rfl
    exact ⟨ht, hentry⟩
  · refine Spec.perform ?_
    rintro s rfl
    -- nothing lies below a file
    have hleaf : ∀ q, [documentsMaps] <+: q → (s.entry q).isSome →
        q = [.documentsMaps] := by
      rintro _ ⟨r, rfl⟩ hsome
      by_contra hne
      have hdir := entry_of_append s [.documentsMaps] (by rintro rfl; exact hne rfl) hsome
      rw [hentry] at hdir
      cases hdir
    obtain ⟨u, hu, hentry'⟩ := remove_ok (by simp) (by rw [hentry]; rfl) hleaf
    have hother : ∀ n q, n ≠ .documentsMaps → u.entry (n :: q) = s.entry (n :: q) := by
      intro n q hn
      rw [hentry', if_neg (by simp [hn])]
    have hlive : ∀ e ∈ restoreDataDirs, u.content [e] = s.content [e] := fun e he =>
      funext fun q => hother e q (ne_of_mem_restoreDataDirs he).2.2.2.1
    have hcopy : ∀ e, u.content [.restoreNew, e] = s.content [.restoreNew, e] := fun e =>
      funext fun q => hother _ _ (by simp)
    have hshaped : Shaped u := ht.1.toShaped.of_sub fun q => by
      rw [hentry']
      by_cases hq : q = [.documentsMaps]
      · exact .inr (if_pos hq)
      · exact .inl (if_neg hq)
    refine ⟨ht.1, u, hu, ⟨ht.1.of_agree hshaped ?_ hlive fun e _ => hcopy e, fun e he => ?_⟩, ?_⟩
    · rw [hother _ _ (by simp)]
      exact ht.1.committed
    · have hdone := (ht.2 e he).resolve_left not_mem_nil
      exact .inr ⟨(congrFun (hcopy e) []).trans hdone.1, (hlive e he).trans hdone.2⟩
    · rw [hentry', if_pos rfl]
  · exact absurd hentry ht.1.maps

theorem swapInRestore_spec (h₀ : Staged t₀) :
    Spec (Beginning t₀) (swapInRestore rd) (fun _ => SwappedIn t₀) (Beginning t₀) := by
  refine Spec.bind (beginSwap_spec h₀) fun _ => ?_
  -- from here on a crash leaves the swap under way
  refine Spec.mono (C := Swapping t₀) ?_ (fun _ h => h) (fun _ _ h => h) (fun _ => .inr)
  refine Spec.bind (Q := fun _ => SwappingRest t₀ []) ?_ fun _ => Spec.of_forall fun t ht => ?_
  · refine (Spec.forM (I := fun rest s => SwappingRest t₀ rest s ∧ ∀ d ∈ rest, d ∈ restoreDataDirs)
      (fun d rest => Spec.of_forall fun s hs => ?_) restoreDataDirs).mono ?_
      (fun _ _ h => h.1) (fun _ h => h)
    · have hd := hs.2 d mem_cons_self
      refine (swapDir_spec hd (h₀.copy d hd) rest).mono ?_ ?_ (fun _ h => h)
      · rintro u rfl
        exact hs.1
      · exact fun _ u hu => ⟨hu, fun e he => hs.2 e (mem_cons_of_mem d he)⟩
    · intro s hs
      exact ⟨⟨hs, fun e he => .inl he⟩, fun _ h => h⟩
  · refine Spec.bind (removeOther_spec ht (by simp)) fun _ => Spec.of_forall fun u hu => ?_
    refine Spec.bind (removeOther_spec hu.2 (by simp)) fun _ => Spec.of_forall fun v hv => ?_
    exact removeMaps_spec hv.2

theorem finishRestoreSwap_spec (ht : SwappedIn t₀ t)
    (hwal : t.entry [.wal] = none ∨ Fresh t) :
    Spec (fun s => s = t) (finishRestoreSwap rd)
      (fun _ => Settled t₀) (Interrupted t₀) := by
  have hrestored : ∀ u, (∀ n q, n ≠ .restoreOld → n ≠ .restoreNew →
      u.entry (n :: q) = t.entry (n :: q)) → Restored t₀ u := by
    intro u hu
    refine ⟨fun e he => ?_, ?_, ?_⟩
    · have hne := ne_of_mem_restoreDataDirs he
      have hdone := (ht.1.2 e he).resolve_left not_mem_nil
      exact (funext fun q => hu e q hne.2.1 hne.1).trans hdone.2
    · rw [hu _ _ (by simp) (by simp)]
      exact ht.2
    · refine hwal.imp (fun h => ?_) fun h q => ?_
      · rw [hu _ _ (by simp) (by simp)]
        exact h
      · exact (hu _ _ (by simp) (by simp)).trans (h q)
  refine Spec.bind (Q := fun _ => Without [.restoreOld] t) ?_ fun _ => Spec.of_forall fun u hu => ?_
  · refine (removeDirIfExists_spec rd (by simp) (ht.1.1.dirs _ (by simp))).mono (fun _ h => h)
      (fun _ _ h => h) fun u hu => ?_
    have hshaped := ht.1.1.toShaped.thinned hu
    have hother : ∀ n q, n ≠ .restoreOld → u.entry (n :: q) = t.entry (n :: q) := fun n q hn =>
      entry_of_thinned hu (by simp [Ne.symm hn])
    rcases hu [.restoreOld] with hsame | ⟨-, hnone⟩
    -- `restore.old` itself goes last
    · refine .inr (ht.1.1.of_agree hshaped (hsame.trans ht.1.1.committed) (fun e he => ?_)
        fun e _ => funext fun q => hother _ _ (by simp))
      exact funext fun q => hother e q (ne_of_mem_restoreDataDirs he).2.1
    · exact .inl ⟨hshaped, hnone, .inr (hrestored u fun n q hn _ => hother n q hn)⟩
  · have hshaped := ht.1.1.toShaped.thinned (thinned_of_without hu)
    have hold : u.entry [.restoreOld] = none := by rw [hu, if_pos prefix_rfl]
    have hdone : ∀ v, Thinned [.restoreNew] u v →
        v.entry [.restoreOld] = none ∧ Restored t₀ v := by
      intro v hv
      have hother : ∀ n q, n ≠ .restoreNew → v.entry (n :: q) = u.entry (n :: q) := fun n q hn =>
        entry_of_thinned hv (by simp [Ne.symm hn])
      refine ⟨(hother _ _ (by simp)).trans hold, hrestored v fun n q hn hn' => ?_⟩
      rw [hother n q hn', hu, if_neg (by simp [Ne.symm hn])]
    refine (removeDirIfExists_spec rd (by simp) (hshaped.dirs _ (by simp))).mono (fun _ h => h)
      (fun _ v hv => ?_) fun v hv => ?_
    · obtain ⟨hold', hres⟩ := hdone v (thinned_of_without hv)
      exact ⟨hshaped.thinned (thinned_of_without hv), hold', by rw [hv, if_pos prefix_rfl],
        .inr hres⟩
    · obtain ⟨hold', hres⟩ := hdone v hv
      exact .inl ⟨hshaped.thinned hv, hold', .inr hres⟩

theorem SwappingRest.sameButWal (ht : SwappingRest t₀ [] t) (hu : SameButWal t u)
    (hwal : ∀ bytes, u.entry [.wal] ≠ some (.file bytes)) : SwappingRest t₀ [] u := by
  have hother : ∀ n q, n ≠ .wal → u.entry (n :: q) = t.entry (n :: q) := fun n q hn =>
    hu _ (by simp [Ne.symm hn])
  have hlive : ∀ e ∈ restoreDataDirs, u.content [e] = t.content [e] := fun e he =>
    funext fun q => hother e q (ne_of_mem_restoreDataDirs he).2.2.1
  have hcopy : ∀ e, u.content [.restoreNew, e] = t.content [.restoreNew, e] := fun e =>
    funext fun q => hother _ _ (by simp)
  refine ⟨ht.1.of_agree ⟨fun n hn bytes => ?_, ?_⟩ ?_ hlive fun e _ => hcopy e, fun e he => ?_⟩
  · by_cases hn' : n = .wal
    · rw [hn']
      exact hwal bytes
    · rw [hother n [] hn']
      exact ht.1.dirs n hn bytes
  · rw [hother _ _ (by simp)]
    exact ht.1.maps
  · rw [hother _ _ (by simp)]
    exact ht.1.committed
  · have hdone := (ht.2 e he).resolve_left not_mem_nil
    exact .inr ⟨(congrFun (hcopy e) []).trans hdone.1, (hlive e he).trans hdone.2⟩

theorem removeWal_spec (ht : SwappedIn t₀ t) :
    Spec (fun s => s = t) (removeDirIfExists rd [.wal])
      (fun _ s => SwappedIn t₀ s ∧ s.entry [.wal] = none) (Swapping t₀) := by
  refine (removeOther_spec ht.1 (by simp)).mono (fun _ h => h) (fun _ u hu => ?_) (fun _ h => h)
  refine ⟨⟨hu.2, ?_⟩, ?_⟩
  · rw [hu.1, if_neg (by simp)]
    exact ht.2
  · rw [hu.1, if_pos prefix_rfl]

theorem resetWalAfterRestore_spec (crc : RecordCrc) (ht : SwappedIn t₀ t) :
    Spec (fun s => s = t) (resetWalAfterRestore rd crc)
      (fun _ s => SwappedIn t₀ s ∧ Fresh s) (Swapping t₀) := by
  refine Spec.bind (removeWal_spec ht) fun _ => Spec.of_forall fun u hu => ?_
  refine (walOpen_fresh crc u hu.2).mono (fun _ h => h) (fun _ v hv => ?_) fun v hv => ?_
  · have hdir : v.entry [.wal] = some .dir := (hv.1 []).trans (if_pos rfl)
    refine ⟨⟨hu.1.1.sameButWal hv.2 (by simp [hdir]), ?_⟩, hv.1⟩
    rw [hv.2 _ (by simp)]
    exact hu.1.2
  · exact (hu.1.1.sameButWal hv.1 hv.2).1

/-! ### Commit and recovery -/

theorem Beginning.interrupted (h₀ : Staged t₀) (h : Beginning t₀ t) : Interrupted t₀ t := by
  refine h.imp ?_ id
  rintro rfl
  exact ⟨h₀.toShaped, h₀.uncommitted, .inl fun _ _ => rfl⟩

theorem commitRestore_spec (crc : RecordCrc) (h₀ : Staged t₀) :
    Spec (fun s => s = t₀) (commitRestore rd crc) (fun _ => Settled t₀) (Interrupted t₀) := by
  have hswap : Spec (Beginning t₀) (swapInRestore rd) (fun _ => SwappedIn t₀) (Beginning t₀) :=
    swapInRestore_spec h₀
  refine Spec.bind (hswap.mono (fun _ => .inl) (fun _ _ h => h) fun _ h => h.interrupted h₀)
    fun _ => Spec.of_forall fun t ht => ?_
  refine Spec.bind ((resetWalAfterRestore_spec crc ht).mono (fun _ h => h) (fun _ _ h => h)
    fun _ => .inr) fun _ => Spec.of_forall fun u hu => ?_
  exact finishRestoreSwap_spec hu.1 (.inr hu.2)

theorem recoverInterruptedRestore_spec (h₀ : Staged t₀) :
    Spec (Interrupted t₀) (recoverInterruptedRestore rd) (fun _ => Settled t₀)
      (Interrupted t₀) := by
  refine Spec.of_forall fun t ht => ?_
  refine Spec.inspect_bind (Spec.ite (fun hex => ?_) fun hex => ?_)
  · have hsw : Swapping t₀ t := ht.resolve_left fun h => by simp [exists?, h.2.1] at hex
    have hswap : Spec (fun s => s = t) (swapInRestore rd) (fun _ => SwappedIn t₀)
        (Interrupted t₀) := by
      refine (swapInRestore_spec h₀).mono ?_ (fun _ _ h => h) fun _ h => h.interrupted h₀
      rintro s rfl
      exact .inr hsw
    refine Spec.bind hswap fun _ => Spec.of_forall fun u hu => ?_
    refine Spec.bind ((removeWal_spec hu).mono (fun _ h => h) (fun _ _ h => h) fun _ => .inr)
      fun _ => Spec.of_forall fun v hv => ?_
    exact Spec.bind (finishRestoreSwap_spec hv.1 (.inl hv.2)) fun _ => Spec.pure fun _ hw => hw
  · have hnone : t.entry [.restoreOld] = none := by simpa [exists?] using hex
    obtain ⟨hshaped, -, hdata⟩ := ht.resolve_right fun h => by simp [h.committed] at hnone
    -- only `restore.new` changes
    have hthin : ∀ u, Thinned [.restoreNew] t u →
        u.entry [.restoreOld] = none ∧ (Kept t₀ u ∨ Restored t₀ u) := by
      intro u hu
      have hother : ∀ q, ¬[restoreNew] <+: q → u.entry q = t.entry q := fun q hq =>
        entry_of_thinned hu hq
      refine ⟨(hother _ (by simp)).trans hnone, hdata.imp (fun h q hq => ?_) fun h => ?_⟩
      · exact (hother q hq).trans (h q hq)
      · refine ⟨fun e he => ?_, (hother _ (by simp)).trans h.maps, h.wal.imp (fun h => ?_) ?_⟩
        · have hne := (ne_of_mem_restoreDataDirs he).1
          exact (funext fun q => hother _ (by simp [Ne.symm hne])).trans (h.data e he)
        · exact (hother _ (by simp)).trans h
        · exact fun h q => (hother _ (by simp)).trans (h q)
    refine Spec.bind (Q := fun _ => Settled t₀) ?_ fun _ => Spec.pure fun _ h => h
    refine (removeDirIfExists_spec rd (by simp) (hshaped.dirs _ (by simp))).mono (fun _ h => h)
      (fun _ u hu => ?_) fun u hu => ?_
    · obtain ⟨hold, hres⟩ := hthin u (thinned_of_without hu)
      exact ⟨hshaped.thinned (thinned_of_without hu), hold, by rw [hu, if_pos prefix_rfl], hres⟩
    · obtain ⟨hold, hres⟩ := hthin u hu
      exact .inl ⟨hshaped.thinned hu, hold, hres⟩

/-- A commit that stops after `first` operations, then recoveries that stop
after the given numbers of operations each. -/
def crashes (rd : ReadDir ShardName) (crc : RecordCrc) (first : ℕ) (later : List ℕ)
    (t : FileTree ShardName) : FileTree ShardName :=
  later.foldl (fun s left => stop (recoverInterruptedRestore rd) left s)
    (stop (commitRestore rd crc) first t)

theorem Settled.interrupted (h : Settled t₀ t) : Interrupted t₀ t :=
  .inl ⟨h.toShaped, h.noOld, h.data⟩

theorem interrupted_crashes (crc : RecordCrc) (h₀ : Staged t₀) (first : ℕ) (later : List ℕ) :
    Interrupted t₀ (crashes rd crc first later t₀) := by
  have hfirst : Interrupted t₀ (stop (commitRestore rd crc) first t₀) := by
    have hspec : Spec (fun s => s = t₀) (commitRestore rd crc) (fun _ => Settled t₀)
        (Interrupted t₀) := commitRestore_spec crc h₀
    rcases hspec.stop rfl first with h | ⟨_, h⟩
    · exact h
    · exact h.interrupted
  rw [crashes]
  generalize stop (commitRestore rd crc) first t₀ = t at hfirst
  induction later generalizing t with
  | nil => exact hfirst
  | cons left later ih =>
    refine ih _ ?_
    have hspec : Spec (Interrupted t₀) (recoverInterruptedRestore rd) (fun _ => Settled t₀)
        (Interrupted t₀) := recoverInterruptedRestore_spec h₀
    rcases hspec.stop hfirst left with h | ⟨_, h⟩
    · exact h
    · exact h.interrupted

/-- **Any number of crashes, then one recovery to its end.**  The recovery does
come to its end.  Then no restore directory is left, and either everything is as
it was before the commit, or both data directories are the restored ones, the
maps of the old data are gone, and the log is gone or, when the crash came after
the commit had already dropped `restore.old`, the empty one it had created. -/
theorem restore_settles (rd : ReadDir ShardName) (crc : RecordCrc)
    (t₀ : FileTree ShardName) (h₀ : Staged t₀) (first : ℕ) (later : List ℕ) :
    (∃ n, ∀ left, n ≤ left → ∃ b m,
      recoverInterruptedRestore rd ⟨crashes rd crc first later t₀, left⟩ = .ok b m) ∧
    ∀ left b m, recoverInterruptedRestore rd ⟨crashes rd crc first later t₀, left⟩ = .ok b m →
      m.state.entry [.restoreOld] = none ∧ m.state.entry [.restoreNew] = none ∧
      ((∀ q, ¬[restoreNew] <+: q → m.state.entry q = t₀.entry q) ∨
        (∀ d ∈ restoreDataDirs, m.state.content [d] = t₀.content [.restoreNew, d]) ∧
        m.state.entry [.documentsMaps] = none ∧ (m.state.entry [.wal] = none ∨ Fresh m.state)) := by
  have hspec : Spec (Interrupted t₀) (recoverInterruptedRestore rd) (fun _ => Settled t₀)
      (Interrupted t₀) := recoverInterruptedRestore_spec h₀
  have hstart : Interrupted t₀ (crashes rd crc first later t₀) :=
    interrupted_crashes crc h₀ first later
  refine ⟨hspec.completes hstart, fun left b m hrun => ?_⟩
  have hsettled := hspec.ok hstart hrun
  exact ⟨hsettled.noOld, hsettled.noNew, hsettled.data.imp_right fun h => ⟨h.data, h.maps, h.wal⟩⟩

def preparedRoot : FileTree ShardName :=
  .ofEntries [([.index], .dir), ([.index, .other "a"], .file [1]), ([.documents], .dir),
    ([.documents, .other "b"], .file [2]), ([.documentsMaps], .file [3]), ([.wal], .dir),
    ([.wal, .segment 1], .file [4]), ([.restoreNew], .dir), ([.restoreNew, .index], .dir),
    ([.restoreNew, .index, .other "c"], .file [5]), ([.restoreNew, .documents], .dir),
    ([.restoreNew, .documents, .other "d"], .file [6])] (by decide)

theorem preparedRoot_staged : Staged preparedRoot := by
  refine ⟨⟨?_, by decide⟩, by decide, by decide⟩
  intro n hn
  simp only [mem_cons, not_mem_nil, or_false] at hn
  rcases hn with rfl | rfl | rfl | rfl | rfl | rfl | rfl <;>
    exact fun bytes h => by cases h

/-- The commit crashes after its first renames, the next recovery too. -/
theorem preparedRoot_settles :
    Staged preparedRoot ∧ ∃ n, ∀ left, n ≤ left → ∃ b m,
      recoverInterruptedRestore (.deepestFirst ShardName)
        ⟨crashes (.deepestFirst ShardName) (fun _ _ _ => 0) 2 [3] preparedRoot, left⟩ = .ok b m :=
  ⟨preparedRoot_staged, (restore_settles _ _ preparedRoot preparedRoot_staged 2 [3]).1⟩

/-- The commit crashes when it has dropped `restore.old` and not yet
`restore.new`: the recovery ends with the restored data and with the folder of
the log still there. -/
theorem preparedRoot_wal_stays :
    Staged preparedRoot ∧ ∃ m,
      recoverInterruptedRestore (.deepestFirst ShardName)
        ⟨crashes (.deepestFirst ShardName) (fun _ _ _ => 0) 15 [] preparedRoot, 100⟩ =
          .ok false m ∧
      m.state.entry [.index, .other "c"] = some (.file [5]) ∧
      m.state.entry [.index, .other "a"] = none ∧
      m.state.entry [.wal] = some .dir :=
  ⟨preparedRoot_staged, _, rfl, by decide, by decide, by decide⟩

end ShardRoot

/-
A tree of files and directories with the operations of a file system.

`FileTree ν` maps the paths over the names `ν` to files and directories.  The
operations (`createDir`, `createFile`, `setFile`, `remove`, `rename`) are
atomic; `removeDirAll` is a program of single removals, in any order in which
directories are read (`ReadDir`), so a crash can leave it half done.
-/
import Mathlib.Data.List.Sort
import Mathlib.Data.List.Dedup
import Riets.CrashProgram

inductive Entry where
  | file (bytes : List UInt8)
  | dir
  deriving DecidableEq

abbrev FilePath (ν : Type) := List ν

inductive FileError where
  | notFound
  | alreadyExists
  | notADirectory
  | isADirectory
  | directoryNotEmpty
  | invalidInput
  | invalidData
  deriving DecidableEq

structure FileTree (ν : Type) where
  entry : FilePath ν → Option Entry
  paths : List (FilePath ν)
  root : entry [] = some .dir
  parent : ∀ p n, (entry (p ++ [n])).isSome → entry p = some .dir
  complete : ∀ p, (entry p).isSome → p ∈ paths

namespace FileTree

open List Option

variable {ν : Type} [DecidableEq ν] {t : FileTree ν} {p q a b : FilePath ν}

def exists? (p : FilePath ν) (t : FileTree ν) : Bool := (t.entry p).isSome

def content (t : FileTree ν) (p : FilePath ν) : FilePath ν → Option Entry :=
  fun q => t.entry (p ++ q)

omit [DecidableEq ν] in
theorem exists?_iff : exists? p t = true ↔ (t.entry p).isSome := Iff.rfl

omit [DecidableEq ν] in
theorem not_exists?_iff : exists? p t = false ↔ t.entry p = none := by
  rw [exists?, isSome_eq_false_iff, isNone_iff_eq_none]

omit [DecidableEq ν] in
theorem entry_of_append (t : FileTree ν) (p : FilePath ν) {q : FilePath ν}
    (hq : q ≠ []) (h : (t.entry (p ++ q)).isSome) : t.entry p = some .dir := by
  induction q using reverseRecOn with
  | nil => exact absurd rfl hq
  | append_singleton q n ih =>
    rw [← append_assoc] at h
    have hdir := t.parent _ n h
    by_cases hnil : q = []
    · rw [hnil, append_nil] at hdir
      exact hdir
    · exact ih hnil (by rw [hdir]; rfl)

omit [DecidableEq ν] in
theorem entry_none_below (h : t.entry p = none) (hpq : p <+: q) : t.entry q = none := by
  obtain ⟨r, rfl⟩ := hpq
  by_contra hne
  by_cases hr : r = []
  · rw [hr, append_nil] at hne
    exact hne h
  · have := entry_of_append t p hr (isSome_iff_ne_none.2 hne)
    rw [h] at this
    cases this

def ofEntries (l : List (FilePath ν × Entry))
    (h : ∀ e ∈ l, e.1.dropLast = [] ∨ l.lookup e.1.dropLast = some .dir) : FileTree ν where
  entry p := if p = [] then some .dir else l.lookup p
  paths := [] :: l.map Prod.fst
  root := if_pos rfl
  parent p n hsome := by
    rw [if_neg (by simp), lookup_isSome_iff] at hsome
    obtain ⟨e, he, hp⟩ := hsome
    have := h e he
    rw [← eq_of_beq hp, dropLast_concat] at this
    by_cases hnil : p = []
    · rw [if_pos hnil]
    · rw [if_neg hnil]
      exact this.resolve_left hnil
  complete p hsome := by
    by_cases hnil : p = []
    · exact hnil ▸ mem_cons_self
    · rw [if_neg hnil, lookup_isSome_iff] at hsome
      obtain ⟨e, he, hp⟩ := hsome
      exact mem_cons_of_mem _ (List.mem_map.2 ⟨e, he, (eq_of_beq hp).symm⟩)

/-! ### Operations -/

/-- Puts `e` at a path whose parent is a directory and below which nothing
lies. -/
def put (t : FileTree ν) (p : FilePath ν) (n : ν) (e : Entry) (hdir : t.entry p = some .dir)
    (hleaf : e = .dir ∨ ∀ r, (t.entry (p ++ [n] ++ r)).isSome → r = []) : FileTree ν where
  entry q := if q = p ++ [n] then some e else t.entry q
  paths := (p ++ [n]) :: t.paths
  root := by simp [t.root]
  parent q m h := by
    by_cases hq : q = p ++ [n]
    · rw [if_pos hq]
      rcases hleaf with rfl | hleaf
      · rfl
      -- something below a new file
      · rw [hq, if_neg (by simp)] at h
        exact absurd (hleaf [m] h) (by simp)
    · rw [if_neg hq]
      by_cases hqm : q ++ [m] = p ++ [n]
      · obtain ⟨rfl, -⟩ := append_inj' hqm rfl
        exact hdir
      · rw [if_neg hqm] at h
        exact t.parent q m h
  complete q h := by
    by_cases hq : q = p ++ [n]
    · exact hq ▸ mem_cons_self
    · rw [if_neg hq] at h
      exact mem_cons_of_mem _ (t.complete q h)

def createDir (p : FilePath ν) (n : ν) (t : FileTree ν) : Except FileError (FileTree ν) :=
  if (t.entry (p ++ [n])).isSome then .error .alreadyExists
  else if hdir : t.entry p = some .dir then .ok (t.put p n .dir hdir (.inl rfl))
  else .error .notFound

omit [DecidableEq ν] in
theorem leaf_of_file {n : ν} (h : t.entry (p ++ [n]) ≠ some .dir) :
    ∀ r, (t.entry (p ++ [n] ++ r)).isSome → r = [] := by
  intro r hr
  by_contra hne
  exact h (entry_of_append t _ hne hr)

/-- Writes a file: `File::create_new` with no bytes when `fresh`, otherwise
the new content of an existing or new file. -/
def writeFile (fresh : Bool) (bytes : List UInt8) (p : FilePath ν) (n : ν) (t : FileTree ν) :
    Except FileError (FileTree ν) :=
  if fresh && (t.entry (p ++ [n])).isSome then .error .alreadyExists
  else if hfile : t.entry (p ++ [n]) = some .dir then .error .isADirectory
  else if hdir : t.entry p = some .dir then
    .ok (t.put p n (.file bytes) hdir (.inr (leaf_of_file hfile)))
  else .error .notFound

def isLeaf (t : FileTree ν) (p : FilePath ν) : Bool :=
  t.paths.all fun q => !(decide (p <+: q) && decide (q ≠ p) && (t.entry q).isSome)

theorem isLeaf_iff : t.isLeaf p = true ↔ ∀ q, p <+: q → (t.entry q).isSome → q = p := by
  rw [isLeaf, List.all_eq_true]
  constructor
  · intro h q hpq hq
    by_contra hne
    have := h q (t.complete q hq)
    simp [hpq, hne, hq] at this
  · intro h q _
    by_cases hpq : p <+: q
    · by_cases hq : (t.entry q).isSome
      · simp [h q hpq hq]
      · simp [hq]
    · simp [hpq]

def erase (t : FileTree ν) (p : FilePath ν) (hp : p ≠ []) (hleaf : t.isLeaf p = true) :
    FileTree ν where
  entry q := if q = p then none else t.entry q
  paths := t.paths
  root := by rw [if_neg (Ne.symm hp)]; exact t.root
  parent q n h := by
    by_cases hqn : q ++ [n] = p
    · simp [hqn] at h
    · rw [if_neg hqn] at h
      have hdir := t.parent q n h
      by_cases hq : q = p
      · have := isLeaf_iff.1 hleaf (q ++ [n]) (hq ▸ prefix_append q [n]) h
        exact absurd this hqn
      · rw [if_neg hq]
        exact hdir
  complete q h := by
    by_cases hq : q = p
    · simp [hq] at h
    · rw [if_neg hq] at h
      exact t.complete q h

/-- `fs::remove_file` or `fs::remove_dir`: removes a file or an empty
directory. -/
def remove (p : FilePath ν) (t : FileTree ν) : Except FileError (FileTree ν) :=
  if t.entry p = none then .error .notFound
  else if hp : p = [] then .error .invalidInput
  else if hleaf : t.isLeaf p = true then .ok (t.erase p hp hleaf)
  else .error .directoryNotEmpty

/-- The path `q` read back from the new place `b` of the directory `a`. -/
def movedFrom (a b q : FilePath ν) : FilePath ν := a ++ q.drop b.length

omit [DecidableEq ν] in
theorem movedFrom_append (a b r : FilePath ν) : movedFrom a b (b ++ r) = a ++ r := by
  rw [movedFrom, drop_left]

def move (t : FileTree ν) (a parent : FilePath ν) (n : ν) (hdir : t.entry parent = some .dir)
    (hab : ¬a <+: parent ++ [n]) : FileTree ν where
  entry q :=
    if parent ++ [n] <+: q then t.entry (movedFrom a (parent ++ [n]) q)
    else if a <+: q then none else t.entry q
  paths := t.paths.map fun q => if a <+: q then parent ++ [n] ++ q.drop a.length else q
  root := by
    rw [if_neg (by simp), if_neg]
    · exact t.root
    · intro ha
      rw [prefix_nil] at ha
      exact hab (ha ▸ nil_prefix)
  parent q m h := by
    by_cases hbq : parent ++ [n] <+: q
    · obtain ⟨r, rfl⟩ := hbq
      rw [if_pos ((prefix_append _ _).trans (prefix_append _ _)),
        append_assoc, movedFrom_append, ← append_assoc] at h
      rw [if_pos (prefix_append _ _), movedFrom_append]
      exact t.parent _ m h
    · rw [if_neg hbq]
      by_cases hbqm : parent ++ [n] <+: q ++ [m]
      -- `q ++ [m]` is the new place itself, its parent stays where it is
      · obtain hEq | hlt := prefix_concat_iff.1 hbqm
        · obtain ⟨rfl, -⟩ := append_inj' hEq rfl
          rw [if_neg fun ha => hab (ha.trans (prefix_append _ _))]
          exact hdir
        · exact absurd hlt hbq
      · rw [if_neg hbqm] at h
        by_cases haqm : a <+: q ++ [m]
        · simp [haqm] at h
        · rw [if_neg haqm] at h
          rw [if_neg fun ha => haqm (ha.trans (prefix_append _ _))]
          exact t.parent q m h
  complete q h := by
    rw [List.mem_map]
    by_cases hbq : parent ++ [n] <+: q
    · obtain ⟨r, rfl⟩ := hbq
      rw [if_pos (prefix_append _ _), movedFrom_append] at h
      refine ⟨a ++ r, t.complete _ h, ?_⟩
      rw [if_pos (prefix_append _ _), drop_left]
    · rw [if_neg hbq] at h
      by_cases haq : a <+: q
      · simp [haq] at h
      · rw [if_neg haq] at h
        exact ⟨q, t.complete q h, if_neg haq⟩

/-- `fs::rename` of `a` to the name `n` in `parent`.  An empty directory or a
file at the new place is replaced by one of its kind. -/
def rename (a parent : FilePath ν) (n : ν) (t : FileTree ν) : Except FileError (FileTree ν) :=
  if t.entry a = none then .error .notFound
  else if hdir : t.entry parent = some .dir then
    if a = parent ++ [n] then .ok t
    else if hab : a <+: parent ++ [n] then .error .invalidInput
    else if t.entry (parent ++ [n]) = some .dir ∧ t.entry a ≠ some .dir then
      .error .isADirectory
    else if (t.entry (parent ++ [n])).isSome ∧ t.entry (parent ++ [n]) ≠ some .dir ∧
        t.entry a = some .dir then
      .error .notADirectory
    else if t.isLeaf (parent ++ [n]) then .ok (t.move a parent n hdir hab)
    else .error .directoryNotEmpty
  else .error .notFound

/-! ### What the operations leave behind -/

def Placed (p : FilePath ν) (e : Entry) (t t' : FileTree ν) : Prop :=
  ∀ q, t'.entry q = if q = p then some e else t.entry q

def Moved (a b : FilePath ν) (t t' : FileTree ν) : Prop :=
  ∀ q, t'.entry q =
    if b <+: q then t.entry (movedFrom a b q) else if a <+: q then none else t.entry q

def Without (p : FilePath ν) (t t' : FileTree ν) : Prop :=
  ∀ q, t'.entry q = if p <+: q then none else t.entry q

omit [DecidableEq ν] in
/-- `t'` is `t` without some of the paths at `p`: the removal of `p` stopped
anywhere. -/
def Thinned (p : FilePath ν) (t t' : FileTree ν) : Prop :=
  ∀ q, t'.entry q = t.entry q ∨ p <+: q ∧ t'.entry q = none

theorem createDir_ok {n : ν} (hnew : t.entry (p ++ [n]) = none) (hdir : t.entry p = some .dir) :
    ∃ t', createDir p n t = .ok t' ∧ Placed (p ++ [n]) .dir t t' := by
  refine ⟨t.put p n .dir hdir (.inl rfl), ?_, fun q => rfl⟩
  rw [createDir, if_neg (by simp [hnew]), dif_pos hdir]

theorem createNew_ok {n : ν} (hnew : t.entry (p ++ [n]) = none) (hdir : t.entry p = some .dir)
    (fresh : Bool) (bytes : List UInt8) :
    ∃ t', writeFile fresh bytes p n t = .ok t' ∧ Placed (p ++ [n]) (.file bytes) t t' := by
  have hfile : t.entry (p ++ [n]) ≠ some .dir := by simp [hnew]
  refine ⟨t.put p n (.file bytes) hdir (.inr (leaf_of_file hfile)), ?_, fun q => rfl⟩
  rw [writeFile, if_neg (by simp [hnew]), dif_neg hfile, dif_pos hdir]

theorem remove_ok (hp : p ≠ []) (hex : (t.entry p).isSome)
    (hleaf : ∀ q, p <+: q → (t.entry q).isSome → q = p) :
    ∃ t', remove p t = .ok t' ∧ ∀ q, t'.entry q = if q = p then none else t.entry q := by
  refine ⟨t.erase p hp (isLeaf_iff.2 hleaf), ?_, fun q => rfl⟩
  rw [remove, if_neg (isSome_iff_ne_none.1 hex), dif_neg hp, dif_pos (isLeaf_iff.2 hleaf)]

theorem rename_ok {parent : FilePath ν} {n : ν} (ha : (t.entry a).isSome)
    (hdir : t.entry parent = some .dir) (hab : ¬a <+: parent ++ [n])
    (hfree : t.entry (parent ++ [n]) = none) :
    ∃ t', rename a parent n t = .ok t' ∧ Moved a (parent ++ [n]) t t' := by
  refine ⟨t.move a parent n hdir hab, ?_, fun q => rfl⟩
  have hne : a ≠ parent ++ [n] := fun h => hab (h ▸ prefix_rfl)
  have hleaf : t.isLeaf (parent ++ [n]) = true := by
    rw [isLeaf_iff]
    intro q hq hsome
    rw [entry_none_below hfree hq] at hsome
    cases hsome
  rw [rename, if_neg (isSome_iff_ne_none.1 ha), dif_pos hdir, if_neg hne, dif_neg hab,
    if_neg (by simp [hfree]), if_neg (by simp [hfree]), if_pos hleaf]

/-! ### Removing a directory -/

/-- The order in which the paths at a directory are removed: the order of
`read_dir` is up to the system, what lies below a path goes before it. -/
structure ReadDir (ν : Type) [DecidableEq ν] where
  order : FileTree ν → FilePath ν → List (FilePath ν)
  mem_order : ∀ t p q, q ∈ order t p ↔ p <+: q ∧ (t.entry q).isSome
  leavesFirst : ∀ t p, (order t p).Pairwise fun q r => ¬q <+: r

def ReadDir.deepestFirst (ν : Type) [DecidableEq ν] : ReadDir ν where
  order t p := ((t.paths.filter fun q => p <+: q ∧ (t.entry q).isSome).dedup).insertionSort
    fun q r => r.length ≤ q.length
  mem_order t p q := by
    rw [mem_insertionSort, mem_dedup, mem_filter, decide_eq_true_iff]
    exact ⟨fun h => h.2, fun h => ⟨t.complete q h.2, h⟩⟩
  leavesFirst t p := by
    have hsorted := pairwise_insertionSort (fun q r : FilePath ν => r.length ≤ q.length)
      ((t.paths.filter fun q => p <+: q ∧ (t.entry q).isSome).dedup)
    have hnodup : Nodup (((t.paths.filter fun q => p <+: q ∧ (t.entry q).isSome).dedup)
        |>.insertionSort fun q r : FilePath ν => r.length ≤ q.length) :=
      (perm_insertionSort _ _).nodup_iff.2 (nodup_dedup _)
    refine (hsorted.and hnodup).imp ?_
    rintro q r ⟨hlen, hne⟩ hqr
    exact hne (hqr.eq_of_length_le hlen)

open CrashProgram

def removeDirAll (rd : ReadDir ν) (p : FilePath ν) : CrashProgram FileError (FileTree ν) Unit := do
  match ← inspect fun t => t.entry p with
  | some .dir => (← inspect fun t => rd.order t p).forM fun q => perform (remove q)
  | some (.file _) => throw (.error .notADirectory)
  | none => throw (.error .notFound)

/-- `remove_dir_if_exists`: a missing directory is no error. -/
def removeDirIfExists (rd : ReadDir ν) (p : FilePath ν) :
    CrashProgram FileError (FileTree ν) Unit :=
  tryCatch (removeDirAll rd p) fun
    | .error .notFound => pure ()
    | e => throw e

/-- While a directory is removed: what is left at `p` is what is still to be
removed. -/
def Removing (p : FilePath ν) (t : FileTree ν) (rest : List (FilePath ν)) (s : FileTree ν) : Prop :=
  Thinned p t s ∧ (∀ q, q ∈ rest ↔ p <+: q ∧ (s.entry q).isSome) ∧
    rest.Pairwise fun q r => ¬q <+: r

theorem removing_step (hp : p ≠ []) (rest : List (FilePath ν)) :
    Spec (Removing p t (q :: rest)) (perform (remove q)) (fun _ => Removing p t rest)
      (Thinned p t) := by
  refine Spec.perform ?_
  rintro s ⟨hthin, hmem, hpair⟩
  obtain ⟨hq, hrest⟩ := pairwise_cons.1 hpair
  obtain ⟨hpq, hsome⟩ := (hmem q).1 mem_cons_self
  have hne : q ≠ [] := by
    rintro rfl
    exact hp (prefix_nil.1 hpq)
  obtain ⟨s', hs', hentry⟩ := remove_ok (t := s) hne hsome fun r hqr hr => by
    rcases mem_cons.1 ((hmem r).2 ⟨hpq.trans hqr, hr⟩) with rfl | hmem'
    · rfl
    · exact absurd hqr (hq r hmem')
  refine ⟨hthin, s', hs', fun r => ?_, fun r => ?_, hrest⟩
  · rw [hentry]
    by_cases hr : r = q
    · exact .inr ⟨hr ▸ hpq, if_pos hr⟩
    · rw [if_neg hr]
      exact hthin r
  · rw [hentry]
    by_cases hr : r = q
    · subst hr
      rw [if_pos rfl]
      constructor
      · intro hmem'
        exact absurd prefix_rfl (hq r hmem')
      · rintro ⟨-, h⟩
        cases h
    · rw [if_neg hr, ← hmem r, mem_cons]
      exact ⟨.inr, fun h => h.resolve_left hr⟩

theorem without_of_removing {s : FileTree ν} (h : Removing p t [] s) : Without p t s := by
  intro q
  by_cases hpq : p <+: q
  · rw [if_pos hpq]
    by_contra hne
    exact not_mem_nil ((h.2.1 q).2 ⟨hpq, isSome_iff_ne_none.2 hne⟩)
  · rw [if_neg hpq]
    exact (h.1 q).resolve_right fun hr => hpq hr.1

theorem removeDirAll_spec (rd : ReadDir ν) (hp : p ≠ []) (hdir : t.entry p = some .dir) :
    Spec (fun s => s = t) (removeDirAll rd p) (fun _ => Without p t) (Thinned p t) := by
  refine Spec.inspect_bind ?_
  rw [hdir]
  refine Spec.inspect_bind ((Spec.forM (fun q rest => removing_step hp rest) _).mono ?_
    (fun _ _ h => without_of_removing h) (fun _ h => h))
  rintro s rfl
  exact ⟨fun _ => .inl rfl, rd.mem_order s p, rd.leavesFirst s p⟩

theorem removeDirIfExists_spec (rd : ReadDir ν) (hp : p ≠ [])
    (hdir : ∀ bytes, t.entry p ≠ some (.file bytes)) :
    Spec (fun s => s = t) (removeDirIfExists rd p) (fun _ => Without p t) (Thinned p t) := by
  rcases hentry : t.entry p with _ | bytes | _
  · rintro s rfl
    refine ⟨0, (), s, ⟨fun left _ => ?_, fun left hl => ?_⟩, fun q => ?_⟩
    · have hrun : removeDirAll rd p ⟨s, left⟩ = .error (.error .notFound) ⟨s, left⟩ := by
        simp only [removeDirAll, bind, EStateM.bind, inspect, hentry]
        rfl
      show EStateM.tryCatch (removeDirAll rd p) _ ⟨s, left⟩ = _
      rw [EStateM.tryCatch, hrun]
      rfl
    · omega
    · by_cases hpq : p <+: q
      · rw [if_pos hpq]
        exact entry_none_below hentry hpq
      · rw [if_neg hpq]
  · exact absurd hentry (hdir bytes)
  · exact (removeDirAll_spec rd hp hentry).tryCatch rfl

end FileTree

/-
The windows a compaction merges.

A window is a run of segments on disk next to each other.  For every start the planner takes
the longest run that keeps to a rule (similar sizes, or only a width) and of these runs the
cheapest that is wide enough.

Sizes are natural numbers here: with a sum below `2 ^ 64` no total of the source overflows, and
a product that saturates compares with a size as the product does.
-/
import Riets.LsmIndex

open List

/-! ### Runs of segments on disk -/

/-- `run` are the sizes of segments on disk from place `start` on. -/
def RunAt (sizes : List (Option ℕ)) (start : ℕ) (run : List ℕ) : Prop :=
  run.map some <+: sizes.drop start

/-- A run that keeps to the rule, and with the segment behind it would not. -/
structure MaximalRun (rule : List ℕ → Prop) (sizes : List (Option ℕ)) (start : ℕ) (run : List ℕ) :
    Prop where
  runAt : RunAt sizes start run
  keeps : rule run
  ends : ∀ size, RunAt sizes start (run ++ [size]) → ¬rule (run ++ [size])

def SimilarSizes (ratio a b : ℕ) : Prop := a ≤ b * ratio ∧ b ≤ a * ratio

structure TieredRule (ratio maxWidth : ℕ) (run : List ℕ) : Prop where
  nonempty : run ≠ []
  width : run.length ≤ max maxWidth 1
  similar : run.Pairwise (SimilarSizes ratio)

def WidthRule (width : ℕ) (run : List ℕ) : Prop := run.length ≤ width

section Runs

variable {sizes : List (Option ℕ)} {start : ℕ} {run run' : List ℕ} {rule : List ℕ → Prop}

theorem RunAt.of_begins (h : RunAt sizes start run') (hr : run <+: run') : RunAt sizes start run :=
  (hr.map some).trans h

theorem RunAt.total (h : RunAt sizes start run) (h' : RunAt sizes start run') :
    run <+: run' ∨ run' <+: run := by
  have hback : ∀ {l m : List ℕ}, l.map some <+: m.map some → l <+: m := by
    intro l m hlm
    have hmap := hlm.map (fun size : Option ℕ => size.getD 0)
    simpa only [map_map, Function.comp_def, Option.getD_some, map_id'] using hmap
  rcases prefix_or_prefix_of_prefix h h' with hp | hp
  · exact .inl (hback hp)
  · exact .inr (hback hp)

/-- A rule that holds of the beginnings of a run, from some length on. -/
def Begins (rule : List ℕ → Prop) : Prop :=
  ∀ l m, rule m → l <+: m → (∃ k, rule k ∧ k.length < l.length) → rule l

theorem MaximalRun.unique (hbegins : Begins rule) (h : MaximalRun rule sizes start run)
    (h' : MaximalRun rule sizes start run') : run = run' := by
  have hshort : ∀ {l m : List ℕ}, MaximalRun rule sizes start l → MaximalRun rule sizes start m →
      l <+: m → l = m := by
    intro l m hl hm hlm
    obtain ⟨rest, rfl⟩ := hlm
    cases rest with
    | nil => exact (append_nil l).symm
    | cons size rest =>
      have hp : l ++ [size] <+: l ++ size :: rest := ⟨rest, by simp⟩
      have hkeeps : rule (l ++ [size]) := hbegins _ _ hm.keeps hp ⟨l, hl.keeps, by simp⟩
      exact absurd hkeeps (hl.ends size (hm.runAt.of_begins hp))
  rcases h.runAt.total h'.runAt with hp | hp
  · exact hshort h h' hp
  · exact (hshort h' h hp).symm

theorem begins_tieredRule (ratio maxWidth : ℕ) : Begins (TieredRule ratio maxWidth) := by
  rintro l m hm hlm ⟨k, hk, hlt⟩
  have hne : l ≠ [] := by
    rintro rfl
    rw [length_nil] at hlt
    omega
  exact ⟨hne, hlm.length_le.trans hm.width, hm.similar.sublist hlm.sublist⟩

theorem begins_widthRule (width : ℕ) : Begins (WidthRule width) := by
  rintro l m hm hlm -
  exact hlm.length_le.trans hm

theorem runAt_append_length {pre rest : List (Option ℕ)} :
    RunAt (pre ++ rest) pre.length run ↔ run.map some <+: rest := by
  rw [RunAt, drop_left]

theorem RunAt.getElem? {j size : ℕ} (h : RunAt sizes start run) (hj : j < run.length) (hsize : sizes[start + j]? = some (some size)) :
    run[j]? = some size := by
  obtain ⟨rest, hrest⟩ := h
  rw [← getElem?_drop, ← hrest, getElem?_append_left (by rwa [length_map]),
    getElem?_map, getElem?_eq_getElem hj, Option.map_some, Option.some_inj,
    Option.some_inj] at hsize
  rw [getElem?_eq_getElem hj, hsize]

end Runs

/-- Of the maximal runs that start before `place` and are wide enough, `best` is a cheapest one. -/
structure BestRun (rule : List ℕ → Prop) (sizes : List (Option ℕ)) (minWidth place : ℕ)
    (best : Option (ℕ × ℕ × ℕ)) : Prop where
  chosen : ∀ b ∈ best, ∃ run, MaximalRun rule sizes b.1 run ∧ minWidth ≤ run.length ∧
    b.2.1 = b.1 + run.length ∧ b.2.2 = run.sum
  cheapest : ∀ start run, start < place → MaximalRun rule sizes start run → minWidth ≤ run.length →
    ∃ b ∈ best, b.2.2 ≤ run.sum

theorem better_some (b : ℕ × ℕ × ℕ) (start stop total : ℕ) :
    LsmIndex.better (some b) start stop total
      = if total < b.2.2 then some (start, stop, total) else some b := rfl

namespace BestRun

open LsmIndex Option

variable {rule : List ℕ → Prop} {sizes : List (Option ℕ)} {minWidth place : ℕ}
  {best : Option (ℕ × ℕ × ℕ)} {run : List ℕ}

theorem start : BestRun rule sizes minWidth 0 none where
  chosen b hb := by cases hb
  cheapest start run hlt := absurd hlt (Nat.not_lt_zero start)

theorem skip (h : BestRun rule sizes minWidth place best)
    (hnone : ∀ run, MaximalRun rule sizes place run → ¬minWidth ≤ run.length) :
    BestRun rule sizes minWidth (place + 1) best where
  chosen := h.chosen
  cheapest start run hlt hrun hwide := by
    rcases Nat.lt_succ_iff_lt_or_eq.mp hlt with hlt | rfl
    · exact h.cheapest start run hlt hrun hwide
    · exact absurd hwide (hnone run hrun)

theorem step (hbegins : Begins rule) (h : BestRun rule sizes minWidth place best)
    (hrun : MaximalRun rule sizes place run) :
    BestRun rule sizes minWidth (place + 1)
      (if run.length ≥ minWidth then better best place (place + run.length) run.sum else best) := by
  split_ifs with hwide
  · have hnew : ∀ b ∈ better best place (place + run.length) run.sum,
        b = (place, place + run.length, run.sum) ∨ b ∈ best := by
      intro b hb
      unfold better at hb
      split at hb
      · split_ifs at hb
        · exact .inl (mem_some_iff.mp hb).symm
        · exact .inr hb
      · exact .inl (mem_some_iff.mp hb).symm
    refine ⟨fun b hb => ?_, fun start run' hlt hrun' hwide' => ?_⟩
    · rcases hnew b hb with rfl | hb
      · exact ⟨run, hrun, hwide, rfl, rfl⟩
      · exact h.chosen b hb
    · -- the kept run costs no more than either
      rcases Nat.lt_succ_iff_lt_or_eq.mp hlt with hlt | rfl
      · obtain ⟨b, hb, hle⟩ := h.cheapest start run' hlt hrun' hwide'
        rw [mem_def] at hb
        subst hb
        rw [better_some]
        split_ifs with hcheap
        · exact ⟨_, rfl, by simp only; omega⟩
        · exact ⟨_, rfl, hle⟩
      · obtain rfl := hrun.unique hbegins hrun'
        cases best with
        | none => exact ⟨_, rfl, le_rfl⟩
        | some b =>
          rw [better_some]
          split_ifs with hcheap
          · exact ⟨_, rfl, le_rfl⟩
          · exact ⟨_, rfl, by omega⟩
  · refine h.skip fun run' hrun' => ?_
    rwa [hrun'.unique hbegins hrun]

end BestRun

/-! ### The loop over one run -/

structure Extremes (run : List ℕ) (smallest largest : ℕ) : Prop where
  smallest_mem : smallest ∈ run
  smallest_le : ∀ a ∈ run, smallest ≤ a
  largest_mem : largest ∈ run
  le_largest : ∀ a ∈ run, a ≤ largest

theorem Extremes.concat {run : List ℕ} {smallest largest : ℕ} (h : Extremes run smallest largest)
    (size : ℕ) : Extremes (run ++ [size]) (min smallest size) (max largest size) := by
  refine ⟨?_, fun a ha => ?_, ?_, fun a ha => ?_⟩
  · rcases min_choice smallest size with hm | hm <;> rw [hm]
    · exact mem_append_left _ h.smallest_mem
    · exact mem_append_right _ (mem_singleton_self size)
  · rcases mem_append.mp ha with ha | ha
    · exact (min_le_left _ _).trans (h.smallest_le a ha)
    · exact mem_singleton.mp ha ▸ min_le_right _ _
  · rcases max_choice largest size with hm | hm <;> rw [hm]
    · exact mem_append_left _ h.largest_mem
    · exact mem_append_right _ (mem_singleton_self size)
  · rcases mem_append.mp ha with ha | ha
    · exact (h.le_largest a ha).trans (le_max_left _ _)
    · exact mem_singleton.mp ha ▸ le_max_right _ _

theorem similar_concat {ratio smallest largest size : ℕ} {run : List ℕ}
    (h : Extremes run smallest largest) (hsimilar : run.Pairwise (SimilarSizes ratio)) :
    (run ++ [size]).Pairwise (SimilarSizes ratio) ↔ max largest size ≤ min smallest size * ratio := by
  rw [pairwise_append]
  constructor
  · rintro ⟨-, -, hnew⟩
    have hsize : ∀ a ∈ run, a ≤ size * ratio ∧ size ≤ a * ratio := fun a ha =>
      hnew a ha size (mem_singleton_self size)
    obtain ⟨hl, hl'⟩ := hsize largest h.largest_mem
    obtain ⟨hs, hs'⟩ := hsize smallest h.smallest_mem
    rcases Nat.eq_zero_or_pos ratio with rfl | hpos
    · -- all sizes are 0
      omega
    · have hself : ∀ n, n ≤ n * ratio := fun n => Nat.le_mul_of_pos_right n hpos
      have hall : ∀ a ∈ run, ∀ b ∈ run, SimilarSizes ratio a b := by
        have : Std.Symm (SimilarSizes ratio) := ⟨fun a b hab => ⟨hab.2, hab.1⟩⟩
        intro a ha b hb
        by_cases hab : a = b
        · subst hab
          exact ⟨hself a, hself a⟩
        · exact hsimilar.forall ha hb hab
      have hlast : largest ≤ smallest * ratio := (hall _ h.largest_mem _ h.smallest_mem).1
      have hown := hself size
      rcases min_choice smallest size with hm | hm <;> rw [hm] <;> omega
  · intro hle
    have hmin : min smallest size * ratio ≤ smallest * ratio ∧
        min smallest size * ratio ≤ size * ratio :=
      ⟨Nat.mul_le_mul_right ratio (min_le_left _ _), Nat.mul_le_mul_right ratio (min_le_right _ _)⟩
    refine ⟨hsimilar, pairwise_singleton _ _, fun a ha b hb => ?_⟩
    rw [mem_singleton.mp hb]
    have ha1 := h.le_largest a ha
    have ha2 := Nat.mul_le_mul_right ratio (h.smallest_le a ha)
    exact ⟨by omega, by omega⟩

/-- `result` is the end and the total of `run` with the segments of `rest` behind it, as far as the
rule allows. -/
def Extends (rule : List ℕ → Prop) (start : ℕ) (rest : List (Option ℕ)) (run : List ℕ)
    (result : ℕ × ℕ) : Prop :=
  ∃ more, result = (start + (run ++ more).length, (run ++ more).sum) ∧ more.map some <+: rest ∧
    rule (run ++ more) ∧ ∀ size, (more ++ [size]).map some <+: rest → ¬rule (run ++ more ++ [size])

namespace Extends

open List

variable {rule : List ℕ → Prop} {start size : ℕ} {rest : List (Option ℕ)} {run : List ℕ}
  {result : ℕ × ℕ}

theorem stop (hrule : rule run) (hends : ∀ size, [some size] <+: rest → ¬rule (run ++ [size])) :
    Extends rule start rest run (start + run.length, run.sum) := by
  refine ⟨[], ?_, nil_prefix, ?_, ?_⟩
  · rw [append_nil]
  · rwa [append_nil]
  · rw [append_nil]
    exact hends

theorem next (h : Extends rule start rest (run ++ [size]) result) :
    Extends rule start (some size :: rest) run result := by
  obtain ⟨more, heq, hp, hrule, hends⟩ := h
  rw [append_assoc, singleton_append] at heq hrule hends
  refine ⟨size :: more, heq, ?_, hrule, fun size' hp' => ?_⟩
  · rw [map_cons]
    exact cons_prefix_cons.mpr ⟨rfl, hp⟩
  · rw [cons_append, map_cons] at hp'
    exact hends size' (cons_prefix_cons.mp hp').2

theorem maximal {pre : List (Option ℕ)}
    (h : Extends rule pre.length rest run result) :
    ∃ all, MaximalRun rule (pre ++ (run.map some ++ rest)) pre.length all ∧
      result = (pre.length + all.length, all.sum) := by
  obtain ⟨more, heq, hp, hrule, hends⟩ := h
  refine ⟨run ++ more, ⟨?_, hrule, fun size hat => hends size ?_⟩, heq⟩
  · rw [runAt_append_length, map_append]
    exact (prefix_append_right_inj _).mpr hp
  · rw [runAt_append_length, append_assoc, map_append] at hat
    exact (prefix_append_right_inj _).mp hat

end Extends

theorem tieredEnd_run {ratio maxWidth start smallest largest : ℕ} {run : List ℕ}
    (hrule : TieredRule ratio maxWidth run) (hext : Extremes run smallest largest)
    (rest : List (Option ℕ)) :
    Extends (TieredRule ratio maxWidth) start rest run
      (LsmIndex.tieredEnd ratio maxWidth start rest (start + run.length) smallest largest run.sum) := by
  induction rest generalizing run smallest largest with
  | nil =>
    exact .stop hrule fun size hp => absurd (prefix_nil.mp hp) (cons_ne_nil _ _)
  | cons next rest ih =>
    cases next with
    | none =>
      refine .stop hrule fun size hp => ?_
      cases (cons_prefix_cons.mp hp).1
    | some size =>
      have hlen : run.length + 1 = (run ++ [size]).length := by
        rw [length_append, length_singleton]
      rw [LsmIndex.tieredEnd]
      simp only [Nat.add_sub_cancel_left]
      split_ifs with hwidth hfar
      · -- the next segment is too small or too large
        refine .stop hrule fun size' hp hrule' => ?_
        cases (cons_prefix_cons.mp hp).1
        have := (similar_concat hext hrule.similar).mp hrule'.similar
        omega
      · have hrule' : TieredRule ratio maxWidth (run ++ [size]) :=
          ⟨by simp, by omega, (similar_concat hext hrule.similar).mpr (by omega)⟩
        have hih := ih hrule' (hext.concat size)
        rw [← hlen, ← Nat.add_assoc, sum_append, sum_singleton] at hih
        exact hih.next
      · -- the run is as wide as it may be
        refine .stop hrule fun size' hp hrule' => ?_
        cases (cons_prefix_cons.mp hp).1
        have hwide := hrule'.width
        have hpos := length_pos_of_ne_nil hrule.nonempty
        omega

theorem cheapestEnd_run {width start : ℕ} {run : List ℕ} (hrule : WidthRule width run)
    (rest : List (Option ℕ)) :
    Extends (WidthRule width) start rest run
      (LsmIndex.cheapestEnd width start rest (start + run.length) run.sum) := by
  induction rest generalizing run with
  | nil =>
    exact .stop hrule fun size hp => absurd (prefix_nil.mp hp) (cons_ne_nil _ _)
  | cons next rest ih =>
    cases next with
    | none =>
      refine .stop hrule fun size hp => ?_
      cases (cons_prefix_cons.mp hp).1
    | some size =>
      have hlen : run.length + 1 = (run ++ [size]).length := by
        rw [length_append, length_singleton]
      rw [LsmIndex.cheapestEnd, Nat.add_sub_cancel_left]
      split_ifs with hwidth
      · have hih := @ih (run ++ [size]) (by rw [WidthRule]; omega)
        rw [← hlen, ← Nat.add_assoc, sum_append, sum_singleton] at hih
        exact hih.next
      · refine .stop hrule fun size' hp hrule' => ?_
        cases (cons_prefix_cons.mp hp).1
        rw [WidthRule] at hrule'
        omega

/-! ### The loop over the starts -/

theorem tieredFrom_best {ratio minWidth maxWidth : ℕ} (pre rest : List (Option ℕ))
    {best : Option (ℕ × ℕ × ℕ)}
    (h : BestRun (TieredRule ratio maxWidth) (pre ++ rest) minWidth pre.length best) :
    BestRun (TieredRule ratio maxWidth) (pre ++ rest) minWidth (pre ++ rest).length
      (LsmIndex.tieredFrom ratio minWidth maxWidth rest pre.length best) := by
  induction rest generalizing pre best with
  | nil => rwa [append_nil] at h ⊢
  | cons next rest ih =>
    have hsplit : pre ++ next :: rest = (pre ++ [next]) ++ rest := by
      rw [append_assoc, singleton_append]
    have hlen : pre.length + 1 = (pre ++ [next]).length := by
      rw [length_append, length_singleton]
    cases next with
    | none =>
      rw [LsmIndex.tieredFrom, hlen, hsplit]
      refine ih _ ?_
      rw [← hsplit, ← hlen]
      -- a run begins with a segment on disk
      refine h.skip fun run hrun _ => ?_
      have hat := runAt_append_length.mp hrun.runAt
      cases run with
      | nil => exact hrun.keeps.nonempty rfl
      | cons size run => cases (cons_prefix_cons.mp hat).1
    | some first =>
      have hrule : TieredRule ratio maxWidth [first] :=
        ⟨cons_ne_nil _ _, le_max_right _ _, pairwise_singleton _ _⟩
      have hext : Extremes [first] first first := by
        refine ⟨mem_singleton_self _, fun a ha => ?_, mem_singleton_self _, fun a ha => ?_⟩
        · exact (mem_singleton.mp ha).ge
        · exact (mem_singleton.mp ha).le
      obtain ⟨run, hrun, heq⟩ := (@tieredEnd_run _ _ pre.length _ _ _ hrule hext rest).maximal
      rw [length_singleton, sum_singleton] at heq
      rw [LsmIndex.tieredFrom, heq, hlen, hsplit]
      refine ih _ ?_
      rw [← hsplit, ← hlen]
      simp only [Nat.add_sub_cancel_left]
      exact h.step (begins_tieredRule ratio maxWidth) hrun

theorem cheapestFrom_best {width : ℕ} (pre rest : List (Option ℕ)) {best : Option (ℕ × ℕ × ℕ)}
    (h : BestRun (WidthRule width) (pre ++ rest) 2 pre.length best) :
    BestRun (WidthRule width) (pre ++ rest) 2 (pre ++ rest).length
      (LsmIndex.cheapestFrom width rest pre.length best) := by
  induction rest generalizing pre best with
  | nil => rwa [append_nil] at h ⊢
  | cons next rest ih =>
    have hsplit : pre ++ next :: rest = (pre ++ [next]) ++ rest := by
      rw [append_assoc, singleton_append]
    have hlen : pre.length + 1 = (pre ++ [next]).length := by
      rw [length_append, length_singleton]
    have hrule : WidthRule width [] := Nat.zero_le width
    obtain ⟨run, hrun, heq⟩ := (@cheapestEnd_run _ pre.length _ hrule (next :: rest)).maximal
    rw [length_nil, sum_nil, Nat.add_zero] at heq
    rw [LsmIndex.cheapestFrom, heq, hlen, hsplit]
    refine ih _ ?_
    rw [← hsplit, ← hlen]
    simp only [Nat.add_sub_cancel_left]
    exact h.step (begins_widthRule width) hrun

/-- `window` is a maximal run of the rule that is wide enough, and no such run is cheaper. -/
def CheapestWindow (rule : List ℕ → Prop) (minWidth : ℕ) (sizes : List (Option ℕ)) (window : ℕ × ℕ) :
    Prop :=
  ∃ run, MaximalRun rule sizes window.1 run ∧ window.2 = window.1 + run.length ∧
    minWidth ≤ run.length ∧
    ∀ start run', MaximalRun rule sizes start run' → minWidth ≤ run'.length → run.sum ≤ run'.sum

theorem BestRun.cheapestWindow {rule : List ℕ → Prop} {sizes : List (Option ℕ)} {minWidth : ℕ}
    {best : Option (ℕ × ℕ × ℕ)} (h : BestRun rule sizes minWidth sizes.length best)
    (hnone : rule [] → 0 < minWidth) {window : ℕ × ℕ}
    (hw : best.map (fun b => (b.1, b.2.1)) = some window) : CheapestWindow rule minWidth sizes window := by
  obtain ⟨b, hb, rfl⟩ := Option.map_eq_some_iff.mp hw
  obtain ⟨run, hrun, hwide, hend, htotal⟩ := h.chosen b hb
  refine ⟨run, hrun, hend, hwide, fun start run' hrun' hwide' => ?_⟩
  rcases Nat.lt_or_ge start sizes.length with hlt | hge
  · obtain ⟨b', hb', hle⟩ := h.cheapest start run' hlt hrun' hwide'
    cases (hb.symm.trans hb' : some b = some b')
    omega
  · -- nothing starts behind the list
    have hat := hrun'.runAt
    rw [RunAt, drop_eq_nil_of_le hge, prefix_nil, map_eq_nil_iff] at hat
    subst hat
    have := hnone hrun'.keeps
    rw [length_nil] at hwide'
    omega

namespace LsmIndex

open List Option

variable {ratio maxWidth : ℕ} {window : ℕ × ℕ}

theorem tieredWindow_cheapest {sizes : List (Option ℕ)} {minWidth : ℕ}
    (h : tieredWindow sizes ratio minWidth maxWidth = some window) :
    CheapestWindow (TieredRule ratio maxWidth) minWidth sizes window := by
  have hbest := @tieredFrom_best ratio minWidth maxWidth [] sizes _ BestRun.start
  exact hbest.cheapestWindow (fun hnil => absurd rfl hnil.nonempty) h

variable {width : ℕ}

theorem cheapestWindow_cheapest {sizes : List (Option ℕ)}
    (h : cheapestWindow sizes width = some window) :
    CheapestWindow (WidthRule width) 2 sizes window := by
  have hbest := @cheapestFrom_best width [] sizes _ BestRun.start
  exact hbest.cheapestWindow (fun _ => by decide) h

/-- `start … stop - 1` are places of disk segments. -/
def IsWindow (sizes : List (Option ℕ)) (window : ℕ × ℕ) : Prop :=
  window.1 < window.2 ∧ window.2 ≤ sizes.length ∧
    ∀ j, window.1 ≤ j → j < window.2 → ∃ size, sizes[j]? = some (some size)

theorem isWindow_of_cheapest {rule : List ℕ → Prop} {minWidth : ℕ} {sizes : List (Option ℕ)}
    (h : CheapestWindow rule minWidth sizes window)
    (hne : rule [] → 0 < minWidth) : IsWindow sizes window := by
  obtain ⟨run, hrun, hend, hwide, -⟩ := h
  have hpos : 0 < run.length := by
    by_contra hnil
    have := hne (length_eq_zero_iff.mp (by omega : run.length = 0) ▸ hrun.keeps)
    omega
  obtain ⟨rest, hrest⟩ := hrun.runAt
  have hlen := congrArg length hrest
  rw [length_append, length_map, length_drop] at hlen
  refine ⟨by omega, by omega, fun j hj hlt => ?_⟩
  obtain ⟨k, rfl⟩ := Nat.exists_eq_add_of_le hj
  have hk : k < run.length := by omega
  refine ⟨run[k], ?_⟩
  rw [← getElem?_drop, ← hrest, getElem?_append_left (by rwa [length_map]),
    getElem?_map, getElem?_eq_getElem hk, map_some]

theorem tieredWindow_isWindow {sizes : List (Option ℕ)} {minWidth : ℕ}
    (h : tieredWindow sizes ratio minWidth maxWidth = some window) :
    IsWindow sizes window :=
  isWindow_of_cheapest (tieredWindow_cheapest h) fun hnil => absurd rfl hnil.nonempty

theorem cheapestWindow_isWindow {sizes : List (Option ℕ)}
    (h : cheapestWindow sizes width = some window) : IsWindow sizes window :=
  isWindow_of_cheapest (cheapestWindow_cheapest h) fun _ => Nat.zero_lt_two

theorem chooseWindow_isWindow {i : LsmIndex} {config : CompactionConfig} {quiet : Bool}
    {sizes : List (Option ℕ)}
    (h : i.chooseWindow config quiet sizes = some window) : IsWindow sizes window := by
  simp only [chooseWindow] at h
  split_ifs at h with h1 h2 h3 h4 h5 h6
  · -- all segments are on disk
    rw [some_inj] at h
    subst h
    refine ⟨by simp only; omega, le_rfl, fun j _ hj => ?_⟩
    have hall := filter_eq_self.mp (filter_sublist.eq_of_length h3.2)
    have hget : sizes[j]? = some sizes[j] := getElem?_eq_getElem hj
    obtain ⟨size, hsize⟩ := isSome_iff_exists.mp (hall sizes[j] (getElem_mem hj))
    exact ⟨size, by rw [hget, hsize]⟩
  · exact tieredWindow_isWindow h
  · rcases or_eq_some_iff.mp h with h | ⟨-, h⟩
    · exact tieredWindow_isWindow h
    · exact cheapestWindow_isWindow h
  · rw [or_none] at h
    exact tieredWindow_isWindow h

theorem cheapestWindow_isSome {sizes : List (Option ℕ)} (hwidth : 2 ≤ width)
    (hdisk : ∀ size ∈ sizes, size ≠ none) (htwo : 2 ≤ sizes.length) :
    ∃ window, cheapestWindow sizes width = some window := by
  have hbest := @cheapestFrom_best width [] sizes _ BestRun.start
  rw [nil_append] at hbest
  -- the run from the first segment
  obtain ⟨run, hrun, -⟩ :=
    @Extends.maximal _ _ _ _ [] (@cheapestEnd_run _ 0 [] (Nat.zero_le width) sizes)
  have hat : run.map some <+: sizes := runAt_append_length.mp hrun.runAt
  have hwide : 2 ≤ run.length := by
    by_contra hshort
    obtain ⟨rest, hrest⟩ := hat
    cases rest with
    | nil =>
      have hlen := congrArg length hrest
      rw [append_nil, length_map] at hlen
      omega
    | cons next rest =>
      have hmem : next ∈ sizes := by
        rw [← hrest]
        exact mem_append_right _ mem_cons_self
      obtain ⟨size, rfl⟩ := ne_none_iff_exists'.mp (hdisk next hmem)
      refine hrun.ends size (runAt_append_length.mpr ⟨rest, ?_⟩) ?_
      · rw [map_append, append_assoc]
        exact hrest
      · rw [WidthRule, length_append, length_singleton]
        omega
  obtain ⟨b, hb, -⟩ := hbest.cheapest 0 run (by omega) hrun hwide
  exact ⟨(b.1, b.2.1), congrArg (Option.map fun b : ℕ × ℕ × ℕ => (b.1, b.2.1)) hb⟩

theorem width_of_cheapest {rule : List ℕ → Prop} {minWidth : ℕ} {sizes : List (Option ℕ)}
    (h : CheapestWindow rule minWidth sizes window) :
    ∃ run, rule run ∧ run.length = window.2 - window.1 ∧ minWidth ≤ window.2 - window.1 ∧
      ∀ j size, window.1 ≤ j → j < window.2 → sizes[j]? = some (some size) →
        run[j - window.1]? = some size := by
  obtain ⟨run, hrun, hend, hwide, -⟩ := h
  refine ⟨run, hrun.keeps, by omega, by omega, fun j size hj hlt hsize => ?_⟩
  refine hrun.runAt.getElem? (by omega) ?_
  rwa [Nat.add_sub_cancel' hj]

theorem planCompaction_progress {i : LsmIndex} {config : CompactionConfig} {fileSize : ℕ → ℕ}
    (hroot : i.hasRoot = true) (hpending : i.flushQueue.pending = [])
    (hdisk : ∀ handle ∈ i.segmentHandles, ∃ path, handle = .disk path)
    (htwo : 2 ≤ i.segmentHandles.length) (hmin : 2 ≤ config.minWidth)
    (hmax : config.maxSegments < i.segmentHandles.length)
    (hleast : config.compactWhenSegmentsAtLeast ≤ i.segmentHandles.length) :
    ∃ job, (i.planCompaction config false fileSize).1 = some job ∧ 2 ≤ job.selected.length := by
  have hlen : (i.segmentSizes fileSize).length = i.segmentHandles.length := length_map _
  have hsome : ∀ size ∈ i.segmentSizes fileSize, size ≠ none := by
    intro size hsize
    obtain ⟨handle, hh, rfl⟩ := mem_map.mp hsize
    obtain ⟨path, rfl⟩ := hdisk handle hh
    exact some_ne_none _
  have hall : (i.segmentSizes fileSize).filter isSome = i.segmentSizes fileSize :=
    filter_eq_self.mpr fun size hsize => isSome_iff_ne_none.mpr (hsome size hsize)
  have hwidth : 2 ≤ max config.maxSegmentsPerCompaction config.minWidth :=
    hmin.trans (le_max_right _ _)
  -- a tiered run, or the cheapest one
  obtain ⟨window, hchosen, hwide⟩ : ∃ window, i.chooseWindow config false (i.segmentSizes fileSize) =
      some window ∧ 2 ≤ window.2 - window.1 := by
    rw [chooseWindow]
    simp only [hall, hlen, hpending]
    rw [if_neg (by omega), if_neg (by simp; omega), if_neg (by simp), if_pos hleast, if_pos hmax]
    cases htiered : tieredWindow (i.segmentSizes fileSize) config.sizeRatio config.minWidth
        (max config.maxSegmentsPerCompaction config.minWidth) with
    | some window =>
      obtain ⟨run, -, -, hwide, -⟩ := width_of_cheapest (tieredWindow_cheapest htiered)
      exact ⟨window, rfl, hmin.trans hwide⟩
    | none =>
      obtain ⟨window, hwindow⟩ := cheapestWindow_isSome hwidth hsome (by omega)
      obtain ⟨run, -, -, hwide, -⟩ := width_of_cheapest (cheapestWindow_cheapest hwindow)
      exact ⟨window, hwindow, hwide⟩
  obtain ⟨hlt, hle, -⟩ := chooseWindow_isWindow hchosen
  rw [planCompaction, if_neg (by simp [hroot])]
  simp only [hchosen]
  refine ⟨_, rfl, ?_⟩
  show 2 ≤ ((i.segmentHandles.take window.2).drop window.1).length
  rw [length_drop, length_take]
  omega

/-- The windows that the searches choose, and what is planned above the bound.  A tiered run always
takes the segment it starts with, so a width of 0 counts as 1. -/
theorem compaction_windows :
    (∀ (sizes : List (Option ℕ)) (ratio minWidth maxWidth : ℕ) (window : ℕ × ℕ),
      tieredWindow sizes ratio minWidth maxWidth = some window →
        IsWindow sizes window ∧ window.2 - window.1 ≤ max maxWidth 1 ∧
        minWidth ≤ window.2 - window.1 ∧
        (∀ j k a b, window.1 ≤ j → j < k → k < window.2 → sizes[j]? = some (some a) →
          sizes[k]? = some (some b) → a ≤ b * ratio ∧ b ≤ a * ratio) ∧
        CheapestWindow (TieredRule ratio maxWidth) minWidth sizes window) ∧
    (∀ (sizes : List (Option ℕ)) (width : ℕ) (window : ℕ × ℕ),
      cheapestWindow sizes width = some window →
        IsWindow sizes window ∧ window.2 - window.1 ≤ width ∧ 2 ≤ window.2 - window.1 ∧
        CheapestWindow (WidthRule width) 2 sizes window) ∧
    ∀ (i : LsmIndex) (config : CompactionConfig) (fileSize : ℕ → ℕ), i.hasRoot = true →
      i.flushQueue.pending = [] → (∀ handle ∈ i.segmentHandles, ∃ path, handle = .disk path) →
      2 ≤ i.segmentHandles.length → 2 ≤ config.minWidth →
      config.maxSegments < i.segmentHandles.length →
      config.compactWhenSegmentsAtLeast ≤ i.segmentHandles.length →
        ∃ job, (i.planCompaction config false fileSize).1 = some job ∧ 2 ≤ job.selected.length := by
  refine ⟨?_, ?_, ?_⟩
  · intro sizes ratio minWidth maxWidth window h
    have hcheapest := tieredWindow_cheapest h
    obtain ⟨run, hrule, hlen, hwide, hsizes⟩ := width_of_cheapest hcheapest
    refine ⟨tieredWindow_isWindow h, hlen ▸ hrule.width, hwide, ?_, hcheapest⟩
    intro j k a b hj hjk hk ha hb
    obtain ⟨hlt, ha⟩ := List.getElem?_eq_some_iff.mp (hsizes j a hj (by omega) ha)
    obtain ⟨hlt', hb⟩ := List.getElem?_eq_some_iff.mp (hsizes k b (by omega) hk hb)
    have hsimilar := pairwise_iff_getElem.mp hrule.similar _ _ hlt hlt' (by omega)
    rwa [ha, hb] at hsimilar
  · intro sizes width window h
    have hcheapest := cheapestWindow_cheapest h
    obtain ⟨run, hrule, hlen, hwide, -⟩ := width_of_cheapest hcheapest
    exact ⟨cheapestWindow_isWindow h, hlen ▸ hrule, hwide, hcheapest⟩
  · intro i config fileSize hroot hpending hdisk htwo hmin hmax hleast
    exact planCompaction_progress hroot hpending hdisk htwo hmin hmax hleast

/-- The cheaper of two pairs of similar sizes, and a job for two segments above a bound of one. -/
theorem pair_chosen :
    (∃ window, tieredWindow [some 8, some 9, none, some 3, some 4] 2 2 16 = some window ∧
      IsWindow [some 8, some 9, none, some 3, some 4] window ∧ 2 ≤ window.2 - window.1) ∧
    ∃ job, (planCompaction { LsmIndex.new with hasRoot := true, segmentHandles := [.disk 0, .disk 1] }
      ⟨16, 2, 2, 2, 1⟩ false fun _ => 7).1 = some job ∧ 2 ≤ job.selected.length := by
  have hchosen : tieredWindow [some 8, some 9, none, some 3, some 4] 2 2 16 = some (3, 5) := by decide
  obtain ⟨htiered, -, hplan⟩ := compaction_windows
  obtain ⟨hwindow, -, hwide, -⟩ := htiered _ _ _ _ _ hchosen
  refine ⟨⟨_, hchosen, hwindow, hwide⟩, hplan _ _ _ rfl rfl (fun handle hh => ?_) (by decide)
    (by decide) (by decide) (by decide)⟩
  rcases mem_pair.mp hh with rfl | rfl
  · exact ⟨0, rfl⟩
  · exact ⟨1, rfl⟩

/-- With `max_segments_per_compaction` and `min_width` both 0 the widest window is 0 wide, and one
segment is chosen. -/
theorem zero_width_exceeded : ¬∀ (sizes : List (Option ℕ)) (config : CompactionConfig) (window : ℕ × ℕ),
    tieredWindow sizes config.sizeRatio config.minWidth
        (max config.maxSegmentsPerCompaction config.minWidth) = some window →
      window.2 - window.1 ≤ max config.maxSegmentsPerCompaction config.minWidth := by
  intro h
  have hone : tieredWindow [some 5, some 9] 2 0 0 = some (0, 1) := by decide
  have hwide := h [some 5, some 9] ⟨0, 0, 2, 0, 0⟩ (0, 1) hone
  exact absurd hwide (by decide)

end LsmIndex

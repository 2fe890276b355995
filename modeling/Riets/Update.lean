/-
Updates of one cell that can be replayed.

A cell is empty or holds a value.  An update either sets the cell, to a value or
to nothing, whatever it holds, or fills it if it is empty.  Running a history
of updates again over a state that already went through a part of it ends where
running it once ends.
-/
import Mathlib.Logic.Basic

/-- A cell is overwritten, or filled when it is empty. -/
inductive Update (α : Type*) where
  | set (value : Option α)
  | fill (value : α)

namespace Update

open List

variable {α : Type*}

/-- The cell after one update. -/
def apply (cell : Option α) : Update α → Option α
  | set value => value
  | fill value => some (cell.getD value)

/-- The cell after all updates. -/
def run (updates : List (Update α)) (cell : Option α) : Option α := updates.foldl apply cell

@[simp] theorem run_nil (cell : Option α) : run [] cell = cell := rfl

@[simp] theorem run_cons (u : Update α) (us : List (Update α)) (cell : Option α) :
    run (u :: us) cell = run us (u.apply cell) := rfl

theorem run_append (us vs : List (Update α)) (cell : Option α) :
    run (us ++ vs) cell = run vs (run us cell) :=
  foldl_append

theorem run_of_set {us : List (Update α)} {value : Option α} (h : set value ∈ us)
    (cell cell' : Option α) : run us cell = run us cell' := by
  induction us generalizing cell cell' with
  | nil => cases h
  | cons u us ih =>
    rcases mem_cons.mp h with rfl | h
    · rfl
    · exact ih h _ _

theorem run_of_fill {us : List (Update α)} (h : ∀ value, set value ∉ us) (cell : Option α) :
    run us cell = cell.or (run us none) := by
  induction us generalizing cell with
  | nil => exact (Option.or_none).symm
  | cons u us ih =>
    have ih := ih fun value hmem => h value (mem_cons_of_mem _ hmem)
    cases u with
    | set value => exact absurd mem_cons_self (h value)
    | fill value =>
      rw [run_cons, run_cons, ih, ih (apply none (fill value))]
      cases cell <;> rfl

theorem run_append_run (us vs : List (Update α)) (cell : Option α) :
    run (us ++ vs) (run us cell) = run (us ++ vs) cell := by
  by_cases hset : ∃ value, set value ∈ us ++ vs
  · obtain ⟨value, hmem⟩ := hset
    exact run_of_set hmem _ _
  · have hfill : ∀ value, set value ∉ us ++ vs := fun value hmem => hset ⟨value, hmem⟩
    have hus : ∀ value, set value ∉ us := fun value hmem => hfill value (mem_append_left _ hmem)
    rw [run_append, run_append, run_of_fill hus (run us cell), run_of_fill hus cell, Option.or_assoc,
      Option.or_self]

end Update

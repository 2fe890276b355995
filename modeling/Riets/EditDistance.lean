/-
Edit distance with transpositions.

`osa` counts the letters that are put in, left out, replaced or swapped with their
neighbour to make one list of another, where no part is edited twice.  A table of
these distances is filled row by row; a distance of at most `k` needs the cells
within `k` of the diagonal only, and a row without one ends the search.
-/
import Mathlib.Data.List.Basic
import Mathlib.Order.Bounds.Basic
import Mathlib.Tactic.SplitIfs
import Mathlib.Order.MinMax

open List

section EditDistance

variable {α : Type} [DecidableEq α]

def osa : List α → List α → ℕ
  | [], b => b.length
  | x :: a, [] => (x :: a).length
  | x :: a, y :: b =>
    let edited := min (min (osa a (y :: b) + 1) (osa (x :: a) b + 1)) (osa a b + if x = y then 0 else 1)
    match a, b with
    | x' :: a', y' :: b' => if x = y' ∧ x' = y then min edited (osa a' b' + 1) else edited
    | _, _ => edited
termination_by a b => a.length + b.length

def editDistance (a b : List α) : ℕ := osa a.reverse b.reverse

def withinEdits (k : ℕ) (a b : List α) : Option ℕ :=
  if editDistance a b ≤ k then some (editDistance a b) else none

@[simp] theorem osa_nil (b : List α) : osa [] b = b.length := by rw [osa]

@[simp] theorem osa_nil_right (a : List α) : osa a [] = a.length := by
  cases a with
  | nil => rw [osa]
  | cons x a => rw [osa]

/-- What a swap of the first two letters leaves to be done, at most one letter of the first lists. -/
def osaSwap (x : α) (a : List α) (y : α) (b : List α) : ℕ :=
  match a, b with
  | x' :: a', y' :: b' => if x = y' ∧ x' = y then osa a' b' + 1 else osa a b + 1
  | _, _ => osa a b + 1

theorem osa_cons_cons (x : α) (a : List α) (y : α) (b : List α) :
    osa (x :: a) (y :: b) = min (min (osa a (y :: b) + 1) (osa (x :: a) b + 1))
      (min (osa a b + if x = y then 0 else 1) (osaSwap x a y b)) := by
  have hcost : (if x = y then 0 else 1) ≤ 1 := by split_ifs <;> omega
  conv_lhs => rw [osa.eq_def]
  cases a with
  | nil =>
    simp only [osaSwap]
    omega
  | cons x' a =>
    cases b with
    | nil =>
      simp only [osaSwap]
      omega
    | cons y' b =>
      simp only [osaSwap]
      split_ifs <;> omega

theorem osa_le_up (x : α) (a : List α) (y : α) (b : List α) : osa (x :: a) (y :: b) ≤ osa a (y :: b) + 1 := by
  rw [osa_cons_cons]
  omega

theorem osa_le_left (x : α) (a : List α) (y : α) (b : List α) : osa (x :: a) (y :: b) ≤ osa (x :: a) b + 1 := by
  rw [osa_cons_cons]
  omega

theorem osa_le_diag (x : α) (a : List α) (y : α) (b : List α) : osa (x :: a) (y :: b) ≤ osa a b + 1 := by
  have hcost : (if x = y then 0 else 1) ≤ 1 := by split_ifs <;> omega
  rw [osa_cons_cons]
  omega

theorem length_le_osa (a b : List α) : a.length ≤ b.length + osa a b ∧ b.length ≤ a.length + osa a b := by
  fun_induction osa a b with
  | case1 b =>
    rw [length_nil]
    omega
  | case2 x a =>
    rw [length_nil]
    omega
  | case3 x y x' a y' b _ edited up left diag swap =>
    simp only [length_cons, edited] at up left diag swap ⊢
    omega
  | case4 x y x' a y' b _ edited up left diag =>
    simp only [length_cons, edited] at up left diag ⊢
    omega
  | case5 x a y b edited _ up left diag =>
    simp only [length_cons, edited] at up left diag ⊢
    omega

theorem osa_le_osaSwap (x : α) (a : List α) (y : α) (b : List α) : osa a b ≤ osaSwap x a y b := by
  unfold osaSwap
  split
  case h_1 x' a y' b =>
    split_ifs
    · exact osa_le_diag x' a y' b
    · omega
  case h_2 => omega

theorem osaSwap_pos (x : α) (a : List α) (y : α) (b : List α) : 0 < osaSwap x a y b := by
  unfold osaSwap
  split
  case h_1 =>
    split_ifs
    · omega
    · omega
  case h_2 => omega

theorem osa_self (a : List α) : osa a a = 0 := by
  induction a with
  | nil => rw [osa_nil, length_nil]
  | cons x a ih =>
    rw [osa_cons_cons, if_pos rfl, ih]
    omega

variable {a b : List α}

theorem eq_of_osa_eq_zero (h : osa a b = 0) : a = b := by
  induction a generalizing b with
  | nil =>
    rw [osa_nil] at h
    exact (length_eq_zero_iff.mp h).symm
  | cons x a ih =>
    cases b with
    | nil =>
      rw [osa_nil_right] at h
      cases h
    | cons y b =>
      have hswap := osaSwap_pos x a y b
      rw [osa_cons_cons] at h
      split_ifs at h with heq
      · rw [heq, ih (b := b) (by omega)]
      · omega

theorem editDistance_self (a : List α) : editDistance a a = 0 := osa_self a.reverse

theorem eq_of_editDistance_eq_zero (h : editDistance a b = 0) : a = b :=
  reverse_injective (eq_of_osa_eq_zero h)

variable {q : List α}

omit [DecidableEq α] in
theorem reverse_take_succ {i : ℕ} (h : i < q.length) :
    (q.take (i + 1)).reverse = q[i] :: (q.take i).reverse := by
  rw [take_succ_eq_append_getElem h, reverse_append]
  rfl

def Far (k : ℕ) (a q : List α) : Prop := ∀ i ≤ q.length, k < osa a (q.take i).reverse

theorem Far.cons {k : ℕ} (h : Far k a q) (x : α) : Far k (x :: a) q := by
  intro i hi
  induction i with
  | zero =>
    have hzero := h 0 hi
    rw [take_zero, reverse_nil, osa_nil_right] at hzero ⊢
    rw [length_cons]
    omega
  | succ i ih =>
    have hleft := ih (by omega)
    have hup := h (i + 1) hi
    have hdiag := h i (by omega)
    rw [reverse_take_succ (by omega)] at hup ⊢
    -- the swap is no better than the cell on the diagonal
    have hswap := osa_le_osaSwap x a q[i] (q.take i).reverse
    rw [osa_cons_cons]
    omega

theorem Far.append {k : ℕ} (h : Far k a q) (l : List α) : Far k (l ++ a) q := by
  induction l with
  | nil => exact h
  | cons x l ih => exact ih.cons x

omit [DecidableEq α] in
/-- A list is made of another with so many edits: letters are kept, replaced, put in, left
out or swapped with their neighbour. -/
inductive Edited : List α → List α → ℕ → Prop
  | nil : Edited [] [] 0
  | keep {a b : List α} {n : ℕ} (x : α) (h : Edited a b n) : Edited (x :: a) (x :: b) n
  | replace {a b : List α} {n : ℕ} (x y : α) (h : Edited a b n) : Edited (x :: a) (y :: b) (n + 1)
  | insert {a b : List α} {n : ℕ} (y : α) (h : Edited a b n) : Edited a (y :: b) (n + 1)
  | delete {a b : List α} {n : ℕ} (x : α) (h : Edited a b n) : Edited (x :: a) b (n + 1)
  | swap {a b : List α} {n : ℕ} (x y : α) (h : Edited a b n) : Edited (x :: y :: a) (y :: x :: b) (n + 1)

omit [DecidableEq α] in
theorem Edited.append {a' b' : List α} {n m : ℕ} (h : Edited a b n) (h' : Edited a' b' m) :
    Edited (a ++ a') (b ++ b') (n + m) := by
  induction h with
  | nil =>
    rw [Nat.zero_add]
    exact h'
  | keep x _ ih => exact .keep x ih
  | replace x y _ ih =>
    rw [Nat.succ_add]
    exact .replace x y ih
  | insert y _ ih =>
    rw [Nat.succ_add]
    exact .insert y ih
  | delete x _ ih =>
    rw [Nat.succ_add]
    exact .delete x ih
  | swap x y _ ih =>
    rw [Nat.succ_add]
    exact .swap x y ih

omit [DecidableEq α] in
theorem Edited.reverse {n : ℕ} (h : Edited a b n) : Edited a.reverse b.reverse n := by
  induction h with
  | nil => exact .nil
  | keep x _ ih =>
    rw [reverse_cons, reverse_cons]
    exact ih.append (.keep x .nil)
  | replace x y _ ih =>
    rw [reverse_cons, reverse_cons]
    exact ih.append (.replace x y .nil)
  | @insert a b n y _ ih =>
    rw [reverse_cons, ← append_nil a.reverse]
    exact ih.append (.insert y .nil)
  | @delete a b n x _ ih =>
    rw [reverse_cons, ← append_nil b.reverse]
    exact ih.append (.delete x .nil)
  | swap x y _ ih =>
    rw [reverse_cons, reverse_cons, reverse_cons, reverse_cons, append_assoc, append_assoc]
    exact ih.append (.swap y x .nil)

theorem osa_le_of_edited {n : ℕ} (h : Edited a b n) : osa a b ≤ n := by
  induction h with
  | nil => rw [osa_nil, length_nil]
  | keep x _ ih =>
    rw [osa_cons_cons, if_pos rfl]
    omega
  | replace x y _ ih => exact (osa_le_diag x _ y _).trans (Nat.succ_le_succ ih)
  | @insert a b n y _ ih =>
    cases a with
    | nil =>
      rw [osa_nil] at ih ⊢
      exact Nat.succ_le_succ ih
    | cons x a => exact (osa_le_left x a y b).trans (Nat.succ_le_succ ih)
  | @delete a b n x _ ih =>
    cases b with
    | nil =>
      rw [osa_nil_right] at ih ⊢
      exact Nat.succ_le_succ ih
    | cons y b => exact (osa_le_up x a y b).trans (Nat.succ_le_succ ih)
  | swap x y _ ih =>
    rw [osa_cons_cons]
    simp only [osaSwap, and_self, if_true]
    omega

theorem edited_osa (a b : List α) : Edited a b (osa a b) := by
  induction hn : a.length + b.length using Nat.strongRecOn generalizing a b with
  | ind n ih =>
    subst hn
    cases a with
    | nil =>
      rw [osa_nil]
      clear ih
      induction b with
      | nil => exact .nil
      | cons y b ihb => exact .insert y ihb
    | cons x a =>
      cases b with
      | nil =>
        rw [osa_nil_right]
        clear ih
        induction a generalizing x with
        | nil => exact .delete x .nil
        | cons x' a iha => exact .delete x (iha x')
      | cons y b =>
        have hup := Edited.delete x (ih _ (by simp) a (y :: b) rfl)
        have hleft := Edited.insert y (ih _ (by simp) (x :: a) b rfl)
        have hdiag : Edited (x :: a) (y :: b) (osa a b + if x = y then 0 else 1) := by
          split_ifs with heq
          · rw [heq]
            exact .keep y (ih _ (by simp; omega) a b rfl)
          · exact .replace x y (ih _ (by simp; omega) a b rfl)
        have hswap : Edited (x :: a) (y :: b) (osaSwap x a y b) := by
          unfold osaSwap
          split
          case h_1 x' a' y' b' =>
            split_ifs with hneighbours
            · obtain ⟨rfl, rfl⟩ := hneighbours
              exact .swap x x' (ih _ (by simp; omega) a' b' rfl)
            · exact .replace x y (ih _ (by simp; omega) (x' :: a') (y' :: b') rfl)
          case h_2 => exact .replace x y (ih _ (by simp; omega) a b rfl)
        -- the least of the four
        rw [osa_cons_cons]
        rcases min_choice (min (osa a (y :: b) + 1) (osa (x :: a) b + 1))
          (min (osa a b + if x = y then 0 else 1) (osaSwap x a y b)) with h | h
        · rw [h]
          rcases min_choice (osa a (y :: b) + 1) (osa (x :: a) b + 1) with h' | h'
          · rw [h']
            exact hup
          · rw [h']
            exact hleft
        · rw [h]
          rcases min_choice (osa a b + if x = y then 0 else 1) (osaSwap x a y b) with h' | h'
          · rw [h']
            exact hdiag
          · rw [h']
            exact hswap

theorem isLeast_editDistance (a b : List α) : IsLeast {n | Edited a b n} (editDistance a b) := by
  have hreverse := (edited_osa a.reverse b.reverse).reverse
  rw [reverse_reverse, reverse_reverse] at hreverse
  exact ⟨hreverse, fun n hn => osa_le_of_edited hn.reverse⟩

end EditDistance

/-
Programs that can crash between any two operations.

A program works on a state by single operations.  It is started with a number
of operations it may still perform; when that number is used up the process is
gone, and what it leaves behind is the state after the last operation.

`Spec P x Q C` is the crash specification of `x`: from a state with `P` it
meets no error, it needs a definite number of operations, with that many it
ends with `Q`, and with fewer it crashes in a state with `C`.
-/
import Mathlib.Order.Basic
import Mathlib.Order.Lattice.Nat
import Mathlib.Algebra.GroupWithZero.Nat

inductive Halt (ε : Type) where
  | crash
  | error (e : ε)
  deriving DecidableEq

/-- The state a program works on, with the number of operations it may still
perform before the crash. -/
structure Machine (σ : Type) where
  state : σ
  left : ℕ

abbrev CrashProgram (ε σ α : Type) := EStateM (Halt ε) (Machine σ) α

namespace CrashProgram

variable {ε σ α β : Type}

/-- One operation on the state.  With none left the process is already gone. -/
def perform (f : σ → Except ε σ) : CrashProgram ε σ Unit := fun m =>
  match m.left with
  | 0 => .error .crash m
  | n + 1 =>
    match f m.state with
    | .ok s => .ok () ⟨s, n⟩
    | .error e => .error (.error e) ⟨m.state, n⟩

/-- Reading the state.  It changes nothing, so a crash after it is a crash
after the operation before it. -/
def inspect (g : σ → α) : CrashProgram ε σ α := fun m => .ok (g m.state) m

/-- The state a program started with `left` operations leaves behind. -/
def stop (x : CrashProgram ε σ α) (left : ℕ) (s : σ) : σ :=
  match x ⟨s, left⟩ with
  | .ok _ m => m.state
  | .error _ m => m.state

/-- From `s` the program performs `n` operations and returns `a` in `s'`; a
crash before that leaves a state with `C`. -/
def Completes (C : σ → Prop) (x : CrashProgram ε σ α) (s : σ) (n : ℕ) (a : α) (s' : σ) :
    Prop :=
  (∀ left, n ≤ left → x ⟨s, left⟩ = .ok a ⟨s', left - n⟩) ∧
    ∀ left, left < n → ∃ t, x ⟨s, left⟩ = .error .crash ⟨t, 0⟩ ∧ C t

def Spec (P : σ → Prop) (x : CrashProgram ε σ α) (Q : α → σ → Prop) (C : σ → Prop) : Prop :=
  ∀ s, P s → ∃ n a s', Completes C x s n a s' ∧ Q a s'

namespace Spec

variable {P P' : σ → Prop} {Q Q' : α → σ → Prop} {C C' : σ → Prop}

variable {x : CrashProgram ε σ α}

theorem mono (h : Spec P x Q C) (hP : ∀ s, P' s → P s)
    (hQ : ∀ a s, Q a s → Q' a s) (hC : ∀ s, C s → C' s) : Spec P' x Q' C' := by
  intro s hs
  obtain ⟨n, a, s', hx, ha⟩ := h s (hP s hs)
  refine ⟨n, a, s', ⟨hx.1, fun left hl => ?_⟩, hQ a s' ha⟩
  obtain ⟨t, ht, hCt⟩ := hx.2 left hl
  exact ⟨t, ht, hC t hCt⟩

theorem of_forall (h : ∀ s, P s → Spec (fun t => t = s) x Q C) : Spec P x Q C :=
  fun s hs => h s hs s rfl

theorem pure {a : α} (h : ∀ s, P s → Q a s) : Spec P (Pure.pure a : CrashProgram ε σ α) Q C := by
  intro s hs
  refine ⟨0, a, s, ⟨fun left _ => ?_, fun left hl => ?_⟩, h s hs⟩
  · show EStateM.Result.ok a (⟨s, left⟩ : Machine σ) = _
    rw [Nat.sub_zero]
  · omega

theorem inspect {g : σ → α} (h : ∀ s, P s → Q (g s) s) :
    Spec P (inspect g : CrashProgram ε σ α) Q C := by
  intro s hs
  refine ⟨0, g s, s, ⟨fun left _ => ?_, fun left hl => ?_⟩, h s hs⟩
  · show EStateM.Result.ok (g s) (⟨s, left⟩ : Machine σ) = _
    rw [Nat.sub_zero]
  · omega

theorem perform {f : σ → Except ε σ} {R : Unit → σ → Prop}
    (h : ∀ s, P s → C s ∧ ∃ s', f s = .ok s' ∧ R () s') : Spec P (perform f) R C := by
  intro s hs
  obtain ⟨hC, s', hf, hR⟩ := h s hs
  refine ⟨1, (), s', ⟨fun left hl => ?_, fun left hl => ?_⟩, hR⟩
  · obtain ⟨m, rfl⟩ := Nat.exists_eq_add_of_le' hl
    simp [CrashProgram.perform, hf]
  · obtain rfl : left = 0 := by omega
    exact ⟨s, rfl, hC⟩

variable {f : α → CrashProgram ε σ β} {R : β → σ → Prop}

theorem bind (hx : Spec P x Q C) (hf : ∀ a, Spec (Q a) (f a) R C) : Spec P (x >>= f) R C := by
  intro s hs
  obtain ⟨n, a, s', ⟨hdone, hcrash⟩, ha⟩ := hx s hs
  obtain ⟨k, b, t, ⟨hdone', hcrash'⟩, hb⟩ := hf a s' ha
  have hrun : ∀ left, n ≤ left → (x >>= f) ⟨s, left⟩ = f a ⟨s', left - n⟩ := by
    intro left hl
    show EStateM.bind x f ⟨s, left⟩ = _
    rw [EStateM.bind, hdone left hl]
  refine ⟨n + k, b, t, ⟨fun left hl => ?_, fun left hl => ?_⟩, hb⟩
  · rw [hrun left (by omega), hdone' (left - n) (by omega), Nat.sub_sub]
  · rcases Nat.lt_or_ge left n with hlt | hge
    -- the crash falls into the first program
    · obtain ⟨u, hu, hCu⟩ := hcrash left hlt
      refine ⟨u, ?_, hCu⟩
      show EStateM.bind x f ⟨s, left⟩ = _
      rw [EStateM.bind, hu]
    · obtain ⟨u, hu, hCu⟩ := hcrash' (left - n) (by omega)
      exact ⟨u, (hrun left hge).trans hu, hCu⟩

theorem inspect_bind {g : σ → α} {s : σ}
    (h : Spec (fun u => u = s) (f (g s)) R C) :
    Spec (fun u => u = s) (CrashProgram.inspect g >>= f) R C := by
  refine bind (Q := fun a u => a = g s ∧ u = s) (inspect ?_) fun a => of_forall ?_
  · rintro u rfl
    exact ⟨rfl, rfl⟩
  · rintro u ⟨rfl, rfl⟩
    exact h

theorem perform_bind {f : σ → Except ε σ} {k : Unit → CrashProgram ε σ β}
    {s s' : σ} (hC : C s) (hf : f s = .ok s') (h : Spec (fun u => u = s') (k ()) R C) :
    Spec (fun u => u = s) (CrashProgram.perform f >>= k) R C := by
  refine bind (Q := fun _ u => u = s') (perform ?_) fun _ => h
  rintro u rfl
  exact ⟨hC, s', hf, rfl⟩

theorem tryCatch {h : Halt ε → CrashProgram ε σ α}
    (hx : Spec P x Q C) (hcrash : h .crash = throw .crash) : Spec P (tryCatch x h) Q C := by
  intro s hs
  obtain ⟨n, a, s', ⟨hdone, hcr⟩, ha⟩ := hx s hs
  refine ⟨n, a, s', ⟨fun left hl => ?_, fun left hl => ?_⟩, ha⟩
  · show EStateM.tryCatch x h ⟨s, left⟩ = _
    rw [EStateM.tryCatch, hdone left hl]
  · obtain ⟨t, ht, hC⟩ := hcr left hl
    refine ⟨t, ?_, hC⟩
    show EStateM.tryCatch x h ⟨s, left⟩ = _
    rw [EStateM.tryCatch, ht]
    show h .crash _ = _
    rw [hcrash]
    rfl

theorem forM {ι : Type} {f : ι → CrashProgram ε σ PUnit} {I : List ι → σ → Prop}
    (hf : ∀ i rest, Spec (I (i :: rest)) (f i) (fun _ => I rest) C) (xs : List ι) :
    Spec (I xs) (xs.forM f) (fun _ => I []) C := by
  induction xs with
  | nil => exact pure fun _ h => h
  | cons i rest ih => exact bind (hf i rest) fun _ => ih

theorem ite {p : Prop} [Decidable p] {y : CrashProgram ε σ α}
    (hx : p → Spec P x Q C) (hy : ¬p → Spec P y Q C) : Spec P (if p then x else y) Q C := by
  by_cases hp : p
  · rw [if_pos hp]
    exact hx hp
  · rw [if_neg hp]
    exact hy hp

theorem stop (h : Spec P x Q C) {s : σ} (hs : P s) (left : ℕ) :
    C (stop x left s) ∨ ∃ a, Q a (stop x left s) := by
  obtain ⟨n, a, s', hx, ha⟩ := h s hs
  rcases Nat.lt_or_ge left n with hlt | hge
  · obtain ⟨t, ht, hC⟩ := hx.2 left hlt
    refine .inl ?_
    rw [CrashProgram.stop, ht]
    exact hC
  · refine .inr ⟨a, ?_⟩
    rw [CrashProgram.stop, hx.1 left hge]
    exact ha

theorem ok (h : Spec P x Q C) {s : σ} (hs : P s) {left : ℕ} {a : α}
    {m : Machine σ} (hx : x ⟨s, left⟩ = .ok a m) : Q a m.state := by
  obtain ⟨n, b, s', hdone, hb⟩ := h s hs
  rcases Nat.lt_or_ge left n with hlt | hge
  · obtain ⟨t, ht, -⟩ := hdone.2 left hlt
    rw [hx] at ht
    cases ht
  · rw [hdone.1 left hge] at hx
    cases hx
    exact hb

theorem completes (h : Spec P x Q C) {s : σ} (hs : P s) :
    ∃ n, ∀ left, n ≤ left → ∃ a m, x ⟨s, left⟩ = .ok a m := by
  obtain ⟨n, a, s', hx, -⟩ := h s hs
  exact ⟨n, fun left hl => ⟨a, _, hx.1 left hl⟩⟩

end Spec

end CrashProgram

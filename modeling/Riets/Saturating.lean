/-
Counters that stop at a limit.

Adding two counters adds their values and stays at the limit when the sum is
greater.  The counters of one limit are a commutative monoid, and a number is
taken to its counter by a homomorphism: adding up counters gives the counter of
the sum, however the sum is grouped.
-/
import Mathlib.Algebra.BigOperators.Group.List.Basic
import Mathlib.Algebra.BigOperators.Group.Multiset.Basic
import Mathlib.Algebra.Group.Hom.Defs
import Mathlib.Algebra.GroupWithZero.Nat

/-- Numbers up to a limit. -/
@[ext] structure Saturating (limit : ℕ) where
  val : ℕ
  le : val ≤ limit
  deriving DecidableEq, Repr

namespace Saturating

variable {limit : ℕ}

/-- A number, cut to the limit. -/
def of (limit n : ℕ) : Saturating limit := ⟨min n limit, min_le_right n limit⟩

instance : Zero (Saturating limit) := ⟨⟨0, Nat.zero_le limit⟩⟩

/-- Sums stop at the limit. -/
instance : Add (Saturating limit) := ⟨fun a b => of limit (a.val + b.val)⟩

@[simp] theorem val_zero : (0 : Saturating limit).val = 0 := rfl

@[simp] theorem val_add (a b : Saturating limit) : (a + b).val = min (a.val + b.val) limit := rfl

@[simp] theorem val_of (n : ℕ) : (of limit n).val = min n limit := rfl

instance : AddCommMonoid (Saturating limit) where
  add_assoc := by
    intro a b c
    ext
    simp only [val_add]
    omega
  zero_add := by
    intro a
    have hle := a.le
    ext
    simp only [val_add, val_zero]
    omega
  add_zero := by
    intro a
    have hle := a.le
    ext
    simp only [val_add, val_zero]
    omega
  add_comm := by
    intro a b
    ext
    simp only [val_add]
    omega
  nsmul := nsmulRec

/-- Cutting before or after a sum is the same. -/
def ofHom (limit : ℕ) : ℕ →+ Saturating limit where
  toFun := of limit
  map_zero' := by
    ext
    simp
  map_add' := by
    intro m n
    ext
    simp only [val_add, val_of]
    omega

theorem of_add (m n : ℕ) : of limit (m + n) = of limit m + of limit n := (ofHom limit).map_add m n

end Saturating

/-
Chains of parents.

Entries are loaded by key, and what an entry builds on is nothing, the entry of
another key, or not known.  `Rooted` is the chain from an entry that builds on
nothing to the entry of a key, oldest first; `ParentOf` is one step of it.  Entries
may be removed: chains then stay whole exactly when no entry is kept whose parent
goes (`keeps_chains_iff`).
-/
import Mathlib.Logic.Relation

namespace ParentChain

open Option

/-- What a value says about its parent. -/
inductive Link (K : Type*) where
  | root
  | child (parent : K)
  | broken

variable {K A : Type*} {link : A → Link K} {load load' : K → Option A} {k p : K} {a : A}
  {as : List A}

/-- The values from a root down to a key, each the child of the one before. -/
inductive Rooted (link : A → Link K) (load : K → Option A) : K → List A → Prop
  | root {k : K} {a : A} (hload : load k = some a) (hlink : link a = .root) :
      Rooted link load k [a]
  | child {k p : K} {a : A} {as : List A} (h : Rooted link load p as) (hload : load k = some a)
      (hlink : link a = .child p) : Rooted link load k (as ++ [a])

/-- The value under `k` names `p` as its parent. -/
def ParentOf (link : A → Link K) (load : K → Option A) (p k : K) : Prop :=
  ∃ a, load k = some a ∧ link a = .child p

namespace Rooted

theorem loaded (h : Rooted link load k as) : ∃ a, load k = some a := by
  cases h with
  | root hload hlink => exact ⟨_, hload⟩
  | child h hload hlink => exact ⟨_, hload⟩

theorem parent (h : Rooted link load k as) (hparent : ParentOf link load p k) :
    ∃ init a, as = init ++ [a] ∧ load k = some a ∧ Rooted link load p init := by
  obtain ⟨a, ha, hchild⟩ := hparent
  cases h with
  | root hload hlink =>
    rw [ha, some_inj] at hload
    rw [← hload, hchild] at hlink
    cases hlink
  | child h hload hlink =>
    rw [ha, some_inj] at hload
    subst hload
    rw [hchild, Link.child.injEq] at hlink
    subst hlink
    exact ⟨_, a, rfl, ha, h⟩

theorem ancestor (h : Rooted link load k as)
    (hpath : Relation.ReflTransGen (ParentOf link load) p k) : ∃ bs, Rooted link load p bs := by
  induction hpath generalizing as with
  | refl => exact ⟨as, h⟩
  | tail hpath hlast ih =>
    obtain ⟨init, -, -, -, hinit⟩ := h.parent hlast
    exact ih hinit

end Rooted

/-- Everything that the first loader loads, the second does. -/
def Part (load' load : K → Option A) : Prop := ∀ k a, load' k = some a → load k = some a

theorem Part.eq_of_ne_none (hpart : Part load' load) (hkept : load' k ≠ none)
    (hload : load k = some a) : load' k = some a := by
  obtain ⟨b, hb⟩ := ne_none_iff_exists'.1 hkept
  rw [hb, ← hpart k b hb, hload]

/-- What is still there has its whole chain. -/
def KeepsChains (link : A → Link K) (load load' : K → Option A) : Prop :=
  ∀ k as, Rooted link load k as → load' k ≠ none → Rooted link load' k as

theorem keeps_chains_iff (hpart : Part load' load) :
    KeepsChains link load load' ↔
      ∀ k p as, Rooted link load p as → ParentOf link load p k → load' k ≠ none →
        load' p ≠ none := by
  constructor
  · intro h k p as hchain hparent hkept
    have hparent' := hparent
    obtain ⟨a, ha, hchild⟩ := hparent'
    have hpar : ParentOf link load' p k := ⟨a, hpart.eq_of_ne_none hkept ha, hchild⟩
    obtain ⟨_, _, -, -, hinit⟩ := (h k _ (hchain.child ha hchild) hkept).parent hpar
    obtain ⟨b, hb⟩ := hinit.loaded
    rw [hb]
    exact some_ne_none b
  · intro h k as hchain hkept
    induction hchain with
    | root hload hlink => exact .root (hpart.eq_of_ne_none hkept hload) hlink
    | @child k p a as hchain hload hlink ih =>
      -- the parent stays, so its chain does
      exact .child (ih (h k p as hchain ⟨a, hload, hlink⟩ hkept))
        (hpart.eq_of_ne_none hkept hload) hlink

end ParentChain

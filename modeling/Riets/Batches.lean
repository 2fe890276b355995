/-
Tables that are built in batches.

A table is built from items one after the other, or from the tables of some batches that
are merged in their order.  Both give the same answers to a question when the table of
`l ++ l'` answers with the joined answers of the tables of `l` and of `l'`, and a merge joins
the answers of the tables it merges.
-/
import Mathlib.Data.List.Induction

namespace Batches

open List

variable {A S M : Type*} {op : M → M → M} {e : M} {answer : S → M}

/-- The step adds the same to every answer. -/
def Contributes (op : M → M → M) (answer : S → M) (f : S → S) : Prop := ∃ c, ∀ s, answer (f s) = op (answer s) c

theorem Contributes.of_eq [Std.LawfulIdentity op e] {f : S → S} (h : ∀ s, answer (f s) = answer s) :
    Contributes op answer f := by
  refine ⟨e, fun s => ?_⟩
  have hright : op (answer s) e = answer s := Std.LawfulRightIdentity.right_id _
  rw [h, hright]

theorem Contributes.comp [Std.Associative op] {f g : S → S} (hf : Contributes op answer f)
    (hg : Contributes op answer g) : Contributes op answer fun s => g (f s) := by
  obtain ⟨c, hc⟩ := hf
  obtain ⟨c', hc'⟩ := hg
  refine ⟨op c c', fun s => ?_⟩
  rw [hc', hc]
  exact Std.Associative.assoc _ _ _

theorem Contributes.foldl [Std.Associative op] [Std.LawfulIdentity op e] {f : S → A → S}
    (h : ∀ a, Contributes op answer fun s => f s a) (l : List A) : Contributes op answer fun s => l.foldl f s := by
  induction l with
  | nil => exact Contributes.of_eq fun _ => rfl
  | cons a l ih => exact (h a).comp ih

/-! ### Batches -/

/-- The answer for two batches after each other is made of the answers for each. -/
def Joins (op : M → M → M) (answer : S → M) (build : List A → S) (items : List A) : Prop :=
  ∀ l l', l ++ l' <+: items → answer (build (l ++ l')) = op (answer (build l)) (answer (build l'))

section Build

variable {f : S → A → S} {start : S}

theorem Joins.of_contributes [Std.Associative op] [Std.LawfulIdentity op e] (hstart : answer start = e)
    (h : ∀ a, Contributes op answer fun s => f s a) (items : List A) :
    Joins op answer (fun l => l.foldl f start) items := by
  intro l l' _
  obtain ⟨c, hc⟩ := Contributes.foldl h l'
  show answer ((l ++ l').foldl f start) = op (answer (l.foldl f start)) (answer (l'.foldl f start))
  have hleft : op e c = c := Std.LawfulLeftIdentity.left_id c
  rw [foldl_append, hc, hc start, hstart, hleft]

theorem foldl_answer_eq (l : List A) (h : ∀ a ∈ l, ∀ s, answer (f s a) = answer s) (s : S) :
    answer (l.foldl f s) = answer s := by
  induction l generalizing s with
  | nil => rfl
  | cons a l ih =>
    rw [foldl_cons, ih (fun b hb => h b (mem_cons_of_mem a hb)), h a mem_cons_self]

theorem foldl_answer_congr (h : ∀ a s s', answer s = answer s' → answer (f s a) = answer (f s' a)) (l : List A)
    {s s' : S} (hs : answer s = answer s') : answer (l.foldl f s) = answer (l.foldl f s') := by
  induction l generalizing s s' with
  | nil => exact hs
  | cons a l ih => exact ih (h a s s' hs)

theorem Joins.of_apart [Std.LawfulIdentity op e] {touches : A → Prop} {items : List A}
    (hstart : answer start = e) (happly : ∀ a s s', answer s = answer s' → answer (f s a) = answer (f s' a))
    (hkeep : ∀ a s, ¬touches a → answer (f s a) = answer s)
    (hapart : items.Pairwise fun a b => touches a → ¬touches b) :
    Joins op answer (fun l => l.foldl f start) items := by
  intro l l' hle
  show answer ((l ++ l').foldl f start) = op (answer (l.foldl f start)) (answer (l'.foldl f start))
  rw [foldl_append]
  have hcross := (pairwise_append.mp (hapart.sublist hle.sublist)).2.2
  by_cases htouch : ∃ a ∈ l, touches a
  · -- the items behind it leave the answer alone
    obtain ⟨a, ha, htouches⟩ := htouch
    have hrest : ∀ b ∈ l', ∀ s, answer (f s b) = answer s :=
      fun b hb s => hkeep b s (hcross a ha b hb htouches)
    rw [foldl_answer_eq l' hrest, foldl_answer_eq l' hrest, hstart]
    exact (Std.LawfulRightIdentity.right_id _).symm
  · -- nothing is there when they begin
    have hbefore : answer (l.foldl f start) = answer start :=
      foldl_answer_eq l (fun a ha s => hkeep a s fun ht => htouch ⟨a, ha, ht⟩) start
    rw [foldl_answer_congr happly l' hbefore, hbefore, hstart]
    exact (Std.LawfulLeftIdentity.left_id _).symm

end Build

/-- The batches are built one by one and merged into the first. -/
def mergeBatches (merge : S → S → S) (build : List A → S) (first : List A) (batches : List (List A)) : S :=
  batches.foldl (fun s batch => merge s (build batch)) (build first)

theorem mergeBatches_induction {merge : S → S → S} {build : List A → S} {P : S → List A → Prop}
    (hbuild : ∀ l, P (build l) l) (hmerge : ∀ s l l', P s l → P (merge s (build l')) (l ++ l'))
    (first : List A) (batches : List (List A)) :
    P (mergeBatches merge build first batches) (first ++ batches.flatten) := by
  induction batches using reverseRecOn with
  | nil =>
    rw [flatten_nil, append_nil]
    exact hbuild first
  | append_singleton batches batch ih =>
    rw [mergeBatches, foldl_append, flatten_append, flatten_singleton, ← append_assoc]
    exact hmerge _ _ batch ih

theorem Joins.merged {merge : S → S → S} {build : List A → S} {items : List A} (h : Joins op answer build items)
    (hmerge : ∀ s s', answer (merge s s') = op (answer s) (answer s')) {first : List A}
    {batches : List (List A)} (hitems : first ++ batches.flatten = items) :
    answer (mergeBatches merge build first batches) = answer (build items) := by
  have hrun : first ++ batches.flatten <+: items →
      answer (mergeBatches merge build first batches) = answer (build (first ++ batches.flatten)) := by
    refine mergeBatches_induction (P := fun s l => l <+: items → answer s = answer (build l)) ?_ ?_ first batches
    · exact fun _ _ => rfl
    · intro s l l' ih hle
      rw [hmerge, h l l' hle, ih ((prefix_append l l').trans hle)]
  subst hitems
  exact hrun prefix_rfl

end Batches

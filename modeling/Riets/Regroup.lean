/-
Regrouping the parts of a collection.

A collection is kept as a list of parts.  From time to time some parts are
gathered into one new part and the rest stays, in any order.  `Regroup` is the
closure of such moves, for a given notion of which part gathers which list.
These facts survive every sequence of moves.
-/
import Mathlib.Data.List.Perm.Basic

/-- One list becomes another when parts of it are gathered into single elements, in any order. -/
inductive Regroup {α : Type*} (Gathers : α → List α → Prop) : List α → List α → Prop
  | perm {l l' : List α} : l.Perm l' → Regroup Gathers l l'
  | gather {a : α} {group : List α} (rest : List α) :
      Gathers a group → Regroup Gathers (group ++ rest) (a :: rest)
  | trans {l l' l'' : List α} : Regroup Gathers l l' → Regroup Gathers l' l'' → Regroup Gathers l l''

/-- One element of the list has it, the others do not. -/
def CarriedOnce {α : Type*} (Full Absent : α → Prop) (l : List α) : Prop :=
  ∃ a rest, l.Perm (a :: rest) ∧ Full a ∧ ∀ b ∈ rest, Absent b

namespace Regroup

open List

variable {α : Type*} {Gathers : α → List α → Prop} {l l' : List α}

theorem refl (l : List α) : Regroup Gathers l l := perm (Perm.refl l)

theorem mono {Gathers' : α → List α → Prop} (hle : ∀ a group, Gathers a group → Gathers' a group)
    (h : Regroup Gathers l l') : Regroup Gathers' l l' := by
  induction h with
  | perm h => exact perm h
  | gather rest h => exact gather rest (hle _ _ h)
  | trans _ _ ih ih' => exact trans ih ih'

theorem append_right (h : Regroup Gathers l l') (rest : List α) :
    Regroup Gathers (l ++ rest) (l' ++ rest) := by
  induction h with
  | perm h => exact perm (h.append_right rest)
  | gather rest' h => exact append_assoc _ _ _ ▸ gather (rest' ++ rest) h
  | trans _ _ ih ih' => exact trans ih ih'

theorem all_of_all {P : α → Prop} (hP : ∀ a group, Gathers a group → (∀ b ∈ group, P b) → P a)
    (h : Regroup Gathers l l') : (∀ a ∈ l, P a) → ∀ a ∈ l', P a := by
  induction h with
  | perm h => exact fun hl a ha => hl a (h.mem_iff.mpr ha)
  | gather rest h =>
    intro hl a ha
    rcases mem_cons.mp ha with rfl | ha
    · exact hP _ _ h fun b hb => hl b (by simp [hb])
    · exact hl a (by simp [ha])
  | trans _ _ ih ih' => exact fun hl => ih' (ih hl)

theorem none_of_none {P : α → Prop}
    (hP : ∀ a group, Gathers a group → (∀ b ∈ group, ¬ P b) → ¬ P a)
    (h : Regroup Gathers l l') : (∀ a ∈ l, ¬ P a) → ∀ a ∈ l', ¬ P a :=
  all_of_all hP h

theorem exists_of_exists {P : α → Prop}
    (hP : ∀ a group, Gathers a group → (∃ b ∈ group, P b) → P a)
    (h : Regroup Gathers l l') : (∃ a ∈ l, P a) → ∃ a ∈ l', P a := by
  induction h with
  | perm h => exact fun ⟨a, ha, hPa⟩ => ⟨a, h.mem_iff.mp ha, hPa⟩
  | gather rest h =>
    rintro ⟨b, hb, hPb⟩
    rcases mem_append.mp hb with hb | hb
    · exact ⟨_, by simp, hP _ _ h ⟨b, hb, hPb⟩⟩
    · exact ⟨b, by simp [hb], hPb⟩
  | trans _ _ ih ih' => exact fun hl => ih' (ih hl)

theorem exists_of_exists_of_all {P Q : α → Prop}
    (hQ : ∀ a group, Gathers a group → (∀ b ∈ group, Q b) → Q a)
    (hP : ∀ a group, Gathers a group → (∀ b ∈ group, Q b) → (∃ b ∈ group, P b) → P a)
    (h : Regroup Gathers l l') : (∀ a ∈ l, Q a) → (∃ a ∈ l, P a) → ∃ a ∈ l', P a := by
  induction h with
  | perm h => exact fun _ ⟨a, ha, hPa⟩ => ⟨a, h.mem_iff.mp ha, hPa⟩
  | gather rest h =>
    rintro hall ⟨b, hb, hPb⟩
    rcases mem_append.mp hb with hb | hb
    · exact ⟨_, by simp, hP _ _ h (fun c hc => hall c (by simp [hc])) ⟨b, hb, hPb⟩⟩
    · exact ⟨b, by simp [hb], hPb⟩
  | trans h _ ih ih' => exact fun hall hl => ih' (h.all_of_all hQ hall) (ih hall hl)

theorem unique {Full Absent : α → Prop}
    (hfull : ∀ a group b rest, Gathers a group → group.Perm (b :: rest) → Full b →
      (∀ c ∈ rest, Absent c) → Full a)
    (habsent : ∀ a group, Gathers a group → (∀ b ∈ group, Absent b) → Absent a)
    (h : Regroup Gathers l l') : CarriedOnce Full Absent l → CarriedOnce Full Absent l' := by
  induction h with
  | perm h => exact fun ⟨a, rest, hp, hf, hr⟩ => ⟨a, rest, h.symm.trans hp, hf, hr⟩
  | trans _ _ ih ih' => exact fun hl => ih' (ih hl)
  | @gather a group rest h =>
    rintro ⟨b, others, hp, hf, hr⟩
    have hb : b ∈ group ++ rest := hp.mem_iff.mpr (by simp)
    rcases mem_append.mp hb with hb | hb
    · -- the full part is gathered; everything else is absent
      obtain ⟨s, t, hsplit⟩ := append_of_mem hb
      have hgroup : group.Perm (b :: (s ++ t)) := hsplit ▸ perm_middle
      have hothers : ((s ++ t) ++ rest).Perm others :=
        Perm.cons_inv ((hgroup.append_right rest).symm.trans hp)
      refine ⟨a, rest, Perm.refl _, hfull a group b (s ++ t) h hgroup hf fun c hc => ?_,
        fun c hc => ?_⟩
      · exact hr c (hothers.mem_iff.mp (mem_append.mpr (.inl hc)))
      · exact hr c (hothers.mem_iff.mp (mem_append.mpr (.inr hc)))
    · -- the full part stays; the gathered parts are absent
      obtain ⟨s, t, hsplit⟩ := append_of_mem hb
      have hrest : rest.Perm (b :: (s ++ t)) := hsplit ▸ perm_middle
      have hothers : (group ++ (s ++ t)).Perm others := by
        refine Perm.cons_inv (a := b) (Perm.trans ?_ hp)
        exact perm_middle.symm.trans (hrest.append_left group).symm
      refine ⟨b, a :: (s ++ t), ?_, hf, fun c hc => ?_⟩
      · exact (hrest.cons a).trans (Perm.swap b a _)
      · rcases mem_cons.mp hc with rfl | hc
        · exact habsent c group h fun e he =>
            hr e (hothers.mem_iff.mp (mem_append.mpr (.inl he)))
        · exact hr c (hothers.mem_iff.mp (mem_append.mpr (.inr hc)))

end Regroup

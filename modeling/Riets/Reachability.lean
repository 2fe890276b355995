/-
What can be reached along links.

A graph is given by the list of links of each node.  `Reach` is what some starts lead
to; a walk keeps the nodes it has seen and those that wait to be expanded, and is done
when no node waits (`Covers.reach`).
-/
import Mathlib.Data.Finset.Card
import Mathlib.Data.Finset.Range
import Mathlib.Logic.Relation

namespace Reachability

variable {α : Type} {links links' : α → List α} {starts : List α} {a b : α}

/-- `a` can be reached from the starts. -/
def Reach (links : α → List α) (starts : List α) (a : α) : Prop :=
  ∃ s ∈ starts, Relation.ReflTransGen (fun a b => b ∈ links a) s a

theorem Reach.start (h : a ∈ starts) : Reach links starts a := ⟨a, h, .refl⟩

theorem Reach.link (h : Reach links starts a) (hb : b ∈ links a) : Reach links starts b := by
  obtain ⟨s, hs, hpath⟩ := h
  exact ⟨s, hs, hpath.tail hb⟩

theorem Reach.induction {P : α → Prop} (h : Reach links starts a) (hstart : ∀ s ∈ starts, P s)
    (hlink : ∀ a, Reach links starts a → P a → ∀ b ∈ links a, P b) : P a := by
  obtain ⟨s, hs, hpath⟩ := h
  induction hpath with
  | refl => exact hstart s hs
  | tail hpath hb ih => exact hlink _ ⟨s, hs, hpath⟩ ih _ hb

def Covers (links : α → List α) (seen waiting : α → Prop) : Prop :=
  ∀ a, seen a → waiting a ∨ ∀ b ∈ links a, seen b

theorem Covers.reach {seen waiting : α → Prop} (h : Covers links seen waiting)
    (hstart : ∀ s ∈ starts, seen s) (hnone : ∀ a, ¬waiting a) (ha : Reach links starts a) : seen a :=
  ha.induction hstart fun a _ hseen => (h a hseen).resolve_left (hnone a)

def unseen (nodeCount : ℕ) (seen : ℕ → Prop) [DecidablePred seen] : ℕ :=
  ((Finset.range nodeCount).filter fun n => ¬seen n).card

variable {nodeCount : ℕ} {seen seen' : ℕ → Prop} [DecidablePred seen] [DecidablePred seen']

theorem unseen_le : unseen nodeCount seen ≤ nodeCount := by
  have := Finset.card_filter_le (Finset.range nodeCount) fun n => ¬seen n
  rwa [Finset.card_range] at this

theorem unseen_insert {n : ℕ} (hn : n < nodeCount) (hnew : ¬seen n)
    (h : ∀ m, seen' m ↔ m = n ∨ seen m) :
    unseen nodeCount seen' + 1 = unseen nodeCount seen := by
  have hset : ((Finset.range nodeCount).filter fun m => ¬seen m) =
      insert n ((Finset.range nodeCount).filter fun m => ¬seen' m) := by
    ext m
    simp only [Finset.mem_insert, Finset.mem_filter, Finset.mem_range, h]
    constructor
    · rintro ⟨hm, hs⟩
      by_cases hmn : m = n
      · exact Or.inl hmn
      · exact Or.inr ⟨hm, fun hor => hor.elim hmn hs⟩
    · rintro (rfl | ⟨hm, hs⟩)
      · exact ⟨hn, hnew⟩
      · exact ⟨hm, fun hm' => hs (Or.inr hm')⟩
  rw [unseen, unseen, hset, Finset.card_insert_of_notMem]
  simp [h]

end Reachability

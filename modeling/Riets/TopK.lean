/-
The best few elements of a set.

Elements are compared by a rank, the smaller the better.  A bounded heap keeps
the best `k` of the elements it was offered; it is represented by the list of
its elements, the worst first, so that peeking is taking the head.
-/
import Riets.Keyed
import Mathlib.Data.Set.Insert

namespace TopK

open List Keyed

variable {α K : Type*} [LinearOrder K] (rank : α → K)

def push (a : α) (heap : List α) : List α := heap.orderedInsert (fun x y => rank y ≤ rank x) a

/-- Offers an element to a heap of at most `k`: a full heap takes it in the place of its worst
element, when it is better. -/
def offer (k : ℕ) (heap : List α) (a : α) : List α :=
  if heap.length < k then push rank a heap
  else
    match heap with
    | [] => push rank a []
    | worst :: rest => if rank a < rank worst then push rank a rest else heap

/-- Pushes an element and pops the worst one when there are more than `k`. -/
def pushPop (k : ℕ) (heap : List α) (a : α) : List α :=
  if k < (push rank a heap).length then (push rank a heap).tail else push rank a heap

/-- The best `k` elements of a list, the best first. -/
def best (k : ℕ) (l : List α) : List α := (sortBy rank l).take k

/-- The heap holds the best `k` elements of `S`: all of them, or `k` elements that are better than
the others. -/
structure Best (k : ℕ) (S : Set α) (heap : List α) : Prop where
  mem : ∀ a ∈ heap, a ∈ S
  sorted : heap.Pairwise fun a b => rank b < rank a
  length_le : heap.length ≤ k
  rest : ∀ a ∈ S, a ∉ heap → heap.length = k ∧ ∀ b ∈ heap, rank b < rank a

variable {rank} {k : ℕ} {S T : Set α} {heap l : List α} {a : α}

theorem perm_push : (push rank a heap).Perm (a :: heap) := perm_orderedInsert _ a heap

@[simp] theorem mem_push {b : α} : b ∈ push rank a heap ↔ b = a ∨ b ∈ heap := mem_orderedInsert _

@[simp] theorem length_push : (push rank a heap).length = heap.length + 1 := perm_push.length_eq

theorem push_cons (worst : α) (rest : List α) :
    push rank a (worst :: rest) =
      if rank worst ≤ rank a then a :: worst :: rest else worst :: push rank a rest := rfl

theorem sorted_push (h : heap.Pairwise fun a b => rank b < rank a) (ha : ∀ b ∈ heap, rank b ≠ rank a) :
    (push rank a heap).Pairwise fun a b => rank b < rank a := by
  induction heap with
  | nil => exact pairwise_singleton _ _
  | cons worst rest ih =>
    obtain ⟨hworst, hrest⟩ := pairwise_cons.mp h
    have hne : rank worst ≠ rank a := ha worst mem_cons_self
    rw [push_cons]
    split_ifs with hle
    · refine pairwise_cons.mpr ⟨fun b hb => ?_, h⟩
      rcases mem_cons.mp hb with rfl | hb
      · exact lt_of_le_of_ne hle hne
      · exact (hworst b hb).trans_le hle
    · refine pairwise_cons.mpr ⟨fun b hb => ?_, ih hrest fun b hb => ha b (mem_cons_of_mem _ hb)⟩
      rcases mem_push.mp hb with rfl | hb
      · exact not_le.mp hle
      · exact hworst b hb

/-! ### What keeps a heap the best of what it was offered -/

theorem Best.empty (k : ℕ) : Best rank k ∅ [] where
  mem := by simp
  sorted := Pairwise.nil
  length_le := Nat.zero_le k
  rest := by simp

theorem Best.union (h : Best rank k S heap)
    (hT : ∀ a ∈ T, heap.length = k ∧ ∀ b ∈ heap, rank b < rank a) : Best rank k (S ∪ T) heap where
  mem := fun a ha => .inl (h.mem a ha)
  sorted := h.sorted
  length_le := h.length_le
  rest := by
    rintro a (ha | ha) hnot
    · exact h.rest a ha hnot
    · exact hT a ha

theorem Best.congr (h : Best rank k S heap) (hST : ∀ a, a ∈ S ↔ a ∈ T) : Best rank k T heap := by
  obtain rfl : S = T := Set.ext hST
  exact h

theorem Best.push (h : Best rank k S heap) (hlt : heap.length < k) (ha : ∀ b ∈ S, rank b ≠ rank a) :
    Best rank k (insert a S) (push rank a heap) where
  mem := by
    intro b hb
    rcases mem_push.mp hb with rfl | hb
    · exact .inl rfl
    · exact .inr (h.mem b hb)
  sorted := sorted_push h.sorted fun b hb => ha b (h.mem b hb)
  length_le := by
    rw [length_push]
    omega
  rest := by
    rintro b (rfl | hb) hnot
    · exact absurd (mem_push.mpr (.inl rfl)) hnot
    · -- nothing was left out so far
      obtain ⟨hfull, -⟩ := h.rest b hb fun hmem => hnot (mem_push.mpr (.inr hmem))
      omega

theorem Best.replace {worst : α} {rest : List α} (h : Best rank k S (worst :: rest))
    (hfull : (worst :: rest).length = k) (ha : ∀ b ∈ S, rank b ≠ rank a) :
    Best rank k (insert a S) (if rank a < rank worst then TopK.push rank a rest else worst :: rest) := by
  obtain ⟨hworst, hsorted⟩ := pairwise_cons.mp h.sorted
  have hmem : ∀ b ∈ rest, b ∈ S := fun b hb => h.mem b (mem_cons_of_mem _ hb)
  split_ifs with hlt
  · refine ⟨?_, sorted_push hsorted fun b hb => ha b (hmem b hb), ?_, ?_⟩
    · intro b hb
      rcases mem_push.mp hb with rfl | hb
      · exact .inl rfl
      · exact .inr (hmem b hb)
    · rw [length_push, ← hfull, length_cons]
    · rintro b (rfl | hb) hnot
      · exact absurd (mem_push.mpr (.inl rfl)) hnot
      · refine ⟨by rw [length_push, ← hfull, length_cons], fun c hc => ?_⟩
        -- the element left out is the old worst one or was left out before
        have hle : rank worst ≤ rank b := by
          by_cases hb' : b ∈ worst :: rest
          · rcases mem_cons.mp hb' with rfl | hb'
            · exact le_rfl
            · exact absurd (mem_push.mpr (.inr hb')) hnot
          · exact ((h.rest b hb hb').2 worst mem_cons_self).le
        rcases mem_push.mp hc with rfl | hc
        · exact hlt.trans_le hle
        · exact (hworst c hc).trans_le hle
  · have hgt : rank worst < rank a :=
      lt_of_le_of_ne (not_lt.mp hlt) (ha worst (h.mem worst mem_cons_self))
    rw [← Set.union_singleton]
    refine h.union fun b hb => ⟨hfull, fun c hc => ?_⟩
    obtain rfl : b = a := hb
    rcases mem_cons.mp hc with rfl | hc
    · exact hgt
    · exact (hworst c hc).trans hgt

theorem Best.offer (h : Best rank k S heap) (hk : 0 < k) (ha : ∀ b ∈ S, rank b ≠ rank a) :
    Best rank k (insert a S) (offer rank k heap a) := by
  unfold TopK.offer
  split_ifs with hlt
  · exact h.push hlt ha
  · have hfull : heap.length = k := le_antisymm h.length_le (not_lt.mp hlt)
    cases heap with
    | nil => exact absurd hfull (by simp; omega)
    | cons worst rest => exact h.replace hfull ha

theorem Best.pushPop (h : Best rank k S heap) (ha : ∀ b ∈ S, rank b ≠ rank a) :
    Best rank k (insert a S) (pushPop rank k heap a) := by
  rw [TopK.pushPop, length_push]
  split_ifs with hlt
  · have hfull : heap.length = k := le_antisymm h.length_le (by omega)
    cases heap with
    | nil =>
      obtain rfl : k = 0 := hfull.symm
      exact ⟨by simp [TopK.push], Pairwise.nil, le_rfl, by simp [TopK.push]⟩
    | cons worst rest =>
      have heq : (TopK.push rank a (worst :: rest)).tail =
          if rank a < rank worst then TopK.push rank a rest else worst :: rest := by
        rw [push_cons]
        by_cases hle : rank worst ≤ rank a
        · rw [if_pos hle, if_neg (not_lt.mpr hle), tail_cons]
        · rw [if_neg hle, if_pos (not_le.mp hle), tail_cons]
      rw [heq]
      exact h.replace hfull ha
  · exact h.push (by omega) ha

theorem Best.foldl {put : List α → α → List α}
    (hput : ∀ {S heap a}, Best rank k S heap → (∀ b ∈ S, rank b ≠ rank a) →
      Best rank k (insert a S) (put heap a))
    (h : Best rank k S heap) (hl : l.Pairwise fun a b => rank a ≠ rank b)
    (hS : ∀ a ∈ l, ∀ b ∈ S, rank b ≠ rank a) : Best rank k (S ∪ {a | a ∈ l}) (l.foldl put heap) := by
  induction l generalizing S heap with
  | nil => exact h.congr (by simp)
  | cons a l ih =>
    obtain ⟨hhead, htail⟩ := pairwise_cons.mp hl
    have hnext := ih (hput h (hS a mem_cons_self)) htail (by
      rintro b hb c (rfl | hc)
      · exact hhead b hb
      · exact hS b (mem_cons_of_mem a hb) c hc)
    refine hnext.congr fun b => ?_
    simp only [Set.mem_union, Set.mem_insert_iff, Set.mem_ofPred_eq, mem_cons]
    tauto

/-! ### The sorted heap -/

theorem eq_of_perm_of_ascending {l l' : List α} (hperm : l.Perm l') (h : Ascending rank l)
    (h' : Ascending rank l') : l = l' :=
  hperm.eq_of_pairwise (fun _ _ _ _ hab hba => absurd hab (not_lt_of_gt hba)) h h'

theorem ascending_sortBy (h : l.Pairwise fun a b => rank a ≠ rank b) : Ascending rank (sortBy rank l) := by
  have hne : (sortBy rank l).Pairwise fun a b => rank a ≠ rank b :=
    ((perm_sortBy l).pairwise_iff fun hab => hab.symm).mpr h
  exact ((sorted_sortBy l).and hne).imp fun hab => lt_of_le_of_ne hab.1 hab.2

theorem mem_of_mem_best (ha : a ∈ best rank k l) : a ∈ l :=
  (perm_sortBy l).mem_iff.mp (mem_of_mem_take ha)

@[simp] theorem best_nil (k : ℕ) : best rank k ([] : List α) = [] := take_nil

theorem mem_best (hk : l.length ≤ k) : a ∈ best rank k l ↔ a ∈ l := by
  rw [best, take_of_length_le ((perm_sortBy l).length_eq.trans_le hk)]
  exact (perm_sortBy l).mem_iff

theorem Best.sortBy_eq (h : Best rank k {a | a ∈ l} heap)
    (hl : l.Pairwise fun a b => rank a ≠ rank b) : sortBy rank heap = best rank k l := by
  classical
  have hsorted : Ascending rank (sortBy rank l) := ascending_sortBy hl
  have hnodup : ∀ {m : List α}, Ascending rank m → m.Nodup := fun hm =>
    hm.imp fun hab heq => absurd (congrArg rank heq) (ne_of_lt hab)
  have hheap : Ascending rank (sortBy rank heap) :=
    ascending_sortBy (h.sorted.imp fun hab => (ne_of_lt hab).symm)
  have hmem : ∀ b, b ∈ sortBy rank l ↔ b ∈ l := fun b => (perm_sortBy l).mem_iff
  have hin : (sortBy rank l).filter (· ∈ heap) = sortBy rank heap := by
    refine eq_of_perm_of_ascending (perm_ext_iff_of_nodup ?_ (hnodup hheap) |>.mpr fun b => ?_)
      (ascending_filter hsorted _) hheap
    · exact hnodup (ascending_filter hsorted _)
    · rw [mem_filter, hmem, (perm_sortBy heap).mem_iff]
      simp only [decide_eq_true_eq, and_iff_right_iff_imp]
      exact fun hb => h.mem b hb
  -- what the heap holds comes first, what it left out follows
  have hsplit : sortBy rank l =
      sortBy rank heap ++ (sortBy rank l).filter (fun b => !decide (b ∈ heap)) := by
    rw [← hin]
    refine eq_of_perm_of_ascending (filter_append_perm _ _).symm hsorted ?_
    refine pairwise_append.mpr ⟨ascending_filter hsorted _, ascending_filter hsorted _, ?_⟩
    intro b hb c hc
    have hb' : b ∈ heap := by simpa using (mem_filter.mp hb).2
    have hc' : c ∉ heap := by simpa using (mem_filter.mp hc).2
    exact (h.rest c ((hmem c).mp (mem_filter.mp hc).1) hc').2 b hb'
  have hlength : (sortBy rank heap).length = heap.length := (perm_sortBy heap).length_eq
  rw [best, hsplit]
  by_cases hout : (sortBy rank l).filter (fun b => !decide (b ∈ heap)) = []
  · rw [hout, append_nil, take_of_length_le (hlength.trans_le h.length_le)]
  · obtain ⟨c, hc⟩ := exists_mem_of_ne_nil _ hout
    have hc' : c ∉ heap := by simpa using (mem_filter.mp hc).2
    have hfull := (h.rest c ((hmem c).mp (mem_filter.mp hc).1) hc').1
    rw [take_left' (hlength.trans hfull)]

theorem Best.of_best (hl : l.Pairwise fun a b => rank a ≠ rank b) (k : ℕ) :
    Best rank k {a | a ∈ l} (best rank k l).reverse where
  mem := fun a ha => mem_of_mem_best (mem_reverse.mp ha)
  sorted := pairwise_reverse.mpr ((ascending_sortBy hl).sublist (take_sublist k _))
  length_le := by
    rw [length_reverse]
    exact length_take_le k _
  rest := by
    intro a ha hnot
    have hasc : Ascending rank (best rank k l ++ (sortBy rank l).drop k) := by
      rw [best, take_append_drop]
      exact ascending_sortBy hl
    have hmem : a ∈ best rank k l ++ (sortBy rank l).drop k := by
      rw [best, take_append_drop]
      exact (perm_sortBy l).mem_iff.mpr ha
    -- what is not among the first `k` comes behind them
    have hdrop : a ∈ (sortBy rank l).drop k :=
      (mem_append.mp hmem).resolve_left fun h => hnot (mem_reverse.mpr h)
    refine ⟨?_, fun b hb => (pairwise_append.mp hasc).2.2 b (mem_reverse.mp hb) a hdrop⟩
    have hlt : 0 < ((sortBy rank l).drop k).length := length_pos_of_mem hdrop
    rw [length_drop] at hlt
    rw [length_reverse, best, length_take]
    omega

theorem best_eq_of_best {l m : List α} (hl : l.Pairwise fun a b => rank a ≠ rank b)
    (hm : m.Pairwise fun a b => rank a ≠ rank b) (h : Best rank k {a | a ∈ m} (best rank k l).reverse) :
    best rank k m = best rank k l :=
  (h.sortBy_eq hm).symm.trans ((Best.of_best hl k).sortBy_eq hl)

theorem best_congr {l m : List α} (hl : l.Pairwise fun a b => rank a ≠ rank b)
    (hm : m.Pairwise fun a b => rank a ≠ rank b) (hmem : ∀ a, a ∈ l ↔ a ∈ m) (k : ℕ) :
    best rank k m = best rank k l :=
  best_eq_of_best hl hm ((Best.of_best hl k).congr hmem)

/-! ### Places -/

variable (rank) in
def place (l : List α) (a : α) : ℕ := (l.filter fun b => rank b < rank a).length

theorem place_perm {l m : List α} (h : l.Perm m) (a : α) : place rank l a = place rank m a :=
  (h.filter _).length_eq

theorem mem_take_iff (h : Ascending rank l) : a ∈ l.take k ↔ a ∈ l ∧ place rank l a < k := by
  induction l generalizing k with
  | nil => simp
  | cons b l ih =>
    cases k with
    | zero => simp
    | succ k =>
      obtain ⟨hhead, htail⟩ := pairwise_cons.mp h
      rw [take_succ_cons, mem_cons, mem_cons, ih htail, place, place]
      constructor
      · rintro (rfl | ⟨ha, hlt⟩)
        · -- nothing comes before the first element
          have hnone : (a :: l).filter (fun b => rank b < rank a) = [] := by
            rw [filter_eq_nil_iff]
            intro b hb
            rcases mem_cons.mp hb with rfl | hb
            · simp
            · simpa using (hhead b hb).le
          rw [hnone]
          exact ⟨.inl rfl, Nat.succ_pos k⟩
        · refine ⟨.inr ha, ?_⟩
          rw [filter_cons_of_pos (by simpa using hhead a ha), length_cons]
          omega
      · rintro ⟨rfl | ha, hlt⟩
        · exact .inl rfl
        · rw [filter_cons_of_pos (by simpa using hhead a ha), length_cons] at hlt
          exact .inr ⟨ha, by omega⟩

theorem mem_best_iff (hl : l.Pairwise fun a b => rank a ≠ rank b) :
    a ∈ best rank k l ↔ a ∈ l ∧ place rank l a < k := by
  rw [best, mem_take_iff (ascending_sortBy hl), (perm_sortBy l).mem_iff, place_perm (perm_sortBy l)]

theorem take_best {k' : ℕ} (h : k ≤ k') (l : List α) : (best rank k' l).take k = best rank k l := by
  rw [best, best, take_take, min_eq_left h]

variable (rank) in
/-- The best `w` of each of several lists. -/
def cuts (w : ℕ) (ls : List (List α)) : List α := ls.flatMap (best rank w)

theorem mem_cuts {w : ℕ} {ls : List (List α)} : a ∈ cuts rank w ls ↔ ∃ l ∈ ls, a ∈ best rank w l :=
  mem_flatMap

end TopK

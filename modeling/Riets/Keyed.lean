/-
Lists sorted by a key, and merging several of them.

A list is `Ascending key` when the keys of its elements strictly increase, so
each key occurs at most once and the list is a finite map from keys to
elements (`find`).
-/
import Mathlib.Data.List.Sort
import Mathlib.Data.List.Basic
import Mathlib.Algebra.GroupWithZero.Nat
import Mathlib.Order.Lattice.Nat

namespace Keyed

open List Option Prod

variable {α K : Type*} [LinearOrder K] (key : α → K)

def Ascending (l : List α) : Prop := l.Pairwise fun a b => key a < key b

def Sorted (l : List α) : Prop := l.Pairwise fun a b => key a ≤ key b

def find (k : K) (l : List α) : Option α := l.find? fun a => key a = k

/-- Replace the element at key `k` by `f (some _)`, or insert `f none` at its
place in the order. -/
def upsert (k : K) (f : Option α → α) : List α → List α
  | [] => [f none]
  | a :: l =>
    if key a < k then a :: upsert k f l
    else if key a = k then f (some a) :: l
    else f none :: a :: l

variable {key}

instance (l : List α) : Decidable (Ascending key l) :=
  inferInstanceAs (Decidable (l.Pairwise fun a b => key a < key b))

instance (l : List α) : Decidable (Sorted key l) :=
  inferInstanceAs (Decidable (l.Pairwise fun a b => key a ≤ key b))

variable {l : List α}

theorem Ascending.sorted (h : Ascending key l) : Sorted key l :=
  h.imp le_of_lt

theorem Ascending.of_cons {a : α} (h : Ascending key (a :: l)) :
    Ascending key l :=
  (pairwise_cons.mp h).2

theorem Ascending.head_lt {a b : α} (h : Ascending key (a :: l))
    (hb : b ∈ l) : key a < key b :=
  (pairwise_cons.mp h).1 b hb

@[simp] theorem find_nil (k : K) : find key k ([] : List α) = none := rfl

theorem find_cons (k : K) (a : α) (l : List α) :
    find key k (a :: l) = if key a = k then some a else find key k l := by
  by_cases h : key a = k <;> simp [find, h]

theorem find_mem {k : K} {a : α} (h : find key k l = some a) : a ∈ l :=
  mem_of_find?_eq_some h

theorem find_key {k : K} {a : α} (h : find key k l = some a) : key a = k := by
  simpa using find?_some h

theorem find_eq_none {k : K} :
    find key k l = none ↔ ∀ a ∈ l, key a ≠ k := by
  simp [find, find?_eq_none]

theorem mem_iff_find {a : α} (h : Ascending key l) :
    a ∈ l ↔ find key (key a) l = some a := by
  refine ⟨fun ha => ?_, find_mem⟩
  induction l with
  | nil => exact absurd ha (by simp)
  | cons b l ih =>
    rw [find_cons]
    rcases mem_cons.mp ha with rfl | ha
    · simp
    · rw [if_neg (ne_of_lt (h.head_lt ha)), ih h.of_cons ha]

variable {l' : List α}

theorem ext_mem (h : Ascending key l) (h' : Ascending key l') (hmem : ∀ a, a ∈ l ↔ a ∈ l') :
    l = l' := by
  have nodup : ∀ {m : List α}, Ascending key m → m.Nodup := fun hm =>
    hm.imp fun hab heq => absurd (congrArg key heq) (ne_of_lt hab)
  have hperm : l.Perm l' := (perm_ext_iff_of_nodup (nodup h) (nodup h')).mpr hmem
  exact hperm.eq_of_pairwise
    (fun a b _ _ hab hba => absurd hab (not_lt_of_gt hba)) h h'

theorem ext_find (h : Ascending key l) (h' : Ascending key l')
    (hf : ∀ k, find key k l = find key k l') : l = l' := by
  refine ext_mem h h' fun a => ?_
  rw [mem_iff_find h, mem_iff_find h', hf]

theorem filter_eq_find (h : Ascending key l) (k : K) :
    l.filter (fun a => key a = k) = (find key k l).toList := by
  induction l with
  | nil => rfl
  | cons a l ih =>
    rw [filter_cons, ih h.of_cons, find_cons]
    by_cases hk : key a = k
    · have hn : find key k l = none :=
        find_eq_none.mpr fun b hb => ne_of_gt (hk ▸ h.head_lt hb)
      simp [hk, hn]
    · simp [hk]

theorem ascending_filter (h : Ascending key l) (p : α → Bool) :
    Ascending key (l.filter p) :=
  h.sublist filter_sublist

theorem find_filter (h : Ascending key l) (p : α → Bool) (k : K) :
    find key k (l.filter p) = (find key k l).filter p := by
  induction l with
  | nil => rfl
  | cons a l ih =>
    rw [filter_cons, find_cons]
    by_cases hk : key a = k
    · have hn : find key k (l.filter p) = none :=
        find_eq_none.mpr fun b hb => ne_of_gt (hk ▸ h.head_lt (mem_of_mem_filter hb))
      by_cases hp : p a <;> simp [hp, hk, hn, find_cons, Option.filter]
    · by_cases hp : p a <;> simp [hp, hk, find_cons, ih h.of_cons]

omit [LinearOrder K] in
theorem filter_key_filter [DecidableEq K] {p : α → Bool} {k : K}
    (h : ∀ a ∈ l, key a = k → p a = true) :
    (l.filter p).filter (fun a => key a = k) = l.filter fun a => key a = k := by
  rw [List.filter_filter]
  refine filter_congr fun a ha => ?_
  by_cases hk : key a = k
  · simp [hk, h a ha hk]
  · simp [hk]

omit [LinearOrder K] in
theorem filter_key_filter_eq_nil [DecidableEq K] {p : α → Bool} {k : K}
    (h : ∀ a ∈ l, key a = k → p a = false) : (l.filter p).filter (fun a => key a = k) = [] := by
  rw [List.filter_filter, filter_eq_nil_iff]
  intro a ha hk
  simp only [Bool.and_eq_true, decide_eq_true_eq] at hk
  rw [h a ha hk.1] at hk
  exact absurd hk.2 (by decide)

section Upsert

variable {k : K} {f : Option α → α}

variable {l : List α}

theorem mem_upsert {b : α} (hb : b ∈ upsert key k f l) :
    b ∈ l ∨ b = f none ∨ ∃ a ∈ l, key a = k ∧ b = f (some a) := by
  induction l with
  | nil => exact .inr (.inl (by simpa [upsert] using hb))
  | cons a l ih =>
    rw [upsert] at hb
    split_ifs at hb with h1 h2
    · rcases mem_cons.mp hb with rfl | hb
      · exact .inl (by simp)
      · rcases ih hb with h | h | ⟨c, hc, hk, he⟩
        · exact .inl (by simp [h])
        · exact .inr (.inl h)
        · exact .inr (.inr ⟨c, by simp [hc], hk, he⟩)
    · rcases mem_cons.mp hb with rfl | hb
      · exact .inr (.inr ⟨a, by simp, h2, rfl⟩)
      · exact .inl (by simp [hb])
    · rcases mem_cons.mp hb with rfl | hb
      · exact .inr (.inl rfl)
      · exact .inl hb

theorem key_of_mem_upsert (hf : ∀ o, key (f o) = k) {b : α}
    (hb : b ∈ upsert key k f l) : b ∈ l ∨ key b = k := by
  rcases mem_upsert hb with h | rfl | ⟨a, -, -, rfl⟩
  · exact .inl h
  · exact .inr (hf _)
  · exact .inr (hf _)

theorem ascending_upsert (hf : ∀ o, key (f o) = k) (h : Ascending key l) :
    Ascending key (upsert key k f l) := by
  induction l with
  | nil => simp [upsert, Ascending]
  | cons a l ih =>
    rw [upsert]
    split_ifs with h1 h2
    · refine pairwise_cons.mpr ⟨fun b hb => ?_, ih h.of_cons⟩
      rcases key_of_mem_upsert hf hb with hb | hb
      · exact h.head_lt hb
      · rwa [hb]
    · refine pairwise_cons.mpr ⟨fun b hb => ?_, h.of_cons⟩
      rw [hf, ← h2]
      exact h.head_lt hb
    · have hk : k < key a := lt_of_le_of_ne (not_lt.mp h1) (Ne.symm h2)
      refine pairwise_cons.mpr ⟨fun b hb => ?_, h⟩
      rw [hf]
      rcases mem_cons.mp hb with rfl | hb
      · exact hk
      · exact hk.trans (h.head_lt hb)

theorem length_upsert_le (f : Option α → α) (l : List α) : (upsert key k f l).length ≤ l.length + 1 := by
  induction l with
  | nil => exact Nat.le_refl 1
  | cons a l ih =>
    unfold upsert
    split_ifs
    · exact Nat.succ_le_succ ih
    · exact Nat.le_succ _
    · exact Nat.le_refl _

theorem length_upsert_of_none (h : find key k l = none) : (upsert key k f l).length = l.length + 1 := by
  induction l with
  | nil => rfl
  | cons a l ih =>
    rw [find_eq_none] at h
    have ha : key a ≠ k := h a mem_cons_self
    have hl := ih (find_eq_none.mpr fun b hb => h b (mem_cons_of_mem a hb))
    unfold upsert
    split_ifs with hlt
    · rw [length_cons, hl, length_cons]
    · rfl

theorem find_upsert (hf : ∀ o, key (f o) = k) (h : Ascending key l) (k' : K) :
    find key k' (upsert key k f l)
      = if k' = k then some (f (find key k l)) else find key k' l := by
  induction l with
  | nil =>
    by_cases hk : k' = k
    · simp [upsert, find_cons, hf, hk]
    · simp [upsert, find_cons, hf, hk, Ne.symm hk]
  | cons a l ih =>
    rw [upsert]
    by_cases h1 : key a < k
    · rw [if_pos h1, find_cons, ih h.of_cons, find_cons, find_cons, if_neg (ne_of_lt h1)]
      by_cases hk : k' = k
      · rw [if_pos hk, hk, if_neg (ne_of_lt h1), if_pos rfl]
      · rw [if_neg hk, if_neg hk]
    · rw [if_neg h1]
      by_cases h2 : key a = k
      · rw [if_pos h2, find_cons, hf, find_cons, if_pos h2, find_cons, h2]
        by_cases hk : k' = k
        · rw [if_pos hk.symm, if_pos hk]
        · rw [if_neg (Ne.symm hk), if_neg hk, if_neg (Ne.symm hk)]
      · have hlt : k < key a := lt_of_le_of_ne (not_lt.mp h1) (Ne.symm h2)
        have hn : find key k (a :: l) = none := by
          rw [find_eq_none]
          intro b hb
          rcases mem_cons.mp hb with rfl | hb
          · exact h2
          · exact ne_of_gt (hlt.trans (h.head_lt hb))
        rw [if_neg h2, find_cons, hf, hn]
        by_cases hk : k' = k
        · rw [if_pos hk.symm, if_pos hk]
        · rw [if_neg (Ne.symm hk), if_neg hk]

end Upsert

/-! ### Folding runs of equal keys -/

section Collapse

variable (key) in
/-- Walk the list with a current element, absorbing the following elements of
the same key into it. -/
def collapseFrom (absorb : α → α → α) (cur : α) : List α → List α
  | [] => [cur]
  | b :: l =>
    if key cur = key b then collapseFrom absorb (absorb cur b) l
    else cur :: collapseFrom absorb b l

variable (key) in
def collapse (absorb : α → α → α) : List α → List α
  | [] => []
  | a :: l => collapseFrom key absorb a l

/-- The fold of one run; `none` for an empty one. -/
def foldRun (absorb : α → α → α) : List α → Option α
  | [] => none
  | a :: l => some (l.foldl absorb a)

variable {absorb : α → α → α}

variable {l : List α}

section

variable (habs : ∀ a b, key (absorb a b) = key a)
include habs

theorem le_of_mem_collapseFrom {a b : α}
    (h : Sorted key (a :: l)) (hb : b ∈ collapseFrom key absorb a l) : key a ≤ key b := by
  induction l generalizing a with
  | nil => simp [collapseFrom] at hb; simp [hb]
  | cons c l ih =>
    obtain ⟨hle, hs⟩ := pairwise_cons.mp h
    rw [collapseFrom] at hb
    split_ifs at hb with hk
    · have hs' : Sorted key (absorb a c :: l) :=
        pairwise_cons.mpr ⟨fun d hd => by rw [habs]; exact hle d (by simp [hd]),
          (pairwise_cons.mp hs).2⟩
      have := ih hs' hb
      rwa [habs] at this
    · rcases mem_cons.mp hb with rfl | hb
      · exact le_rfl
      · exact (hle c (by simp)).trans (ih hs hb)

theorem ascending_collapseFrom {a : α}
    (h : Sorted key (a :: l)) : Ascending key (collapseFrom key absorb a l) := by
  induction l generalizing a with
  | nil => simp [collapseFrom, Ascending]
  | cons c l ih =>
    obtain ⟨hle, hs⟩ := pairwise_cons.mp h
    rw [collapseFrom]
    split_ifs with hk
    · refine ih (pairwise_cons.mpr ⟨fun d hd => ?_, (pairwise_cons.mp hs).2⟩)
      rw [habs]
      exact hle d (by simp [hd])
    · refine pairwise_cons.mpr ⟨fun b hb => ?_, ih hs⟩
      exact lt_of_lt_of_le (lt_of_le_of_ne (hle c (by simp)) hk)
        (le_of_mem_collapseFrom habs hs hb)

theorem ascending_collapse
    (h : Sorted key l) : Ascending key (collapse key absorb l) := by
  rcases l with _ | ⟨a, l⟩
  · simp [collapse, Ascending]
  · exact ascending_collapseFrom habs h

theorem find_collapseFrom {a : α}
    (h : Sorted key (a :: l)) (k : K) :
    find key k (collapseFrom key absorb a l)
      = foldRun absorb ((a :: l).filter fun b => key b = k) := by
  induction l generalizing a with
  | nil => by_cases hk : key a = k <;> simp [collapseFrom, find_cons, foldRun, hk]
  | cons c l ih =>
    obtain ⟨hle, hs⟩ := pairwise_cons.mp h
    rw [collapseFrom]
    split_ifs with hac
    · have hs' : Sorted key (absorb a c :: l) :=
        pairwise_cons.mpr ⟨fun d hd => by rw [habs]; exact hle d (by simp [hd]),
          (pairwise_cons.mp hs).2⟩
      rw [ih hs']
      by_cases hk : key a = k
      · have hc : key c = k := hac ▸ hk
        simp [habs, hk, hc, foldRun]
      · have hc : key c ≠ k := hac ▸ hk
        simp [habs, hk, hc]
    · rw [find_cons, ih hs]
      by_cases hk : key a = k
      · -- the run of `a` ends here: every later key is larger
        have hlt : key a < key c := lt_of_le_of_ne (hle c (by simp)) hac
        have hnone : (c :: l).filter (fun b => key b = k) = [] := by
          rw [filter_eq_nil_iff]
          intro b hb
          have hcb : key c ≤ key b := by
            rcases mem_cons.mp hb with rfl | hb
            · exact le_rfl
            · exact (pairwise_cons.mp hs).1 b hb
          simpa using ne_of_gt (hk ▸ lt_of_lt_of_le hlt hcb)
        rw [if_pos hk, filter_cons_of_pos (by simpa using hk), hnone]
        rfl
      · rw [if_neg hk]
        simp [filter_cons, hk]

theorem find_collapse
    (h : Sorted key l) (k : K) :
    find key k (collapse key absorb l) = foldRun absorb (l.filter fun b => key b = k) := by
  rcases l with _ | ⟨a, l⟩
  · rfl
  · exact find_collapseFrom habs h k

end

end Collapse

section FilterMap

variable {β : Type*} {key' : β → K} {g : α → Option β}

theorem ascending_filterMap (hg : ∀ a b, g a = some b → key' b = key a)
    (h : Ascending key l) : Ascending key' (l.filterMap g) := by
  refine pairwise_filterMap.mpr (h.imp fun hab b hb b' hb' => ?_)
  rw [hg _ _ hb, hg _ _ hb']
  exact hab

theorem find_filterMap (hg : ∀ a b, g a = some b → key' b = key a)
    (h : Ascending key l) (k : K) : find key' k (l.filterMap g) = (find key k l).bind g := by
  induction l with
  | nil => rfl
  | cons a l ih =>
    rw [filterMap_cons, find_cons]
    have hrest : key a = k → find key' k (l.filterMap g) = none := by
      intro hk
      rw [ih h.of_cons, find_eq_none.mpr fun b hb => ne_of_gt (hk ▸ h.head_lt hb), bind_none]
    cases hga : g a with
    | none =>
      by_cases hk : key a = k
      · rw [if_pos hk, bind_some, hga, hrest hk]
      · rw [if_neg hk, ih h.of_cons]
    | some b =>
      rw [find_cons, hg a b hga]
      by_cases hk : key a = k
      · rw [if_pos hk, if_pos hk, bind_some, hga]
      · rw [if_neg hk, if_neg hk, ih h.of_cons]

end FilterMap

section SortBy

variable (key) in
def sortBy (l : List α) : List α := l.insertionSort fun a b => key a ≤ key b

theorem sorted_sortBy (l : List α) : Sorted key (sortBy key l) := by
  have : Std.Total (fun a b : α => key a ≤ key b) := ⟨fun a b => le_total _ _⟩
  have : IsTrans α (fun a b : α => key a ≤ key b) := ⟨fun _ _ _ => le_trans⟩
  exact pairwise_insertionSort _ l

theorem sortBy_of_sorted (h : Sorted key l) : sortBy key l = l :=
  h.insertionSort_eq

theorem perm_sortBy (l : List α) : (sortBy key l).Perm l := perm_insertionSort _ l

theorem filter_orderedInsert (k : K) (a : α) (l : List α) :
    (l.orderedInsert (fun a b => key a ≤ key b) a).filter (fun b => key b = k)
      = (a :: l).filter fun b => key b = k := by
  induction l with
  | nil => simp
  | cons b l ih =>
    rw [orderedInsert]
    split_ifs with hab
    · rfl
    · rw [filter_cons, ih]
      -- `b` moves in front of `a`, so their keys differ and at most one is `k`
      by_cases hb : key b = k
      · have ha : key a ≠ k := fun ha => hab (by rw [ha, hb])
        simp [ha, hb]
      · simp [filter_cons, hb]

theorem filter_sortBy (k : K) (l : List α) :
    (sortBy key l).filter (fun b => key b = k) = l.filter fun b => key b = k := by
  induction l with
  | nil => rfl
  | cons a l ih =>
    have h : sortBy key (a :: l)
        = (sortBy key l).orderedInsert (fun a b => key a ≤ key b) a := rfl
    rw [h, filter_orderedInsert, filter_cons, filter_cons, ih]

end SortBy

/-! ### Merging several lists -/

section Merge

variable (key) in
/-- The source whose head has the least key, the first such source on ties:
what a heap of `(key, source)` pairs pops. -/
def least : List (List α) → Option (ℕ × α)
  | [] => none
  | [] :: ss => (least ss).map fun p => (p.1 + 1, p.2)
  | (a :: _) :: ss =>
    match least ss with
    | none => some (0, a)
    | some (i, b) => if key b < key a then some (i + 1, b) else some (0, a)

variable {ss : List (List α)}

theorem least_eq_none (h : least key ss = none) : ss.flatten = [] := by
  induction ss with
  | nil => rfl
  | cons s ss ih =>
    rcases s with _ | ⟨a, s⟩
    · rw [least, map_eq_none_iff] at h
      simpa using ih h
    · rw [least] at h
      split at h
      · exact absurd h (by simp)
      · split_ifs at h

variable {i : ℕ}

theorem least_eq_some {a : α} (h : least key ss = some (i, a)) :
    ∃ pre s post, ss = pre ++ (a :: s) :: post ∧ i = pre.length ∧
      (∀ t ∈ pre, ∀ b ∈ t.head?, key a < key b) ∧
      ∀ t ∈ post, ∀ b ∈ t.head?, key a ≤ key b := by
  induction ss generalizing i a with
  | nil => exact absurd h (by simp [least])
  | cons s ss ih =>
    rcases s with _ | ⟨c, s⟩
    · rw [least, map_eq_some_iff] at h
      obtain ⟨⟨j, b⟩, hj, hp⟩ := h
      simp only [mk.injEq] at hp
      obtain ⟨rfl, rfl⟩ := hp
      obtain ⟨pre, s, post, rfl, rfl, hpre, hpost⟩ := ih hj
      refine ⟨[] :: pre, s, post, rfl, rfl, fun t ht => ?_, hpost⟩
      rcases mem_cons.mp ht with rfl | ht
      · simp
      · exact hpre t ht
    · rw [least] at h
      cases hl : least key ss with
      | none =>
        simp only [hl, some_inj, mk.injEq] at h
        obtain ⟨rfl, rfl⟩ := h
        refine ⟨[], s, ss, rfl, rfl, by simp, fun t ht b hb => ?_⟩
        have hflat := flatten_eq_nil_iff.mp (least_eq_none hl) t ht
        simp [hflat] at hb
      | some p =>
        obtain ⟨j, b⟩ := p
        obtain ⟨pre, s', post, rfl, rfl, hpre, hpost⟩ := ih hl
        simp only [hl] at h
        split_ifs at h with hbc
        · simp only [some_inj, mk.injEq] at h
          obtain ⟨rfl, rfl⟩ := h
          refine ⟨(c :: s) :: pre, s', post, rfl, rfl, fun t ht => ?_, hpost⟩
          rcases mem_cons.mp ht with rfl | ht
          · simpa using hbc
          · exact hpre t ht
        · simp only [some_inj, mk.injEq] at h
          obtain ⟨rfl, rfl⟩ := h
          have hcb : key c ≤ key b := not_lt.mp hbc
          refine ⟨[], s, pre ++ (b :: s') :: post, rfl, rfl, by simp, fun t ht d hd => ?_⟩
          rcases mem_append.mp ht with ht | ht
          · exact hcb.trans (hpre t ht d hd).le
          · rcases mem_cons.mp ht with rfl | ht
            · simp only [head?_cons, mem_def, some_inj] at hd
              exact hd ▸ hcb
            · exact hcb.trans (hpost t ht d hd)

variable (key) in
/-- Pop the least head until every source is empty; `n` bounds the number of
elements. -/
def kmerge : ℕ → List (List α) → List α
  | 0, _ => []
  | n + 1, ss =>
    match least key ss with
    | none => []
    | some (i, a) => a :: kmerge n (ss.modify i tail)

theorem modify_tail_length (pre post : List (List α)) (a : α) (s : List α) :
    (pre ++ (a :: s) :: post).modify pre.length tail = pre ++ s :: post := by
  induction pre with
  | nil => simp
  | cons t pre ih => simpa using ih

theorem length_modify_tail {a : α} (h : least key ss = some (i, a)) :
    (ss.modify i tail).flatten.length + 1 = ss.flatten.length := by
  obtain ⟨pre, s, post, rfl, rfl, -⟩ := least_eq_some h
  rw [modify_tail_length]
  simp only [flatten_append, flatten_cons, length_append, length_cons]
  omega

theorem head_le_of_sorted {t : List α} (ht : Sorted key t) {b : α} (hb : b ∈ t) :
    ∃ c ∈ t.head?, key c ≤ key b := by
  rcases t with _ | ⟨c, t⟩
  · exact absurd hb (by simp)
  · refine ⟨c, by simp, ?_⟩
    rcases mem_cons.mp hb with rfl | hb
    · exact le_rfl
    · exact (pairwise_cons.mp ht).1 b hb

variable {n : ℕ}

theorem filter_kmerge (hs : ∀ s ∈ ss, Sorted key s)
    (hn : ss.flatten.length ≤ n) (k : K) :
    (kmerge key n ss).filter (fun b => key b = k) = ss.flatten.filter fun b => key b = k := by
  induction n generalizing ss with
  | zero => simp [kmerge, length_eq_zero_iff.mp (Nat.le_zero.mp hn)]
  | succ n ih =>
    rw [kmerge]
    cases hl : least key ss with
    | none => rw [least_eq_none hl]
    | some p =>
      obtain ⟨i, a⟩ := p
      obtain ⟨pre, s, post, rfl, rfl, hpre, -⟩ := least_eq_some hl
      have hs' : ∀ t ∈ pre ++ s :: post, Sorted key t := by
        intro t ht
        rcases mem_append.mp ht with ht | ht
        · exact hs t (by simp [ht])
        · rcases mem_cons.mp ht with rfl | ht
          · exact (pairwise_cons.mp (hs (a :: t) (by simp))).2
          · exact hs t (by simp [ht])
      have hn' : (pre ++ s :: post).flatten.length ≤ n := by
        simp only [flatten_append, flatten_cons, length_append, length_cons] at hn ⊢
        omega
      simp only [modify_tail_length]
      rw [filter_cons, ih hs' hn']
      simp only [flatten_append, flatten_cons, filter_append]
      by_cases hk : key a = k
      · -- the sources before the popped one hold only larger keys
        have hnil : pre.flatten.filter (fun b => key b = k) = [] := by
          rw [filter_eq_nil_iff]
          intro b hb
          obtain ⟨t, ht, hbt⟩ := mem_flatten.mp hb
          obtain ⟨c, hc, hcb⟩ := head_le_of_sorted (hs t (by simp [ht])) hbt
          simpa using ne_of_gt (hk ▸ lt_of_lt_of_le (hpre t ht c hc) hcb)
        simp [hnil, hk]
      · simp [hk]

theorem mem_of_mem_kmerge {b : α} (hb : b ∈ kmerge key n ss) :
    b ∈ ss.flatten := by
  induction n generalizing ss with
  | zero => exact absurd hb (by simp [kmerge])
  | succ n ih =>
    rw [kmerge] at hb
    cases hl : least key ss with
    | none => simp [hl] at hb
    | some p =>
      obtain ⟨i, a⟩ := p
      obtain ⟨pre, s, post, rfl, rfl, -, -⟩ := least_eq_some hl
      simp only [hl, modify_tail_length] at hb
      rcases mem_cons.mp hb with rfl | hb
      · simp
      · have := ih hb
        simp only [flatten_append, flatten_cons, mem_append] at this ⊢
        rcases this with h | h | h
        · exact .inl h
        · exact .inr (.inl (by simp [h]))
        · exact .inr (.inr h)

theorem pairwise_kmerge (hs : ∀ s ∈ ss, Sorted key s) :
    Sorted key (kmerge key n ss) := by
  induction n generalizing ss with
  | zero => simp [kmerge, Sorted]
  | succ n ih =>
    rw [kmerge]
    cases hl : least key ss with
    | none => simp [Sorted]
    | some p =>
      obtain ⟨i, a⟩ := p
      obtain ⟨pre, s, post, rfl, rfl, hpre, hpost⟩ := least_eq_some hl
      have has := pairwise_cons.mp (hs (a :: s) (by simp))
      simp only [modify_tail_length]
      refine pairwise_cons.mpr ⟨fun b hb => ?_, ih fun t ht => ?_⟩
      · have hmem := mem_of_mem_kmerge hb
        simp only [flatten_append, flatten_cons, mem_append] at hmem
        rcases hmem with h | h | h
        · obtain ⟨t, ht, hbt⟩ := mem_flatten.mp h
          obtain ⟨c, hc, hcb⟩ := head_le_of_sorted (hs t (by simp [ht])) hbt
          exact (hpre t ht c hc).le.trans hcb
        · exact has.1 b h
        · obtain ⟨t, ht, hbt⟩ := mem_flatten.mp h
          obtain ⟨c, hc, hcb⟩ := head_le_of_sorted (hs t (by simp [ht])) hbt
          exact (hpost t ht c hc).trans hcb
      · rcases mem_append.mp ht with ht | ht
        · exact hs t (by simp [ht])
        · rcases mem_cons.mp ht with rfl | ht
          · exact has.2
          · exact hs t (by simp [ht])

end Merge

theorem filter_key_eq {α K : Type*} [DecidableEq K] {key : α → K} {l : List α}
    (h : l.Pairwise fun a b => key a ≠ key b) {a : α} (ha : a ∈ l) : (l.filter fun b => key b = key a) = [a] := by
  induction l with
  | nil => exact absurd ha not_mem_nil
  | cons b l ih =>
    obtain ⟨hhead, htail⟩ := pairwise_cons.mp h
    rcases mem_cons.mp ha with rfl | ha
    · have hnone : (l.filter fun b => key b = key a) = [] := by
        rw [filter_eq_nil_iff]
        intro b hb
        simpa using (hhead b hb).symm
      rw [filter_cons_of_pos (by simp), hnone]
    · rw [filter_cons_of_neg (by simpa using hhead a ha), ih htail ha]

theorem le_foldl_max {α : Type*} [LinearOrder α] (l : List α) (b : α) :
    b ≤ l.foldl max b ∧ ∀ a ∈ l, a ≤ l.foldl max b := by
  induction l generalizing b with
  | nil => exact ⟨le_rfl, by simp⟩
  | cons a l ih =>
    obtain ⟨hb, hl⟩ := ih (max b a)
    refine ⟨(le_max_left b a).trans hb, ?_⟩
    intro c hc
    rcases mem_cons.mp hc with rfl | hc
    · exact (le_max_right b c).trans hb
    · exact hl c hc

end Keyed

/-
Searching sorted lists.

Two searches of the standard library, over lists sorted by a key.
-/
import Riets.Keyed
import Mathlib.Data.List.TakeWhile

namespace Keyed

open List Option

variable {α K : Type*} [LinearOrder K] {key : α → K}

def partitionPoint (p : α → Bool) (l : List α) : ℕ := (l.takeWhile p).length

variable {l : List α} {p : α → Bool}

theorem takeWhile_eq_filter (hs : Sorted key l)
    (hp : ∀ a b, key a ≤ key b → p b = true → p a = true) : l.takeWhile p = l.filter p := by
  induction l with
  | nil => rfl
  | cons a l ih =>
    obtain ⟨hle, hs⟩ := pairwise_cons.mp hs
    cases ha : p a with
    | true => rw [takeWhile_cons_of_pos ha, filter_cons_of_pos ha, ih hs]
    | false =>
      have hnone : l.filter p = [] := by
        rw [filter_eq_nil_iff]
        intro b hb hpb
        rw [hp a b (hle b hb) hpb] at ha
        exact absurd ha (by decide)
      rw [takeWhile_cons_of_neg (by simp [ha]), filter_cons_of_neg (by simp [ha]), hnone]

theorem dropWhile_eq_filter (hs : Sorted key l)
    (hp : ∀ a b, key a ≤ key b → p b = true → p a = true) :
    l.dropWhile p = l.filter fun a => !p a := by
  induction l with
  | nil => rfl
  | cons a l ih =>
    obtain ⟨hle, hs⟩ := pairwise_cons.mp hs
    cases ha : p a with
    | true => rw [dropWhile_cons_of_pos ha, filter_cons_of_neg (by simp [ha]), ih hs]
    | false =>
      have hall : l.filter (fun b => !p b) = l := by
        rw [filter_eq_self]
        intro b hb
        cases hpb : p b with
        | false => rfl
        | true =>
          rw [hp a b (hle b hb) hpb] at ha
          exact absurd ha (by decide)
      rw [dropWhile_cons_of_neg (by simp [ha]), filter_cons_of_pos (by simp [ha]), hall]

theorem insertIdx_partitionPoint (p : α → Bool) (l : List α) (x : α) :
    l.insertIdx (partitionPoint p l) x = l.takeWhile p ++ x :: l.dropWhile p := by
  induction l with
  | nil => rfl
  | cons a l ih =>
    rw [partitionPoint] at ih ⊢
    by_cases ha : p a
    · rw [takeWhile_cons_of_pos ha, dropWhile_cons_of_pos ha, length_cons,
        insertIdx_succ_cons, ih, cons_append]
    · rw [takeWhile_cons_of_neg ha, dropWhile_cons_of_neg ha]
      rfl

theorem partitionPoint_le (p : α → Bool) (l : List α) : partitionPoint p l ≤ l.length :=
  (takeWhile_sublist p).length_le

theorem of_lt_partitionPoint {i : ℕ} {a : α}
    (hi : i < partitionPoint p l) (ha : l[i]? = some a) : p a = true := by
  have hmem : a ∈ l.takeWhile p := by
    obtain ⟨t, ht⟩ := takeWhile_prefix p (l := l)
    rw [← ht, getElem?_append_left hi] at ha
    exact mem_of_getElem? ha
  exact mem_takeWhile_imp hmem

theorem not_at_partitionPoint {a : α}
    (ha : l[partitionPoint p l]? = some a) : p a = false := by
  induction l with
  | nil => simp at ha
  | cons b l ih =>
    by_cases hb : p b
    · rw [partitionPoint, takeWhile_cons_of_pos hb] at ha
      exact ih ha
    · rw [partitionPoint, takeWhile_cons_of_neg hb] at ha
      simp only [length_nil, getElem?_cons_zero, some_inj] at ha
      simpa [← ha] using hb

theorem drop_partitionPoint_take (p : α → Bool) (l : List α) (n : ℕ) :
    (l.take n).drop (partitionPoint p l) = (l.take n).dropWhile p := by
  induction l generalizing n with
  | nil => simp
  | cons a l ih =>
    rcases n with _ | n
    · simp
    · rw [partitionPoint, take_succ_cons]
      by_cases ha : p a
      · rw [takeWhile_cons_of_pos ha, dropWhile_cons_of_pos ha, length_cons, drop_succ_cons]
        exact ih n
      · rw [takeWhile_cons_of_neg ha, dropWhile_cons_of_neg ha]
        rfl

theorem mem_slice (hs : Sorted key l) {q : α → Bool}
    (hp : ∀ a b, key a ≤ key b → p b = true → p a = true)
    (hq : ∀ a b, key a ≤ key b → q b = true → q a = true) {a : α} :
    a ∈ (l.take (partitionPoint q l)).drop (partitionPoint p l)
      ↔ a ∈ l ∧ q a = true ∧ p a = false := by
  have htake : l.take (partitionPoint q l) = l.filter q := by
    rw [← takeWhile_eq_filter hs hq]
    exact (prefix_iff_eq_take.mp ( takeWhile_prefix q)).symm
  rw [drop_partitionPoint_take, htake,
    dropWhile_eq_filter (hs.sublist filter_sublist) hp, mem_filter, mem_filter]
  simp [and_assoc]

variable (key) in
/-- Keeps `base` at an element whose key is not above `k` while halving `size`. -/
def searchBase (k : K) (l : List α) : ℕ → ℕ → ℕ → ℕ
  | 0, base, _ => base
  | fuel + 1, base, size =>
    if size ≤ 1 then base
    else
      let half := size / 2
      let mid := base + half
      searchBase k l fuel (if (l[mid]?).all fun a => k < key a then base else mid) (size - half)

variable (key) in
/-- The place of an element with key `k`. -/
def binarySearch (k : K) (l : List α) : Option ℕ :=
  let base := searchBase key k l l.length 0 l.length
  match l[base]? with
  | some a => if key a = k then some base else none
  | none => none

theorem key_le_of_getElem? (hs : Sorted key l) {i j : ℕ} {a b : α} (hij : i ≤ j)
    (ha : l[i]? = some a) (hb : l[j]? = some b) : key a ≤ key b := by
  obtain ⟨hi, rfl⟩ := List.getElem?_eq_some_iff.mp ha
  obtain ⟨hj, rfl⟩ := List.getElem?_eq_some_iff.mp hb
  rcases hij.eq_or_lt with rfl | hlt
  · exact le_rfl
  · exact pairwise_iff_getElem.mp hs i j hi hj hlt

theorem searchBase_spec {k : K} (hs : Sorted key l) {fuel base size : ℕ}
    (hfuel : size ≤ fuel + 1) (hpos : 0 < size) (hlen : base + size ≤ l.length)
    (hbase : base = 0 ∨ ∀ a, l[base]? = some a → key a ≤ k)
    (habove : ∀ j a, base + size ≤ j → l[j]? = some a → k < key a) :
    searchBase key k l fuel base size < l.length ∧
      (searchBase key k l fuel base size = 0 ∨
        ∀ a, l[searchBase key k l fuel base size]? = some a → key a ≤ k) ∧
      ∀ j a, searchBase key k l fuel base size < j → l[j]? = some a → k < key a := by
  induction fuel generalizing base size with
  | zero =>
    obtain rfl : size = 1 := by omega
    exact ⟨by rw [searchBase]; omega, hbase, fun j a hj => habove j a hj⟩
  | succ fuel ih =>
    rw [searchBase]
    by_cases hsize : size ≤ 1
    · rw [if_pos hsize]
      obtain rfl : size = 1 := by omega
      exact ⟨by omega, hbase, fun j a hj => habove j a hj⟩
    · rw [if_neg hsize]
      have hmid : base + size / 2 < l.length := by omega
      have hm : l[base + size / 2]? = some l[base + size / 2] := getElem?_eq_getElem hmid
      simp only [hm, all_some, decide_eq_true_eq]
      by_cases hk : k < key l[base + size / 2]
      · -- the middle element is above `k`, so is everything after it
        rw [if_pos hk]
        refine ih (by omega) (by omega) (by omega) hbase fun j a hj ha => ?_
        exact lt_of_lt_of_le hk (key_le_of_getElem? hs (by omega) hm ha)
      · rw [if_neg hk]
        refine ih (by omega) (by omega) (by omega) (.inr fun a ha => ?_) fun j a hj ha => ?_
        · rw [hm, some_inj] at ha
          exact ha ▸ not_lt.mp hk
        · exact habove j a (by omega) ha

theorem binarySearch_eq_getLast (hs : Sorted key l) (k : K) :
    ((binarySearch key k l).bind fun i => l[i]?) = (l.filter fun a => key a = k).getLast? := by
  rcases Nat.eq_zero_or_pos l.length with h0 | hpos
  · rw [length_eq_zero_iff.mp h0]
    rfl
  have hbeyond : ∀ j a, 0 + l.length ≤ j → l[j]? = some a → k < key a := by
    intro j a hj ha
    have hlt := (List.getElem?_eq_some_iff.mp ha).1
    omega
  obtain ⟨hr, hbase, habove⟩ :=
    searchBase_spec hs (Nat.le_succ l.length) hpos (Nat.zero_add _).le (.inl rfl) hbeyond
  rw [binarySearch]
  generalize searchBase key k l l.length 0 l.length = r at hr hbase habove
  have hget : l[r]? = some l[r] := getElem?_eq_getElem hr
  have hsplit : l = l.take r ++ l[r] :: l.drop (r + 1) := by
    rw [getElem_cons_drop, take_append_drop]
  -- nothing after the place the loop stopped at can match
  have hafter : (l.drop (r + 1)).filter (fun a => key a = k) = [] := by
    rw [filter_eq_nil_iff]
    intro a ha
    obtain ⟨j, hj, rfl⟩ := mem_iff_getElem.mp ha
    rw [getElem_drop]
    simp only [length_drop] at hj
    have := habove (r + 1 + j) _ (by omega) (getElem?_eq_getElem (by omega))
    simpa using ne_of_gt this
  have hfilter : l.filter (fun a => key a = k)
      = (l.take r).filter (fun a => key a = k) ++ [l[r]].filter fun a => key a = k := by
    conv_lhs => rw [hsplit]
    rw [filter_append, filter_cons, filter_cons, hafter, filter_nil]
  simp only [hget]
  by_cases hk : key l[r] = k
  · simp [hk, hfilter]
  · -- the stop is not a match: it is above everything, or below `k` with all before it
    have hbefore : (l.take r).filter (fun a => key a = k) = [] := by
      rw [filter_eq_nil_iff]
      intro a ha
      obtain ⟨j, hj, rfl⟩ := mem_iff_getElem.mp ha
      simp only [length_take] at hj
      rw [getElem_take]
      rcases hbase with rfl | hbase
      · omega
      · have hle : key l[j] ≤ key l[r] :=
          key_le_of_getElem? hs (by omega) (getElem?_eq_getElem (by omega)) hget
        simpa using ne_of_lt (lt_of_le_of_lt hle (lt_of_le_of_ne (hbase _ hget) hk))
    simp [hk, hfilter, hbefore]

theorem binarySearch_getElem? {k : K} {i : ℕ} (h : binarySearch key k l = some i) :
    ∃ a, l[i]? = some a := by
  rw [binarySearch] at h
  cases hb : l[searchBase key k l l.length 0 l.length]? with
  | none => simp [hb] at h
  | some a =>
    simp only [hb] at h
    split_ifs at h
    rw [some_inj] at h
    exact ⟨a, h ▸ hb⟩

theorem getLast_filter_window (hs : Sorted key l) {k : K} {start len : ℕ} {a : α}
    (hlen : 0 < len) (hstart : l[start]? = some a) (ha : key a ≤ k)
    (hend : ∀ j b, start + len ≤ j → l[j]? = some b → k < key b) :
    (((l.drop start).take len).filter fun b => key b = k).getLast?
      = (l.filter fun b => key b = k).getLast? := by
  have hafter : ((l.drop start).drop len).filter (fun b => key b = k) = [] := by
    rw [filter_eq_nil_iff, drop_drop]
    intro b hb
    obtain ⟨j, hj, rfl⟩ := mem_iff_getElem.mp hb
    rw [getElem_drop]
    simp only [length_drop] at hj
    simpa using ne_of_gt (hend (start + len + j) _ (by omega) (getElem?_eq_getElem (by omega)))
  have hfilter : l.filter (fun b => key b = k)
      = (l.take start).filter (fun b => key b = k)
        ++ ((l.drop start).take len).filter fun b => key b = k := by
    conv_lhs => rw [← take_append_drop start l, ← take_append_drop len (l.drop start)]
    rw [filter_append, filter_append, hafter, append_nil]
  rw [hfilter, getLast?_append]
  cases hw : (((l.drop start).take len).filter fun b => key b = k).getLast? with
  | some b => rfl
  | none =>
    -- the window starts strictly below `k`, so does everything before it
    have hwin := filter_eq_nil_iff.mp (getLast?_eq_none_iff.mp hw)
    obtain ⟨hi, rfl⟩ := List.getElem?_eq_some_iff.mp hstart
    have hmem : l[start] ∈ (l.drop start).take len := by
      refine mem_iff_getElem.mpr ⟨0, by simp only [length_take, length_drop]; omega, ?_⟩
      simp
    have hlt : key l[start] < k := lt_of_le_of_ne ha (by simpa using hwin _ hmem)
    have hbefore : (l.take start).filter (fun b => key b = k) = [] := by
      rw [filter_eq_nil_iff]
      intro b hb
      obtain ⟨j, hj, rfl⟩ := mem_iff_getElem.mp hb
      simp only [length_take] at hj
      rw [getElem_take]
      have hle : key l[j] ≤ key l[start] :=
        key_le_of_getElem? hs (by omega) (getElem?_eq_getElem (by omega)) hstart
      simpa using ne_of_lt (lt_of_le_of_lt hle hlt)
    rw [hbefore]
    rfl

end Keyed

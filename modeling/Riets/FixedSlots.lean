/-
Fixed-size pieces of a byte sequence, found at computed offsets.

A number of `w` bytes is read at an offset, a list of such numbers from its first byte on;
pieces of one size written one after the other are found at multiples of that size.
`each` runs a check on every element of a list, the first failure ends it.
-/
import Riets.Fallible

open List

namespace FixedSlots

open List Fallible Nat

/-- The number of `w` bytes at an offset. -/
def wordAt (w : ℕ) (bytes : ByteSeq) (offset : ℕ) : ℕ := leNat ((bytes.drop offset).take w)

/-- A checked read: past the end it faults. -/
def readWord (w : ℕ) (bytes : ByteSeq) (offset : ℕ) : Fallible ℕ :=
  if offset + w ≤ bytes.length then .ok (wordAt w bytes offset) else .fault

variable {w offset : ℕ} {bytes : ByteSeq}

theorem readWord_of_le (h : offset + w ≤ bytes.length) :
    readWord w bytes offset = .ok (wordAt w bytes offset) := if_pos h

theorem readWord_past_end (h : bytes.length < offset + w) :
    readWord w bytes offset = .fault := if_neg (by omega)

theorem wordAt_lt (w : ℕ) (bytes : ByteSeq) (offset : ℕ) : wordAt w bytes offset < 256 ^ w := by
  have hlt := leNat_lt ((bytes.drop offset).take w)
  refine lt_of_lt_of_le hlt (Nat.pow_le_pow_right (by omega) ?_)
  exact length_take_le w _

theorem returns_readWord (h : offset + w ≤ bytes.length) :
    (readWord w bytes offset).Returns := by
  rw [readWord_of_le h]
  exact returns_ok _

theorem readWord_eq_ok {n : ℕ} (h : readWord w bytes offset = .ok n) :
    n < 256 ^ w := by
  rw [readWord] at h
  split_ifs at h
  cases h
  exact wordAt_lt w bytes offset

variable {rest : ByteSeq}

theorem wordAt_of_drop {n : ℕ} (hn : n < 256 ^ w)
    (h : bytes.drop offset = leBytes w n ++ rest) : wordAt w bytes offset = n := by
  rw [wordAt, h]
  have htake : (leBytes w n ++ rest).take w = leBytes w n := take_left' (length_leBytes w n)
  rw [htake, leNat_leBytes_of_lt hn]

theorem readWord_of_drop {n : ℕ} (hw : 0 < w) (hn : n < 256 ^ w)
    (h : bytes.drop offset = leBytes w n ++ rest) : readWord w bytes offset = .ok n := by
  have hlen := congrArg length h
  rw [length_drop, length_append, length_leBytes] at hlen
  rw [readWord_of_le (by omega), wordAt_of_drop hn h]

variable {k : ℕ}

theorem drop_add {front : ByteSeq} (h : bytes.drop k = front ++ rest)
    (hw : front.length = w) : bytes.drop (k + w) = rest := by
  rw [← drop_drop, h, drop_left' hw]

/-- The first `n` numbers of `w` bytes. -/
def words (w : ℕ) : ℕ → ByteSeq → List ℕ
  | 0, _ => []
  | n + 1, bytes => leNat (bytes.take w) :: words w n (bytes.drop w)

theorem words_flatMap {l : List ℕ} (hl : ∀ n ∈ l, n < 256 ^ w) (rest : ByteSeq) :
    words w l.length (l.flatMap (leBytes w) ++ rest) = l := by
  induction l with
  | nil => rfl
  | cons n l ih =>
    rw [length_cons, words, flatMap_cons, append_assoc]
    have hlen : (leBytes w n).length = w := length_leBytes w n
    have htake : (leBytes w n ++ (l.flatMap (leBytes w) ++ rest)).take w = leBytes w n :=
      take_left' hlen
    have hdrop : (leBytes w n ++ (l.flatMap (leBytes w) ++ rest)).drop w =
        l.flatMap (leBytes w) ++ rest := drop_left' hlen
    rw [htake, hdrop, leNat_leBytes_of_lt (hl n (mem_cons_self ..)),
      ih fun m hm => hl m (mem_cons_of_mem _ hm)]

theorem words_take (n : ℕ) (bytes : ByteSeq) :
    words w n (bytes.take (w * n)) = words w n bytes := by
  induction n generalizing bytes with
  | zero => rfl
  | succ n ih =>
    have hle : w ≤ w * (n + 1) := Nat.le_mul_of_pos_right w (succ_pos n)
    have hsub : w * (n + 1) - w = w * n := by
      rw [mul_succ]
      omega
    rw [words, words, take_take, min_eq_left hle, drop_take, hsub, ih]

variable {α : Type}

variable {f : α → ByteSeq} {i : ℕ}

theorem drop_flatMap {l : List α} (hk : ∀ a ∈ l, (f a).length = k)
    {a : α} (ha : l[i]? = some a) (rest : ByteSeq) :
    ∃ rest', (l.flatMap f ++ rest).drop (i * k) = f a ++ rest' := by
  induction l generalizing i with
  | nil => cases ha
  | cons b l ih =>
    have hb := hk b (mem_cons_self ..)
    cases i with
    | zero =>
      obtain rfl : b = a := Option.some_inj.1 ha
      refine ⟨l.flatMap f ++ rest, ?_⟩
      rw [zero_mul, drop_zero, flatMap_cons, append_assoc]
    | succ i =>
      obtain ⟨rest', hrest⟩ := ih (fun c hc => hk c (mem_cons_of_mem _ hc)) ha
      refine ⟨rest', ?_⟩
      rw [flatMap_cons, append_assoc, succ_mul, add_comm, ← drop_drop, drop_left' hb]
      exact hrest

theorem drop_piece {l : List α}
    (h : bytes.drop offset = l.flatMap f ++ rest) (hk : ∀ a ∈ l, (f a).length = k) {a : α}
    (ha : l[i]? = some a) : ∃ rest', bytes.drop (offset + i * k) = f a ++ rest' := by
  obtain ⟨rest', hrest⟩ := drop_flatMap hk ha rest
  refine ⟨rest', ?_⟩
  rw [← drop_drop, h, hrest]

theorem wordAt_piece {n : ℕ} {l : List ℕ}
    (h : bytes.drop offset = l.flatMap (leBytes w) ++ rest) (hi : l[i]? = some n) (hn : n < 256 ^ w) :
    wordAt w bytes (offset + i * w) = n := by
  obtain ⟨rest', hrest⟩ := drop_piece h (fun m _ => length_leBytes w m) hi
  exact wordAt_of_drop hn hrest

theorem length_flatMap_eq {l : List α} (hk : ∀ a ∈ l, (f a).length = k) :
    (l.flatMap f).length = l.length * k := by
  induction l with
  | nil => rw [flatMap_nil, length_nil, length_nil, zero_mul]
  | cons b l ih =>
    rw [flatMap_cons, length_append, hk b (mem_cons_self ..),
      ih fun c hc => hk c (mem_cons_of_mem _ hc), length_cons, succ_mul, add_comm]

theorem getElem?_flatten {ls : List (List α)} {j : ℕ} {l : List α} {a : α} (hl : ls[i]? = some l)
    (ha : l[j]? = some a) : ls.flatten[((ls.take i).map length).sum + j]? = some a := by
  induction ls generalizing i with
  | nil => cases hl
  | cons first ls ih =>
    cases i with
    | zero =>
      obtain rfl : first = l := Option.some_inj.1 hl
      rw [take_zero, map_nil, sum_nil, zero_add, flatten_cons,
        getElem?_append_left (List.getElem?_eq_some_iff.1 ha).1, ha]
    | succ i =>
      rw [take_succ_cons, map_cons, sum_cons, flatten_cons, add_assoc,
        getElem?_append_right (Nat.le_add_right _ _), Nat.add_sub_cancel_left]
      exact ih hl

/-- A check of every element, in order. -/
def each (check : α → Fallible Unit) : List α → Fallible Unit
  | [] => .ok ()
  | a :: l => do
    check a
    each check l

variable {check : α → Fallible Unit} {l : List α}

theorem each_eq_ok : each check l = .ok () ↔ ∀ a ∈ l, check a = .ok () := by
  induction l with
  | nil => simp [each]
  | cons a l ih =>
    rw [each, bind_eq_ok, forall_mem_cons, ← ih]
    constructor
    · rintro ⟨_, ha, hl⟩
      exact ⟨ha, hl⟩
    · rintro ⟨ha, hl⟩
      exact ⟨(), ha, hl⟩

theorem each_eq_fault : each check l = .fault ↔
    ∃ before a after, l = before ++ a :: after ∧ (∀ b ∈ before, check b = .ok ()) ∧
      check a = .fault := by
  induction l with
  | nil => simp [each]
  | cons a l ih =>
    rw [each]
    cases ha : check a with
    | ok u =>
      rw [ok_bind, ih]
      constructor
      · rintro ⟨before, b, after, rfl, hbefore, hb⟩
        exact ⟨a :: before, b, after, rfl, forall_mem_cons.2 ⟨ha, hbefore⟩, hb⟩
      · rintro ⟨before, b, after, heq, hbefore, hb⟩
        cases before with
        | nil =>
          obtain ⟨rfl, rfl⟩ := cons_eq_cons.1 heq
          rw [ha] at hb
          cases hb
        | cons c before =>
          obtain ⟨rfl, rfl⟩ := cons_eq_cons.1 heq
          exact ⟨before, b, after, rfl, (forall_mem_cons.1 hbefore).2, hb⟩
    | err message =>
      rw [err_bind]
      constructor
      · intro h
        cases h
      · rintro ⟨before, b, after, heq, hbefore, hb⟩
        cases before with
        | nil =>
          obtain ⟨rfl, rfl⟩ := cons_eq_cons.1 heq
          rw [ha] at hb
          cases hb
        | cons c before =>
          obtain ⟨rfl, rfl⟩ := cons_eq_cons.1 heq
          have hc := (forall_mem_cons.1 hbefore).1
          rw [ha] at hc
          cases hc
    | fault =>
      rw [fault_bind]
      exact ⟨fun _ => ⟨[], a, l, rfl, by simp, ha⟩, fun _ => rfl⟩

theorem each_range_eq_ok {check : ℕ → Fallible Unit} {n : ℕ} :
    each check (range n) = .ok () ↔ ∀ i < n, check i = .ok () := by
  simp only [each_eq_ok, mem_range]

theorem each_range_eq_fault {check : ℕ → Fallible Unit} {n : ℕ} :
    each check (range n) = .fault ↔
      ∃ i < n, (∀ j < i, check j = .ok ()) ∧ check i = .fault := by
  rw [each_eq_fault]
  constructor
  · rintro ⟨before, i, after, heq, hbefore, hfault⟩
    have hget : ∀ j, j ≤ before.length → (before ++ i :: after)[j]? = some j := by
      intro j hj
      have hlen := congrArg length heq
      rw [length_range, length_append, length_cons] at hlen
      rw [← heq, getElem?_range (by omega)]
    have hi : i = before.length := by
      have hhere := hget before.length le_rfl
      rw [getElem?_append_right le_rfl, Nat.sub_self] at hhere
      exact Option.some_inj.1 hhere
    refine ⟨i, ?_, fun j hj => hbefore j ?_, hfault⟩
    · rw [← mem_range, heq]
      exact mem_append_right _ (mem_cons_self ..)
    · have hthere := hget j (by omega)
      rw [getElem?_append_left (by omega)] at hthere
      exact mem_of_getElem? hthere
  · rintro ⟨i, hi, hbefore, hfault⟩
    refine ⟨range i, i, (range (n - (i + 1))).map ((i + ·) ∘ succ), ?_, ?_, hfault⟩
    · have hsum : n = i + (n - (i + 1) + 1) := by omega
      rw [hsum, range_add, range_succ_eq_map, map_cons, map_map, ← hsum]
      rfl
    · intro j hj
      exact hbefore j (mem_range.1 hj)

section Counted

variable {β : Type} {step : β → ℕ → Fallible β} {Good Bad : ℕ → Prop} {n : ℕ}

theorem foldlM_range_eq_ok (before : ℕ → β) {b : β}
    (hok : ∀ m < n, (∀ i < m, Good i) → ∀ b, step (before m) m = .ok b ↔ Good m ∧ b = before (m + 1)) :
    (range n).foldlM step (before 0) = .ok b ↔ (∀ m < n, Good m) ∧ b = before n := by
  induction n generalizing b with
  | zero => simp [eq_comm]
  | succ n ih =>
    have ih' := fun {b : β} => @ih b fun m hm => hok m (lt_succ_of_lt hm)
    rw [range_succ, foldlM_append, bind_eq_ok]
    constructor
    · rintro ⟨c, hc, hstep⟩
      obtain ⟨hgood, rfl⟩ := ih'.1 hc
      rw [foldlM_cons, bind_eq_ok] at hstep
      obtain ⟨d, hd, hpure⟩ := hstep
      obtain ⟨hlast, rfl⟩ := (hok n (lt_succ_self n) hgood d).1 hd
      cases hpure
      exact ⟨forall_lt_succ_right.2 ⟨hgood, hlast⟩, rfl⟩
    · rintro ⟨hgood, rfl⟩
      obtain ⟨hbefore, hlast⟩ := forall_lt_succ_right.1 hgood
      refine ⟨before n, ih'.2 ⟨hbefore, rfl⟩, ?_⟩
      rw [foldlM_cons, (hok n (lt_succ_self n) hbefore _).2 ⟨hlast, rfl⟩]
      rfl

theorem foldlM_range_eq_fault (before : ℕ → β)
    (hok : ∀ m < n, (∀ i < m, Good i) → ∀ b, step (before m) m = .ok b ↔ Good m ∧ b = before (m + 1))
    (hfault : ∀ m < n, (∀ i < m, Good i) → (step (before m) m = .fault ↔ Bad m)) :
    (range n).foldlM step (before 0) = .fault ↔ ∃ m < n, (∀ i < m, Good i) ∧ Bad m := by
  induction n with
  | zero => simp
  | succ n ih =>
    have hok' := fun m (hm : m < n) => hok m (lt_succ_of_lt hm)
    have ih' := ih hok' fun m hm => hfault m (lt_succ_of_lt hm)
    have hpass := fun {b : β} => foldlM_range_eq_ok before (b := b) hok'
    rw [range_succ, foldlM_append]
    constructor
    · intro h
      cases hc : (range n).foldlM step (before 0) with
      | ok c =>
        obtain ⟨hgood, rfl⟩ := hpass.1 hc
        rw [hc, ok_bind, foldlM_cons] at h
        cases hd : step (before n) n with
        | ok d =>
          rw [hd] at h
          cases h
        | err message =>
          rw [hd] at h
          cases h
        | fault => exact ⟨n, lt_succ_self n, hgood, (hfault n (lt_succ_self n) hgood).1 hd⟩
      | err message =>
        rw [hc] at h
        cases h
      | fault =>
        obtain ⟨m, hm, hgood, hbad⟩ := ih'.1 hc
        exact ⟨m, lt_succ_of_lt hm, hgood, hbad⟩
    · rintro ⟨m, hm, hgood, hbad⟩
      obtain hlt | rfl := Nat.lt_succ_iff_lt_or_eq.1 hm
      · rw [ih'.2 ⟨m, hlt, hgood, hbad⟩, fault_bind]
      · rw [hpass.2 ⟨hgood, rfl⟩, ok_bind, foldlM_cons, (hfault m hm hgood).2 hbad]
        rfl

end Counted

end FixedSlots

/-
Offsets into a text, in bytes.

A text is a list of characters of one to four bytes each, and an offset is a boundary when some
of the characters in front come to so many bytes.  A slice goes from one boundary to another;
slices that meet join to one (`between_append`).
-/
import Riets.Fallible

namespace TextSlice

open List

def byteLen (chars : List Char) : ℕ := (chars.map Char.utf8Size).sum

@[simp] theorem byteLen_nil : byteLen [] = 0 := rfl

@[simp] theorem byteLen_cons (c : Char) (chars : List Char) : byteLen (c :: chars) = c.utf8Size + byteLen chars := rfl

@[simp] theorem byteLen_append (front back : List Char) : byteLen (front ++ back) = byteLen front + byteLen back := by
  rw [byteLen, map_append, sum_append]
  rfl

variable {chars : List Char}

theorem byteLen_pos (h : chars ≠ []) : 0 < byteLen chars := by
  cases chars with
  | nil => exact absurd rfl h
  | cons c chars =>
    have hc := c.utf8Size_pos
    rw [byteLen_cons]
    omega

/-! ### Boundaries -/

def isCharBoundary : List Char → ℕ → Bool
  | _, 0 => true
  | [], _ + 1 => false
  | c :: chars, i + 1 => if i + 1 < c.utf8Size then false else isCharBoundary chars (i + 1 - c.utf8Size)

def Boundary (chars : List Char) (i : ℕ) : Prop := ∃ front back, chars = front ++ back ∧ byteLen front = i

variable {i : ℕ}

theorem isCharBoundary_iff : isCharBoundary chars i = true ↔ Boundary chars i := by
  fun_induction isCharBoundary chars i with
  | case1 chars => exact ⟨fun _ => ⟨[], chars, rfl, rfl⟩, fun _ => rfl⟩
  | case2 i =>
    constructor
    · intro h
      cases h
    · rintro ⟨front, back, hchars, hlen⟩
      rw [(append_eq_nil_iff.mp hchars.symm).1] at hlen
      cases hlen
  | case3 c chars i hlt =>
    constructor
    · intro h
      cases h
    · rintro ⟨front, back, hchars, hlen⟩
      cases front with
      | nil => cases hlen
      | cons c' front =>
        obtain ⟨rfl, -⟩ := cons.inj hchars
        rw [byteLen_cons] at hlen
        omega
  | case4 c chars i hlt ih =>
    rw [ih]
    constructor
    · rintro ⟨front, back, rfl, hlen⟩
      exact ⟨c :: front, back, rfl, by rw [byteLen_cons]; omega⟩
    · rintro ⟨front, back, hchars, hlen⟩
      cases front with
      | nil => cases hlen
      | cons c' front =>
        obtain ⟨rfl, rfl⟩ := cons.inj hchars
        rw [byteLen_cons] at hlen
        exact ⟨front, back, rfl, by omega⟩

instance (chars : List Char) (i : ℕ) : Decidable (Boundary chars i) := decidable_of_iff _ isCharBoundary_iff

theorem boundary_zero (chars : List Char) : Boundary chars 0 := ⟨[], chars, rfl, rfl⟩

theorem boundary_byteLen (chars : List Char) : Boundary chars (byteLen chars) :=
  ⟨chars, [], (append_nil chars).symm, rfl⟩

theorem Boundary.le (h : Boundary chars i) : i ≤ byteLen chars := by
  obtain ⟨front, back, rfl, rfl⟩ := h
  rw [byteLen_append]
  omega

theorem boundary_append (front back : List Char) : Boundary (front ++ back) (byteLen front) := ⟨front, back, rfl, rfl⟩

/-! ### Slices -/

/-- `char_indices`, from an offset on. -/
def indicesFrom (start : ℕ) : List Char → List (ℕ × Char)
  | [] => []
  | c :: chars => (start, c) :: indicesFrom (start + c.utf8Size) chars

variable {start : ℕ}

theorem le_of_mem_indicesFrom {e : ℕ × Char} (h : e ∈ indicesFrom start chars) :
    start ≤ e.1 := by
  induction chars generalizing start with
  | nil => exact absurd h not_mem_nil
  | cons c chars ih =>
    rcases mem_cons.mp h with rfl | h
    · exact le_refl _
    · have := ih h
      omega

def between (chars : List Char) (start stop : ℕ) : List Char :=
  ((indicesFrom 0 chars).filter fun e => start ≤ e.1 ∧ e.1 < stop).map Prod.snd

variable {j k : ℕ}

theorem filter_indicesFrom (hij : i ≤ j) (hjk : j ≤ k) (start : ℕ) (chars : List Char) :
    ((indicesFrom start chars).filter fun e => i ≤ e.1 ∧ e.1 < j) ++
        ((indicesFrom start chars).filter fun e => j ≤ e.1 ∧ e.1 < k) =
      (indicesFrom start chars).filter fun e => i ≤ e.1 ∧ e.1 < k := by
  induction chars generalizing start with
  | nil => rfl
  | cons c chars ih =>
    have hrest := ih (start + c.utf8Size)
    rw [indicesFrom]
    by_cases hj : j ≤ start
    · -- nothing is left in front of `j`
      have hnone : ((start, c) :: indicesFrom (start + c.utf8Size) chars).filter (fun e => i ≤ e.1 ∧ e.1 < j) = [] := by
        refine filter_eq_nil_iff.mpr fun e he => ?_
        have hle : start ≤ e.1 := le_of_mem_indicesFrom (by exact he : e ∈ indicesFrom start (c :: chars))
        rw [decide_eq_true_eq]
        omega
      rw [hnone, nil_append]
      refine filter_congr fun e he => ?_
      have hle : start ≤ e.1 := le_of_mem_indicesFrom (by exact he : e ∈ indicesFrom start (c :: chars))
      rw [decide_eq_decide]
      omega
    · by_cases hi : i ≤ start
      · rw [filter_cons_of_pos (by simp; omega), filter_cons_of_neg (by simp; omega),
          filter_cons_of_pos (by simp; omega), cons_append, hrest]
      · rw [filter_cons_of_neg (by simp; omega), filter_cons_of_neg (by simp; omega),
          filter_cons_of_neg (by simp; omega), hrest]

theorem between_append (chars : List Char) (hij : i ≤ j) (hjk : j ≤ k) :
    between chars i j ++ between chars j k = between chars i k := by
  rw [between, between, between, ← map_append, filter_indicesFrom hij hjk]

theorem indicesFrom_append (start : ℕ) (front back : List Char) :
    indicesFrom start (front ++ back) = indicesFrom start front ++ indicesFrom (start + byteLen front) back := by
  induction front generalizing start with
  | nil => rfl
  | cons c front ih => rw [cons_append, indicesFrom, indicesFrom, ih, cons_append, byteLen_cons, Nat.add_assoc]

theorem lt_of_mem_indicesFrom {e : ℕ × Char} (h : e ∈ indicesFrom start chars) :
    e.1 < start + byteLen chars := by
  induction chars generalizing start with
  | nil => exact absurd h not_mem_nil
  | cons c chars ih =>
    have hc := c.utf8Size_pos
    rw [byteLen_cons]
    rcases mem_cons.mp h with rfl | h
    · show start < _
      omega
    · have := ih h
      omega

theorem map_snd_indicesFrom (start : ℕ) (chars : List Char) : (indicesFrom start chars).map Prod.snd = chars := by
  induction chars generalizing start with
  | nil => rfl
  | cons c chars ih => rw [indicesFrom, map_cons, ih]

theorem between_mid (front mid back : List Char) :
    between (front ++ mid ++ back) (byteLen front) (byteLen front + byteLen mid) = mid := by
  have hin : ∀ e ∈ indicesFrom (byteLen front) mid, byteLen front ≤ e.1 ∧ e.1 < byteLen front + byteLen mid :=
    fun e he => ⟨le_of_mem_indicesFrom he, lt_of_mem_indicesFrom he⟩
  have hfront : (indicesFrom 0 front).filter
      (fun e => byteLen front ≤ e.1 ∧ e.1 < byteLen front + byteLen mid) = [] := by
    refine filter_eq_nil_iff.mpr fun e he => ?_
    have := lt_of_mem_indicesFrom he
    rw [decide_eq_true_eq]
    omega
  have hback : (indicesFrom (byteLen front + byteLen mid) back).filter
      (fun e => byteLen front ≤ e.1 ∧ e.1 < byteLen front + byteLen mid) = [] := by
    refine filter_eq_nil_iff.mpr fun e he => ?_
    have := le_of_mem_indicesFrom he
    rw [decide_eq_true_eq]
    omega
  have hmid : (indicesFrom (byteLen front) mid).filter
      (fun e => byteLen front ≤ e.1 ∧ e.1 < byteLen front + byteLen mid) = indicesFrom (byteLen front) mid :=
    filter_eq_self.mpr fun e he => decide_eq_true (hin e he)
  rw [between, indicesFrom_append, indicesFrom_append, Nat.zero_add, byteLen_append, Nat.zero_add, filter_append,
    filter_append, hfront, hmid, hback, nil_append, append_nil, map_snd_indicesFrom]

theorem Boundary.cut (hi : Boundary chars i) (hj : Boundary chars j) (hij : i ≤ j) :
    ∃ front mid back, chars = front ++ mid ++ back ∧ byteLen front = i ∧ byteLen front + byteLen mid = j := by
  obtain ⟨front, back, rfl, rfl⟩ := hi
  obtain ⟨front', back', heq, rfl⟩ := hj
  rcases append_eq_append_iff.mp heq with ⟨mid, rfl, rfl⟩ | ⟨mid, rfl, rfl⟩
  · exact ⟨front, mid, back', by rw [append_assoc], rfl, (byteLen_append front mid).symm⟩
  · -- the second is not in front of the first, so they are the same
    have hmid : mid = [] := by
      by_contra hne
      have := byteLen_pos hne
      rw [byteLen_append] at hij
      omega
    subst hmid
    exact ⟨front', [], back, by simp, by simp, by simp⟩

theorem between_piece (hi : Boundary chars i) (hj : Boundary chars j) (hij : i ≤ j) :
    ∃ front back, chars = front ++ between chars i j ++ back ∧ byteLen front = i ∧
      i + byteLen (between chars i j) = j := by
  obtain ⟨front, mid, back, rfl, rfl, rfl⟩ := hi.cut hj hij
  exact ⟨front, back, by rw [between_mid], rfl, by rw [between_mid]⟩

def slice (text : String) (start stop : ℕ) : Fallible String :=
  if start ≤ stop ∧ Boundary text.toList start ∧ Boundary text.toList stop then
    .ok (String.ofList (between text.toList start stop))
  else .fault

theorem slice_of_boundary {text : String} {stop : ℕ} (h : start ≤ stop) (hstart : Boundary text.toList start)
    (hstop : Boundary text.toList stop) : slice text start stop = .ok (String.ofList (between text.toList start stop)) :=
  if_pos ⟨h, hstart, hstop⟩

def snapDown (chars : List Char) : ℕ → ℕ
  | 0 => 0
  | i + 1 => if isCharBoundary chars (i + 1) then i + 1 else snapDown chars i

def snapUp (chars : List Char) (i : ℕ) : ℕ :=
  if i < byteLen chars ∧ isCharBoundary chars i = false then snapUp chars (i + 1) else i
termination_by byteLen chars - i

theorem snapDown_spec (chars : List Char) (i : ℕ) :
    Boundary chars (snapDown chars i) ∧ snapDown chars i ≤ i := by
  induction i with
  | zero => exact ⟨boundary_zero chars, le_refl 0⟩
  | succ i ih =>
    rw [snapDown]
    split_ifs with hboundary
    · exact ⟨isCharBoundary_iff.mp hboundary, le_refl _⟩
    · exact ⟨ih.1, by omega⟩

theorem snapUp_spec (chars : List Char) (i : ℕ) (h : i ≤ byteLen chars) :
    Boundary chars (snapUp chars i) ∧ i ≤ snapUp chars i := by
  fun_induction snapUp chars i with
  | case1 i hcond ih =>
    have := ih (by omega)
    exact ⟨this.1, by omega⟩
  | case2 i hcond =>
    refine ⟨?_, le_refl i⟩
    rcases Nat.lt_or_ge i (byteLen chars) with hlt | hge
    · by_contra hboundary
      rw [← isCharBoundary_iff] at hboundary
      exact hcond ⟨hlt, Bool.eq_false_of_not_eq_true hboundary⟩
    · rw [show i = byteLen chars by omega]
      exact boundary_byteLen chars

structure IsRun (p : Char → Bool) (before run after : List Char) : Prop where
  nonempty : run ≠ []
  all : ∀ c ∈ run, p c = true
  before : ∀ c ∈ before.getLast?, p c = false
  after : ∀ c ∈ after.head?, p c = false

theorem IsRun.cases {p : Char → Bool} {before run after front run' tail : List Char} (h : IsRun p before run after)
    (heq : before ++ run ++ after = front ++ run' ++ tail) (hrun' : ∀ c ∈ run', p c = true)
    (htail : ∀ c ∈ tail.head?, p c = false) (hfront : front <+: before) :
    (before = front ∧ run = run' ∧ after = tail) ∨ ∃ c tail', tail = c :: tail' ∧ front ++ run' ++ [c] <+: before := by
  obtain ⟨gap, rfl⟩ := hfront
  have hrest : gap ++ (run ++ after) = run' ++ tail := by
    rw [append_assoc, append_assoc, append_assoc] at heq
    exact append_cancel_left heq
  rcases append_eq_append_iff.mp hrest with ⟨mid, rfl, hmid⟩ | ⟨mid, rfl, hmid⟩
  · -- the run starts at or before the end of `run'`
    left
    have hgap : gap = [] := by
      rcases eq_nil_or_concat gap with hnil | ⟨gap', c, rfl⟩
      · exact hnil
      · have hout := h.before c (by simp)
        rw [hrun' c (by simp)] at hout
        cases hout
    subst hgap
    rw [nil_append] at hrun'
    rcases append_eq_append_iff.mp hmid with ⟨more, rfl, hmore⟩ | ⟨more, rfl, hmore⟩
    · cases more with
      | nil => exact ⟨append_nil front, by simp, hmore⟩
      | cons c more =>
        have hout := h.after c (by rw [hmore]; rfl)
        rw [hrun' c (by simp)] at hout
        cases hout
    · cases more with
      | nil => exact ⟨append_nil front, by simp, hmore.symm⟩
      | cons c more =>
        have hout := htail c (by rw [hmore]; rfl)
        rw [h.all c (by simp)] at hout
        cases hout
  · right
    cases mid with
    | nil =>
      obtain ⟨c, run, rfl⟩ := exists_cons_of_ne_nil h.nonempty
      have hout := htail c (by rw [hmid]; rfl)
      rw [h.all c mem_cons_self] at hout
      cases hout
    | cons c mid => exact ⟨c, mid ++ (run ++ after), hmid, mid, by simp⟩

end TextSlice

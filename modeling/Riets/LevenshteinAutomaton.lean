/-
The automaton that finds misspelt words.

It reads a word byte by byte.  The first letters of the query must be there as they
are; of the table of edit distances to the rest it keeps two rows, and of a row only
the cells within `maxEdits` of the diagonal.  The bytes of a letter are gathered until
the letter is complete.
-/
import Riets.EditDistance
import Riets.Wildcard
import Riets.CorpusStats

open List

def splitPrefix (term : String) (prefixChars : ℕ) : String × String :=
  (String.ofList (term.toList.take prefixChars), String.ofList (term.toList.drop prefixChars))

def maxSupportedEdits : ℕ := 3

structure FuzzyState where
  /-- Slot `t` is the distance to the first `chars - maxEdits + t` letters of the query. -/
  row : List ℕ
  prevRow : List ℕ
  chars : ℕ
  prevChar : Option Char
  /-- The bytes of a letter that is not complete, and how many it has. -/
  utf8 : ByteSeq
  utf8Need : ℕ

inductive LevState where
  | dead
  | exact (n : ℕ)
  | fuzzy (s : FuzzyState)

structure LevenshteinAutomaton where
  exact : ByteSeq
  keyPrefixLen : ℕ
  query : List Char
  maxEdits : ℕ

def utf8Width (lead : UInt8) : ℕ :=
  if lead.toNat ≤ 0x7f then 1
  else if 0xc2 ≤ lead.toNat ∧ lead.toNat ≤ 0xdf then 2
  else if 0xe0 ≤ lead.toNat ∧ lead.toNat ≤ 0xef then 3
  else if 0xf0 ≤ lead.toNat ∧ lead.toNat ≤ 0xf4 then 4
  else 0

namespace LevenshteinAutomaton

def new (keyPrefix : ByteSeq) (term : String) (maxEdits prefixLength : ℕ) : LevenshteinAutomaton where
  exact := keyPrefix ++ utf8 (splitPrefix term prefixLength).1
  keyPrefixLen := keyPrefix.length
  query := (splitPrefix term prefixLength).2.toList
  maxEdits := min maxEdits maxSupportedEdits

variable (a : LevenshteinAutomaton)

def cap : ℕ := a.maxEdits + 1

def width : ℕ := 2 * a.maxEdits + 1

/-- How much of the query the slot `t` is about, after some letters. -/
def column (chars t : ℕ) : Option ℕ :=
  let j : ℤ := chars - a.maxEdits + t
  if 0 ≤ j ∧ j ≤ a.query.length then some j.toNat else none

def slotAt (row : List ℕ) (t : ℕ) : ℕ := (row[t]?).getD a.cap

def initialFuzzy : LevState :=
  .fuzzy {
    row := (range a.width).map fun t => (a.column 0 t).getD a.cap
    prevRow := []
    chars := 0
    prevChar := none
    utf8 := []
    utf8Need := 0 }

/-- The next slot, from the slots of the new row before it and the two rows before. -/
def nextSlot (s : FuzzyState) (c : Char) (next : List ℕ) (t : ℕ) : ℕ :=
  match a.column (s.chars + 1) t with
  | none => a.cap
  | some j =>
    -- the same column in the row before is one slot to the right
    let up := if t + 1 < a.width then a.slotAt s.row (t + 1) + 1 else a.cap
    if j = 0 then min up a.cap
    else
      let left := if 0 < t then min up (a.slotAt next (t - 1) + 1) else up
      let diag := min left (a.slotAt s.row t + if a.query[j - 1]? ≠ some c then 1 else 0)
      let swapped :=
        match s.prevChar with
        | some p =>
          if 2 ≤ j ∧ 1 ≤ s.chars ∧ c ≠ p ∧ a.query[j - 2]? = some c ∧ a.query[j - 1]? = some p then
            min diag (a.slotAt s.prevRow t + 1)
          else diag
        | none => diag
      min swapped a.cap

def nextRow (s : FuzzyState) (c : Char) : ℕ → List ℕ
  | 0 => []
  | t + 1 =>
    let next := nextRow s c t
    next ++ [a.nextSlot s c next t]

def stepChar (s : FuzzyState) (c : Char) : LevState :=
  let next := a.nextRow s c a.width
  if next.foldl min a.cap > a.maxEdits then .dead
  else .fuzzy {
    row := next
    prevRow := s.row
    chars := s.chars + 1
    prevChar := some c
    utf8 := []
    utf8Need := 0 }

def distance (state : LevState) : Option ℕ :=
  match state with
  | .fuzzy s =>
    if s.utf8Need = 0 then
      let t : ℤ := a.query.length - s.chars + a.maxEdits
      if t < 0 ∨ 2 * a.maxEdits < t then none
      else
        let d := a.slotAt s.row t.toNat
        if d ≤ a.maxEdits then some d else none
    else none
  | _ => none

def start : LevState := if a.exact = [] then a.initialFuzzy else .exact 0

def accept (state : LevState) (byte : UInt8) : LevState :=
  match state with
  | .dead => .dead
  | .exact n =>
    if a.exact[n]? ≠ some byte then .dead
    else if n + 1 = a.exact.length then a.initialFuzzy
    else .exact (n + 1)
  | .fuzzy s =>
    if s.utf8Need = 0 then
      match utf8Width byte with
      | 0 => .dead
      | 1 => a.stepChar s (Char.ofNat byte.toNat)
      | w => .fuzzy { s with utf8 := [byte], utf8Need := w }
    else if byte &&& 0xc0 ≠ 0x80 then .dead
    else
      let pending := { s with utf8 := s.utf8 ++ [byte] }
      if pending.utf8.length < pending.utf8Need then .fuzzy pending
      else
        match (ofUtf8 pending.utf8).bind fun letter => letter.toList.head? with
        | some c => a.stepChar pending c
        | none => .dead

def acceptAll (state : LevState) (bytes : ByteSeq) : LevState := bytes.foldl a.accept state

def distanceTo (word : String) : Option ℕ := a.distance (a.acceptAll a.start (utf8 word))

/-! ### Rows -/

section Rows

variable {a : LevenshteinAutomaton}

variable {t j : ℕ}

theorem column_eq_some {chars : ℕ} :
    a.column chars t = some j ↔ j + a.maxEdits = chars + t ∧ j ≤ a.query.length := by
  rw [column]
  split_ifs with hrange
  · rw [Option.some_inj]
    omega
  · refine ⟨fun h => (by cases h), fun h => ?_⟩
    omega

/-- What a slot should be, when the letters of `w`, the last one first, were read. -/
def cell (a : LevenshteinAutomaton) (w : List Char) (t : ℕ) : ℕ :=
  match a.column w.length t with
  | some j => min (osa w (a.query.take j).reverse) a.cap
  | none => a.cap

def rowOf (a : LevenshteinAutomaton) (w : List Char) : List ℕ := (range a.width).map (a.cell w)

variable {n : ℕ}

theorem slotAt_map_cell (w : List Char) (ht : t < n) :
    a.slotAt ((range n).map (a.cell w)) t = a.cell w t := by
  rw [slotAt, getElem?_map, getElem?_range ht]
  rfl

variable {w : List Char}

theorem slotAt_rowOf (hj : j + a.maxEdits = w.length + t) (hle : j ≤ a.query.length) :
    a.slotAt (a.rowOf w) t = min (osa w (a.query.take j).reverse) a.cap := by
  by_cases ht : t < a.width
  · rw [rowOf, slotAt_map_cell w ht, cell, column_eq_some.mpr ⟨hj, hle⟩]
  · have hfar := (length_le_osa w (a.query.take j).reverse).2
    have hnone : (a.rowOf w)[t]? = none := by
      rw [getElem?_eq_none_iff, rowOf, length_map, length_range]
      omega
    rw [slotAt, hnone, Option.getD_none]
    rw [length_reverse, length_take, min_eq_left hle] at hfar
    simp only [cap, width] at ht ⊢
    omega

/-- The kept rows are those of the letters that were read, the last one first. -/
structure Reads (a : LevenshteinAutomaton) (w : List Char) (s : FuzzyState) : Prop where
  row : s.row = a.rowOf w
  prevRow : ∀ p w', w = p :: w' → s.prevRow = a.rowOf w'
  chars : s.chars = w.length
  prevChar : s.prevChar = w.head?
  complete : s.utf8Need = 0

theorem reads_initial : ∃ s, a.initialFuzzy = .fuzzy s ∧ a.Reads [] s := by
  refine ⟨_, rfl, ⟨?_, fun p w' h => (by cases h), rfl, rfl, rfl⟩⟩
  refine map_congr_left fun t ht => ?_
  rw [mem_range] at ht
  rw [cell, length_nil]
  cases hcol : a.column 0 t with
  | none => rfl
  | some j =>
    obtain ⟨hj, hle⟩ := column_eq_some.mp hcol
    rw [Option.getD_some]
    simp only [osa_nil, length_reverse, length_take, cap, width] at ht ⊢
    omega

theorem up_eq (hj : j + a.maxEdits = w.length + 1 + t) (hle : j ≤ a.query.length)
    (ht : t < a.width) :
    min (if t + 1 < a.width then a.slotAt (a.rowOf w) (t + 1) + 1 else a.cap) a.cap =
      min (osa w (a.query.take j).reverse + 1) a.cap := by
  have hfar := (length_le_osa w (a.query.take j).reverse).2
  rw [length_reverse, length_take, min_eq_left hle] at hfar
  rw [slotAt_rowOf (w := w) (t := t + 1) (by omega) hle]
  split_ifs with hwidth
  · omega
  · simp only [cap, width] at ht hwidth ⊢
    omega

theorem left_eq {c : Char} {i up above : ℕ} (hi : i + 1 + a.maxEdits = w.length + 1 + t)
    (hle : i + 1 ≤ a.query.length) (hup : min up a.cap = min above a.cap) :
    min (if 0 < t then min up (a.slotAt ((range t).map (a.cell (c :: w))) (t - 1) + 1) else up) a.cap =
      min (min above (osa (c :: w) (a.query.take i).reverse + 1)) a.cap := by
  split_ifs with hpos
  · have hcell : a.cell (c :: w) (t - 1) = min (osa (c :: w) (a.query.take i).reverse) a.cap := by
      rw [cell, (column_eq_some (j := i)).mpr ⟨by rw [length_cons]; omega, by omega⟩]
    rw [slotAt_map_cell (c :: w) (by omega), hcell]
    omega
  · have hfar := (length_le_osa (c :: w) (a.query.take i).reverse).1
    rw [length_reverse, length_take, min_eq_left (by omega), length_cons] at hfar
    simp only [cap] at hup ⊢
    omega

variable {left before diag cost swap cap : ℕ}

theorem min_noSwap (hleft : min left cap = min before cap)
    (hswap : diag + cost ≤ swap) :
    min (min left (min diag cap + cost)) cap = min (min before (min (diag + cost) swap)) cap := by
  omega

theorem min_min_cap (a b cap : ℕ) : min (min a b) cap = min (min a cap) (min b cap) := by
  omega

theorem min_swap (hleft : min left cap = min before cap) :
    min (min (min left (min diag cap + cost)) (min swap cap + 1)) cap =
      min (min before (min (diag + cost) (swap + 1))) cap := by
  have hdiag : min (min diag cap + cost) cap = min (diag + cost) cap := by omega
  have hswap : min (min swap cap + 1) cap = min (swap + 1) cap := by omega
  -- each part of the minimum is cut off at the cap on its own
  rw [min_min_cap, min_min_cap left (min diag cap + cost) cap, hleft, hdiag, hswap,
    min_min_cap before (min (diag + cost) (swap + 1)) cap, min_min_cap (diag + cost) (swap + 1) cap, min_assoc]

variable {s : FuzzyState}

theorem nextSlot_eq (h : a.Reads w s) (c : Char) (ht : t < a.width) :
    a.nextSlot s c ((range t).map (a.cell (c :: w))) t = a.cell (c :: w) t := by
  rw [nextSlot, cell, h.chars, length_cons]
  cases hcol : a.column (w.length + 1) t with
  | none => rfl
  | some j =>
    obtain ⟨hj, hle⟩ := column_eq_some.mp hcol
    have hup := up_eq hj hle ht
    rw [← h.row] at hup
    simp only
    cases j with
    | zero =>
      rw [if_pos rfl, hup, take_zero, reverse_nil, osa_nil_right, osa_nil_right, length_cons]
    | succ i =>
      have hleft := left_eq (c := c) hj hle hup
      have hdiag : a.slotAt s.row t = min (osa w (a.query.take i).reverse) a.cap := by
        rw [h.row]
        exact slotAt_rowOf (by omega) (by omega)
      have hquery : a.query[i]? = some a.query[i] := getElem?_eq_getElem hle
      have hcost : (if a.query[i]? ≠ some c then 1 else 0) = if c = a.query[i] then 0 else 1 := by
        rw [hquery]
        by_cases hc : c = a.query[i]
        · rw [if_pos hc, if_neg (not_not.mpr (congrArg some hc.symm))]
        · rw [if_neg hc, if_pos fun heq => hc (Option.some_inj.mp heq).symm]
      have hone : (if c = a.query[i] then 0 else 1) ≤ 1 := by split_ifs <;> omega
      rw [if_neg (Nat.succ_ne_zero i), reverse_take_succ hle, osa_cons_cons, ← reverse_take_succ hle,
        Nat.add_sub_cancel, hcost, hdiag, h.prevChar]
      cases w with
      | nil => exact min_noSwap hleft (Nat.add_le_add_left hone _)
      | cons p w =>
        simp only [head?_cons]
        cases i with
        | zero =>
          rw [if_neg fun hswap => absurd hswap.1 (by omega)]
          exact min_noSwap hleft (Nat.add_le_add_left hone _)
        | succ i =>
          have hprev : a.slotAt s.prevRow t = min (osa w (a.query.take i).reverse) a.cap := by
            rw [h.prevRow p w rfl]
            exact slotAt_rowOf (by rw [length_cons] at hj; omega) (by omega)
          have htake := reverse_take_succ (q := a.query) (i := i) (by omega)
          have hswap : osaSwap c (p :: w) a.query[i + 1] (a.query.take (i + 1)).reverse =
              if c = a.query[i] ∧ p = a.query[i + 1] then osa w (a.query.take i).reverse + 1
              else osa (p :: w) (a.query.take (i + 1)).reverse + 1 := by
            rw [htake]
            rfl
          have hcond : (2 ≤ i + 1 + 1 ∧ 1 ≤ (p :: w).length ∧ c ≠ p ∧ a.query[i + 1 + 1 - 2]? = some c ∧
              a.query[i + 1]? = some p) ↔ c ≠ p ∧ c = a.query[i] ∧ p = a.query[i + 1] := by
            have hbefore : a.query[i + 1 + 1 - 2]? = some a.query[i] := getElem?_eq_getElem (by omega)
            rw [hbefore, hquery, Option.some_inj, Option.some_inj, length_cons]
            constructor
            · rintro ⟨-, -, hne, hc, hp⟩
              exact ⟨hne, hc.symm, hp.symm⟩
            · rintro ⟨hne, hc, hp⟩
              exact ⟨by omega, by omega, hne, hc.symm, hp.symm⟩
          rw [hswap]
          simp only [hcond, hprev]
          by_cases hneighbours : c = a.query[i] ∧ p = a.query[i + 1]
          · rw [if_pos hneighbours]
            by_cases hsame : c = p
            · -- equal neighbours are not swapped, and need not be
              have hbest := osa_le_diag p w a.query[i] (a.query.take i).reverse
              rw [← htake] at hbest
              rw [if_neg fun hne => hne.1 hsame, if_pos (hsame.trans hneighbours.2)]
              exact min_noSwap hleft hbest
            · rw [if_pos ⟨hsame, hneighbours⟩]
              exact min_swap hleft
          · rw [if_neg hneighbours, if_neg fun hne => hneighbours hne.2]
            exact min_noSwap hleft (Nat.add_le_add_left hone _)

theorem nextRow_eq (h : a.Reads w s) (c : Char) (hn : n ≤ a.width) :
    a.nextRow s c n = (range n).map (a.cell (c :: w)) := by
  induction n with
  | zero => rfl
  | succ t ih =>
    rw [nextRow, ih (by omega), nextSlot_eq h c hn, range_succ, map_append]
    rfl

theorem lt_foldl_min {l : List ℕ} {m k : ℕ} : k < l.foldl min m ↔ k < m ∧ ∀ d ∈ l, k < d := by
  induction l generalizing m with
  | nil => simp
  | cons d l ih => rw [foldl_cons, ih, lt_min_iff, forall_mem_cons, and_assoc]

theorem stepChar_spec (h : a.Reads w s) (c : Char) :
    (a.stepChar s c = .dead ∧ Far a.maxEdits (c :: w) a.query) ∨
      ∃ s', a.stepChar s c = .fuzzy s' ∧ a.Reads (c :: w) s' := by
  rw [stepChar, nextRow_eq h c le_rfl]
  split_ifs with hdead
  · refine .inl ⟨rfl, fun i hi => ?_⟩
    obtain ⟨-, hcells⟩ := lt_foldl_min.mp hdead
    obtain ⟨hlong, hshort⟩ := length_le_osa (c :: w) (a.query.take i).reverse
    rw [length_reverse, length_take, min_eq_left hi] at hlong hshort
    -- within the band there is a slot, and outside the lengths differ too much
    by_cases hband : (c :: w).length ≤ i + a.maxEdits ∧ i ≤ (c :: w).length + a.maxEdits
    · have ht : i + a.maxEdits = (c :: w).length + (i + a.maxEdits - (c :: w).length) := by omega
      have hcell := hcells _ (mem_map_of_mem (mem_range.mpr
        (show i + a.maxEdits - (c :: w).length < a.width by rw [width]; omega)))
      rw [cell, column_eq_some.mpr ⟨ht, hi⟩] at hcell
      exact lt_of_lt_of_le hcell (min_le_left _ _)
    · omega
  · refine .inr ⟨_, rfl, rfl, ?_, ?_, rfl, rfl⟩
    · rintro p w' heq
      obtain ⟨rfl, rfl⟩ := cons.inj heq
      exact h.row
    · show s.chars + 1 = _
      rw [h.chars, length_cons]

theorem distance_of_reads (h : a.Reads w s) :
    a.distance (.fuzzy s) =
      if osa w a.query.reverse ≤ a.maxEdits then some (osa w a.query.reverse) else none := by
  obtain ⟨hlong, hshort⟩ := length_le_osa w a.query.reverse
  rw [length_reverse] at hlong hshort
  rw [distance, if_pos h.complete, h.chars]
  simp only
  by_cases hout : (a.query.length : ℤ) - w.length + a.maxEdits < 0 ∨
      2 * (a.maxEdits : ℤ) < a.query.length - w.length + a.maxEdits
  · rw [if_pos hout, if_neg (by omega)]
  · have hslot := slotAt_rowOf (a := a) (w := w) (j := a.query.length)
      (t := ((a.query.length : ℤ) - w.length + a.maxEdits).toNat) (by omega) le_rfl
    rw [take_length] at hslot
    rw [if_neg hout, h.row, hslot]
    by_cases hclose : osa w a.query.reverse ≤ a.maxEdits
    · rw [min_eq_left (by rw [cap]; omega)]
    · rw [if_neg hclose, if_neg (by rw [cap]; omega)]

/-! ### Letters and their bytes -/

theorem acceptAll_append (state : LevState) (bytes rest : ByteSeq) :
    a.acceptAll state (bytes ++ rest) = a.acceptAll (a.acceptAll state bytes) rest := foldl_append

theorem acceptAll_dead (bytes : ByteSeq) : a.acceptAll .dead bytes = .dead := by
  induction bytes with
  | nil => rfl
  | cons b bytes ih => exact ih

theorem utf8EncodeChar_cases (c : Char) : ∃ lead rest, String.utf8EncodeChar c = lead :: rest ∧
    utf8Width lead = rest.length + 1 ∧ (∀ b ∈ rest, b &&& 0xc0 = 0x80) ∧
      (rest = [] → Char.ofNat lead.toNat = c) := by
  have htail : ∀ n < 64, UInt8.ofNat (n + 128) &&& 0xc0 = 0x80 := by decide
  have hmark : ∀ n, UInt8.ofNat (n % 64 + 128) &&& 0xc0 = 0x80 := fun n => htail _ (Nat.mod_lt _ (by omega))
  have hlead : ∀ n < 256, (UInt8.ofNat n).toNat = n := fun n hn => UInt8.toNat_ofNat_of_lt' hn
  have hvalid : c.val.toNat < 0x110000 := by
    have hchar : c.val.toNat < 0xd800 ∨ (0xdfff < c.val.toNat ∧ c.val.toNat < 0x110000) := c.valid
    omega
  rw [String.utf8EncodeChar]
  by_cases hone : c.val.toNat ≤ 0x7f
  · refine ⟨_, _, if_pos hone, ?_, fun b hb => (by cases hb), fun _ => ?_⟩
    · rw [utf8Width, hlead _ (by omega), if_pos hone]
      rfl
    · rw [hlead _ (by omega)]
      exact Char.ofNat_toNat c
  rw [if_neg hone]
  by_cases htwo : c.val.toNat ≤ 0x7ff
  · refine ⟨_, _, if_pos htwo, ?_, ?_, fun hnil => (by cases hnil)⟩
    · rw [utf8Width, hlead _ (by omega), if_neg (by omega), if_pos (by omega)]
      rfl
    · simp only [forall_mem_cons, hmark, true_and]
      exact fun b hb => by cases hb
  rw [if_neg htwo]
  by_cases hthree : c.val.toNat ≤ 0xffff
  · refine ⟨_, _, if_pos hthree, ?_, ?_, fun hnil => (by cases hnil)⟩
    · rw [utf8Width, hlead _ (by omega), if_neg (by omega), if_neg (by omega), if_pos (by omega)]
      rfl
    · simp only [forall_mem_cons, hmark, true_and]
      exact fun b hb => by cases hb
  refine ⟨_, _, if_neg hthree, ?_, ?_, fun hnil => (by cases hnil)⟩
  · rw [utf8Width, hlead _ (by omega), if_neg (by omega), if_neg (by omega), if_neg (by omega), if_pos (by omega)]
    rfl
  · simp only [forall_mem_cons, hmark, true_and]
    exact fun b hb => by cases hb

theorem utf8_ofList (chars : List Char) : utf8 (String.ofList chars) = chars.flatMap String.utf8EncodeChar := by
  rw [utf8, String.toUTF8_eq_toByteArray, ← String.utf8Encode_toList, String.toList_ofList, utf8Encode,
    data_toByteArray]

theorem stepChar_pending (s : FuzzyState) (bytes : ByteSeq) (need : ℕ) (c : Char) :
    a.stepChar { s with utf8 := bytes, utf8Need := need } c = a.stepChar s c := by
  have hrow : ∀ n, a.nextRow { s with utf8 := bytes, utf8Need := need } c n = a.nextRow s c n := by
    intro n
    induction n with
    | zero => rfl
    | succ t ih =>
      rw [nextRow, nextRow, ih]
      rfl
  rw [stepChar, stepChar, hrow]

theorem accept_rest (s : FuzzyState) {c : Char} {read rest : ByteSeq} (hrest : rest ≠ [])
    (hbytes : String.utf8EncodeChar c = read ++ rest) (hmark : ∀ b ∈ rest, b &&& 0xc0 = 0x80) :
    a.acceptAll (.fuzzy { s with utf8 := read, utf8Need := read.length + rest.length }) rest = a.stepChar s c := by
  induction rest generalizing read with
  | nil => exact absurd rfl hrest
  | cons b rest ih =>
    have hneed : ¬(read.length + (b :: rest).length = 0) := by
      rw [length_cons]
      omega
    have hbyte : ¬(b &&& 0xc0 ≠ 0x80) := not_not.mpr (hmark b mem_cons_self)
    rw [acceptAll, foldl_cons, accept, if_neg hneed, if_neg hbyte]
    simp only [length_append, length_singleton]
    cases rest with
    | nil =>
      have hletter : ofUtf8 (read ++ [b]) = some (String.ofList [c]) := by
        rw [← hbytes, ← ofUtf8_utf8 (String.ofList [c]), utf8_ofList, flatMap_singleton]
      rw [if_neg (by rw [length_singleton]; omega), hletter, Option.bind_some, String.toList_ofList]
      exact a.stepChar_pending s _ _ c
    | cons b' rest =>
      rw [if_pos (by rw [length_cons, length_cons]; omega)]
      have hnext := @ih (read ++ [b]) (cons_ne_nil _ _) (by rw [hbytes, append_assoc]; rfl)
        fun b hb => hmark b (mem_cons_of_mem _ hb)
      rw [length_append, length_singleton, Nat.add_assoc, Nat.add_comm 1] at hnext
      exact hnext

theorem accept_char (hcomplete : s.utf8Need = 0) (c : Char) :
    a.acceptAll (.fuzzy s) (String.utf8EncodeChar c) = a.stepChar s c := by
  obtain ⟨lead, rest, hbytes, hwidth, hmark, hsingle⟩ := utf8EncodeChar_cases c
  rw [hbytes, acceptAll, foldl_cons, accept, if_pos hcomplete, hwidth]
  cases rest with
  | nil =>
    show a.stepChar s _ = _
    rw [hsingle rfl]
  | cons b rest =>
    have hrest := @accept_rest a s _ [lead] _ (cons_ne_nil b rest) hbytes hmark
    rw [length_singleton, Nat.add_comm] at hrest
    exact hrest

theorem distance_acceptAll (h : a.Reads w s) (letters : List Char) :
    a.distance (a.acceptAll (.fuzzy s) (letters.flatMap String.utf8EncodeChar)) =
      if osa (letters.reverse ++ w) a.query.reverse ≤ a.maxEdits then
        some (osa (letters.reverse ++ w) a.query.reverse)
      else none := by
  induction letters generalizing w s with
  | nil => exact distance_of_reads h
  | cons c letters ih =>
    have hword : (c :: letters).reverse ++ w = letters.reverse ++ c :: w := by
      rw [reverse_cons, append_assoc, singleton_append]
    rw [flatMap_cons, acceptAll_append, accept_char h.complete, hword]
    rcases stepChar_spec h c with ⟨hdead, hfar⟩ | ⟨s', hstep, hreads⟩
    · have hword := hfar.append letters.reverse a.query.length le_rfl
      rw [take_length] at hword
      rw [hdead, acceptAll_dead, if_neg (by omega)]
      rfl
    · rw [hstep]
      exact ih hreads

theorem acceptAll_exact (hn : n < a.exact.length) (bytes : ByteSeq) :
    a.distance (a.acceptAll (.exact n) bytes) =
      if a.exact.drop n <+: bytes then
        a.distance (a.acceptAll a.initialFuzzy (bytes.drop (a.exact.drop n).length))
      else none := by
  induction bytes generalizing n with
  | nil =>
    rw [if_neg]
    · rfl
    · rw [prefix_nil, drop_eq_nil_iff]
      omega
  | cons b bytes ih =>
    have hdrop : a.exact.drop n = a.exact[n] :: a.exact.drop (n + 1) := drop_eq_getElem_cons hn
    rw [acceptAll, foldl_cons, accept, getElem?_eq_getElem hn, hdrop]
    simp only [cons_prefix_cons]
    by_cases hb : a.exact[n] = b
    · rw [if_neg (not_not.mpr (congrArg some hb))]
      simp only [hb, true_and, length_cons, drop_succ_cons]
      by_cases hlast : n + 1 = a.exact.length
      · rw [if_pos hlast, hlast, drop_length, if_pos nil_prefix]
        rfl
      · rw [if_neg hlast]
        exact ih (by omega)
    · rw [if_pos fun heq => hb (Option.some_inj.mp heq), if_neg fun hpre => hb hpre.1]
      exact congrArg a.distance (a.acceptAll_dead bytes)

end Rows

theorem distance_start (a : LevenshteinAutomaton) (bytes : ByteSeq) : a.distance (a.acceptAll a.start bytes) =
    if a.exact <+: bytes then a.distance (a.acceptAll a.initialFuzzy (bytes.drop a.exact.length)) else none := by
  rw [start]
  split_ifs with hexact hstarts hstarts
  · rw [hexact]
    rfl
  · exact absurd (hexact ▸ nil_prefix) hstarts
  · rw [acceptAll_exact (length_pos_iff.mpr hexact), drop_zero, if_pos hstarts]
  · rw [acceptAll_exact (length_pos_iff.mpr hexact), drop_zero, if_neg hstarts]

theorem distanceTo_eq (term : String) (maxEdits prefixLength : ℕ) (word : String) :
    (new [] term maxEdits prefixLength).distanceTo word =
      if StartsWith word (splitPrefix term prefixLength).1 then
        withinEdits (min maxEdits maxSupportedEdits)
          (word.toList.drop (splitPrefix term prefixLength).1.toList.length) (splitPrefix term prefixLength).2.toList
      else none := by
  rw [distanceTo, distance_start]
  by_cases hfixed : StartsWith word (splitPrefix term prefixLength).1
  · obtain ⟨rest, hrest⟩ := startsWith_iff.mp hfixed
    have hbytes : utf8 word = utf8 (splitPrefix term prefixLength).1 ++ rest.flatMap String.utf8EncodeChar := by
      rw [← String.ofList_toList (s := word), ← hrest, utf8_ofList, flatMap_append, ← utf8_ofList,
        String.ofList_toList]
    obtain ⟨s, hinitial, hreads⟩ := reads_initial (a := new [] term maxEdits prefixLength)
    rw [if_pos hfixed, if_pos (show (new [] term maxEdits prefixLength).exact <+: utf8 word from hfixed), hinitial,
      hbytes]
    have hdrop : (utf8 (splitPrefix term prefixLength).1 ++ rest.flatMap String.utf8EncodeChar).drop
        (new [] term maxEdits prefixLength).exact.length = rest.flatMap String.utf8EncodeChar := drop_left
    rw [hdrop, distance_acceptAll hreads, append_nil, ← hrest, drop_left]
    rfl
  · rw [if_neg hfixed, if_neg (show ¬(new [] term maxEdits prefixLength).exact <+: utf8 word from hfixed)]

end LevenshteinAutomaton

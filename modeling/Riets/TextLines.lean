/-
Lines of text and decimal numbers in byte sequences.

`lines` splits a text at its newlines as `str::lines` does: a carriage return before
a newline belongs to the line ending, and a text need not end with a newline.
`decimal` writes a number in decimal digits, `parseDecimal` reads it back.
-/
import Mathlib.Data.Nat.Digits.Lemmas
import Riets.Bytes

namespace Text

open List Option Nat

def newline : UInt8 := 10

def carriageReturn : UInt8 := 13

def line (text : ByteSeq) : ByteSeq := text ++ [newline]

def stripReturn (text : ByteSeq) : ByteSeq :=
  if text.getLast? = some carriageReturn then text.dropLast else text

/-- Splits at newlines; `current` is the line so far. -/
def linesFrom : ByteSeq → ByteSeq → List ByteSeq
  | current, [] => if current = [] then [] else [current]
  | current, b :: rest =>
    if b = newline then stripReturn current :: linesFrom [] rest else linesFrom (current ++ [b]) rest

def lines (text : ByteSeq) : List ByteSeq := linesFrom [] text

def completeLines (text : ByteSeq) : ByteSeq := (text.reverse.dropWhile (· ≠ newline)).reverse

structure IsLine (text : ByteSeq) : Prop where
  nonempty : text ≠ []
  newline : newline ∉ text
  carriageReturn : carriageReturn ∉ text

variable {text rest : ByteSeq} {texts : List ByteSeq}

theorem IsLine.stripReturn (h : IsLine text) : stripReturn text = text := by
  rw [Text.stripReturn, if_neg]
  intro hlast
  exact h.carriageReturn (mem_of_getLast? hlast)

theorem linesFrom_append (h : newline ∉ text) (current rest : ByteSeq) :
    linesFrom current (text ++ rest) = linesFrom (current ++ text) rest := by
  induction text generalizing current with
  | nil => rw [nil_append, append_nil]
  | cons b text ih =>
    have hb : b ≠ newline := fun heq => h (heq ▸ mem_cons_self)
    rw [cons_append, linesFrom, if_neg hb, ih fun hin => h (mem_cons_of_mem b hin), append_assoc]
    rfl

theorem lines_line_append (h : IsLine text) : lines (line text ++ rest) = text :: lines rest := by
  rw [lines, line, append_assoc, linesFrom_append h.newline, nil_append,
    singleton_append, linesFrom, if_pos rfl, h.stripReturn]
  rfl

theorem lines_flatMap (h : ∀ text ∈ texts, IsLine text) : lines (texts.flatMap line) = texts := by
  induction texts with
  | nil => rfl
  | cons text texts ih =>
    rw [flatMap_cons, lines_line_append (h text mem_cons_self),
      ih fun t ht => h t (mem_cons_of_mem text ht)]

theorem completeLines_append (h : newline ∉ rest) :
    completeLines (texts.flatMap line ++ rest) = texts.flatMap line := by
  have hrest : ∀ b ∈ rest.reverse, decide (b ≠ newline) = true := by
    intro b hb
    have hne : b ≠ newline := fun heq => h (heq ▸ mem_reverse.mp hb)
    simpa using hne
  rw [completeLines, reverse_append, dropWhile_append_of_pos hrest]
  cases texts using reverseRecOn with
  | nil => rfl
  | append_singleton texts last =>
    rw [flatMap_append, flatMap_singleton, line, ← append_assoc, reverse_concat,
      dropWhile_cons, if_neg (by simp), ← reverse_concat, reverse_reverse]

/-! ### Decimal numbers -/

def digit (n : ℕ) : UInt8 := UInt8.ofNat (48 + n)

def digitValue (b : UInt8) : Option ℕ := if 48 ≤ b.toNat ∧ b.toNat ≤ 57 then some (b.toNat - 48) else none

def decimal (n : ℕ) : ByteSeq := if n = 0 then [digit 0] else ((digits 10 n).map digit).reverse

def parseDecimal (text : ByteSeq) : Option ℕ :=
  if text = [] then none
  else text.foldlM (fun n b => (digitValue b).map (10 * n + ·)) 0

theorem digitValue_digit : ∀ n < 10, digitValue (digit n) = some n := by decide

theorem foldlM_digits {digits : List ℕ} (h : ∀ n ∈ digits, n < 10) :
    (digits.map digit).reverse.foldlM (fun n b => (digitValue b).map (10 * n + ·)) 0 =
      some (ofDigits 10 digits) := by
  induction digits with
  | nil => rfl
  | cons n digits ih =>
    rw [map_cons, reverse_cons, foldlM_append,
      ih fun m hm => h m (mem_cons_of_mem n hm), ofDigits_cons]
    simp only [bind_eq_bind, bind_some, foldlM_cons, foldlM_nil,
      digitValue_digit n (h n mem_cons_self), map_some]
    rw [add_comm]
    rfl

theorem parseDecimal_decimal (n : ℕ) : parseDecimal (decimal n) = some n := by
  rw [decimal]
  split_ifs with hn
  · subst hn
    decide
  · have hne : ((digits 10 n).map digit).reverse ≠ [] := by
      rw [ne_eq, reverse_eq_nil_iff, map_eq_nil_iff]
      exact digits_ne_nil_iff_ne_zero.mpr hn
    rw [parseDecimal, if_neg hne, foldlM_digits fun m hm => digits_lt_base (by decide) hm,
      ofDigits_digits]

theorem digit_of_mem_decimal {n : ℕ} {b : UInt8} (hb : b ∈ decimal n) :
    48 ≤ b.toNat ∧ b.toNat ≤ 57 := by
  have hdigit : ∀ n < 10, 48 ≤ (digit n).toNat ∧ (digit n).toNat ≤ 57 := by decide
  rw [decimal] at hb
  split_ifs at hb
  · rw [mem_singleton.mp hb]
    exact hdigit 0 (by decide)
  · obtain ⟨m, hm, rfl⟩ := mem_map.mp (mem_reverse.mp hb)
    exact hdigit m (digits_lt_base (by decide) hm)

theorem decimal_ne_nil (n : ℕ) : decimal n ≠ [] := by
  intro hnil
  have hparse := parseDecimal_decimal n
  rw [hnil] at hparse
  cases hparse

theorem isLine_decimal (n : ℕ) : IsLine (decimal n) where
  nonempty := decimal_ne_nil n
  newline hin := absurd (digit_of_mem_decimal hin) (by decide)
  carriageReturn hin := absurd (digit_of_mem_decimal hin) (by decide)

end Text

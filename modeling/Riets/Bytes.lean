/-
Numbers in byte sequences, and readers of byte sequences.

`leBytes w n` is the `w`-byte little-endian form of `n`, cut to `w` bytes as a
cast to a machine integer cuts it; `leNat` reads bytes back.

A `ByteReader` consumes bytes from the front and fails at an unexpected end or on
invalid data.  `Decodes r bytes a` says that `r` reads `a` off `bytes` whatever
follows, and that every shorter piece of `bytes` ends too early for it.  It is
closed under sequencing, so a format is verified field by field.
-/
import Mathlib.Order.Lattice.Nat
import Mathlib.Algebra.GroupWithZero.Nat

open List

abbrev ByteSeq := List UInt8

def leBytes : ℕ → ℕ → ByteSeq
  | 0, _ => []
  | w + 1, n => UInt8.ofNat n :: leBytes w (n / 256)

def leNat : ByteSeq → ℕ
  | [] => 0
  | b :: bs => b.toNat + 256 * leNat bs

@[simp] theorem length_leBytes (w n : ℕ) : (leBytes w n).length = w := by
  induction w generalizing n with
  | zero => rfl
  | succ w ih => rw [leBytes, length_cons, ih]

theorem leNat_leBytes (w n : ℕ) : leNat (leBytes w n) = n % 256 ^ w := by
  induction w generalizing n with
  | zero => rw [pow_zero, Nat.mod_one]; rfl
  | succ w ih =>
    have hbyte : (UInt8.ofNat n).toNat = n % 256 := UInt8.toNat_ofNat'
    rw [leBytes, leNat, ih, hbyte, pow_succ', Nat.mod_mul]

theorem leNat_leBytes_of_lt {w n : ℕ} (h : n < 256 ^ w) : leNat (leBytes w n) = n := by
  rw [leNat_leBytes, Nat.mod_eq_of_lt h]

def readBytes (n : ℕ) (bytes : ByteSeq) : Option (ByteSeq × ByteSeq) :=
  if n ≤ bytes.length then some (bytes.take n, bytes.drop n) else none

/-- Bytes written to a file at an offset; a gap before them is filled with
zeros. -/
def writeAt (old : ByteSeq) (offset : ℕ) (bytes : ByteSeq) : ByteSeq :=
  old.take offset ++ replicate (offset - old.length) 0 ++ bytes ++
    old.drop (offset + bytes.length)

theorem writeAt_append (old more bytes : ByteSeq) :
    writeAt (old ++ more) old.length bytes = old ++ (bytes ++ more.drop bytes.length) := by
  have hdrop : (old ++ more).drop (old.length + bytes.length) = more.drop bytes.length := by
    rw [← drop_drop, drop_left]
  have hgap : old.length - (old ++ more).length = 0 := by
    rw [length_append]
    omega
  rw [writeAt, take_left, hdrop, hgap]
  simp

theorem leBytes_leNat (bytes : ByteSeq) : leBytes bytes.length (leNat bytes) = bytes := by
  induction bytes with
  | nil => rfl
  | cons b bytes ih =>
    have hlow : UInt8.ofNat (b.toNat + 256 * leNat bytes) = b := by
      rw [← UInt8.toNat_inj, UInt8.toNat_ofNat']
      have := b.toNat_lt
      omega
    have hhigh : (b.toNat + 256 * leNat bytes) / 256 = leNat bytes := by
      have := b.toNat_lt
      omega
    rw [length_cons, leNat, leBytes, hlow, hhigh, ih]

theorem leNat_lt (bytes : ByteSeq) : leNat bytes < 256 ^ bytes.length := by
  induction bytes with
  | nil => exact Nat.one_pos
  | cons b bytes ih =>
    have := b.toNat_lt
    rw [leNat, length_cons, pow_succ]
    omega

/-! ### Readers -/

theorem Except.of_bind_ok {ε α β : Type} {o : Except ε α} {f : α → Except ε β} {b : β}
    (h : o >>= f = .ok b) : ∃ a, o = .ok a ∧ f a = .ok b := by
  cases o with
  | error e => cases h
  | ok a => exact ⟨a, rfl, h⟩

inductive ReadError where
  | unexpectedEof
  | invalidData
  deriving DecidableEq

abbrev ByteReader (α : Type) := StateT ByteSeq (Except ReadError) α

def readExact (n : ℕ) : ByteReader ByteSeq := fun bytes =>
  if n ≤ bytes.length then .ok (bytes.take n, bytes.drop n) else .error .unexpectedEof

/-- The reader reads `a` off `bytes` and nothing more, and finds the end too
early in every piece cut off the end of `bytes`. -/
structure Decodes {α : Type} (r : ByteReader α) (bytes : ByteSeq) (a : α) : Prop where
  whole : ∀ rest, r (bytes ++ rest) = .ok (a, rest)
  torn : ∀ piece, piece <+: bytes → piece ≠ bytes → r piece = .error .unexpectedEof

namespace Decodes

open List

variable {α β : Type} {r : ByteReader α} {f : α → ByteReader β} {bytes bytes' : ByteSeq} {a : α} {b : β}

theorem pure (a : α) : Decodes (Pure.pure a) [] a where
  whole _ := rfl
  torn _ hpre hne := absurd (prefix_nil.1 hpre) hne

theorem bind (h : Decodes r bytes a) (h' : Decodes (f a) bytes' b) :
    Decodes (r >>= f) (bytes ++ bytes') b where
  whole rest := by
    show Except.bind (r (bytes ++ bytes' ++ rest)) _ = _
    rw [append_assoc, h.whole]
    exact h'.whole rest
  torn piece hpre hne := by
    show Except.bind (r piece) _ = _
    rcases prefix_or_prefix_of_prefix hpre (prefix_append bytes bytes') with
      hleft | ⟨piece', rfl⟩
    · by_cases heq : piece = bytes
      -- the first field is there, the second has not begun
      · rw [heq, ← append_nil bytes, h.whole []]
        refine h'.torn [] nil_prefix ?_
        rintro rfl
        exact hne (by rw [heq, append_nil])
      · rw [h.torn piece hleft heq]
        rfl
    · rw [h.whole piece']
      refine h'.torn piece' ((prefix_append_right_inj bytes).1 hpre) ?_
      rintro rfl
      exact hne rfl

theorem bind_pure (h : Decodes r bytes a) (g : α → β) :
    Decodes (r >>= fun a => Pure.pure (g a)) bytes (g a) := by
  have := h.bind (f := fun a => Pure.pure (g a)) (pure (g a))
  rwa [append_nil] at this

theorem map (h : Decodes r bytes a) (g : α → β) : Decodes (g <$> r) bytes (g a) where
  whole rest := by
    show Except.bind (r (bytes ++ rest)) _ = _
    rw [h.whole]
    rfl
  torn piece hpre hne := by
    show Except.bind (r piece) _ = _
    rw [h.torn piece hpre hne]
    rfl

theorem exact {n : ℕ} (h : bytes.length = n) : Decodes (readExact n) bytes bytes where
  whole rest := by
    rw [readExact, if_pos (by simp [h]), take_left' h, drop_left' h]
  torn piece hpre hne := by
    have hlt : piece.length < bytes.length := lt_of_le_of_ne hpre.length_le fun heq =>
      hne (hpre.eq_of_length heq)
    rw [readExact, if_neg (by omega)]

end Decodes

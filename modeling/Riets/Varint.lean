/-
Variable length numbers.

A number is written seven bits a byte, lowest first; every byte but the last has its
high bit set.  Reading stops with an error at the end of the bytes and at a number
of more than 64 bits.
-/
import Riets.Fallible

open Fallible

/-- The bytes of a number, at most `n + 1` of them. -/
def pushVarFrom : ℕ → ℕ → ByteSeq
  | 0, value => [UInt8.ofNat value]
  | n + 1, value =>
    if 0x80 ≤ value then (UInt8.ofNat value &&& 0x7f ||| 0x80) :: pushVarFrom n (value >>> 7)
    else [UInt8.ofNat value]

def pushVar (value : ℕ) : ByteSeq := pushVarFrom 9 value

abbrev VarReader (α : Type) := StateT ByteSeq Fallible α

def readVarFrom : ByteSeq → ℕ → ℕ → Fallible (ℕ × ByteSeq)
  | [], _, _ => .err "unexpected eof while reading varint"
  | byte :: rest, shift, value =>
    let value := value ||| (((byte &&& 0x7f).toNat <<< shift) % 2 ^ 64)
    if byte &&& 0x80 = 0 then .ok (value, rest)
    else if shift + 7 ≥ 64 then .err "varint too large"
    else readVarFrom rest (shift + 7) value

def readVar : VarReader ℕ := fun bytes => readVarFrom bytes 0 0

/-- A number that has to fit into `w` bits. -/
def readVarFitting (w : ℕ) (message : String) : VarReader ℕ := fun bytes => do
  let (value, rest) ← readVar bytes
  if value < 2 ^ w then return (value, rest) else .err message

theorem returns_readVarFrom (bytes : ByteSeq) (shift value : ℕ) :
    (readVarFrom bytes shift value).Returns := by
  induction bytes generalizing shift value with
  | nil => exact returns_err _
  | cons byte rest ih =>
    rw [readVarFrom]
    split_ifs
    · exact returns_ok _
    · exact returns_err _
    · exact ih _ _

theorem returns_readVar (bytes : ByteSeq) : (readVar bytes).Returns := returns_readVarFrom bytes 0 0

theorem returns_readVarFitting (w : ℕ) (message : String) (bytes : ByteSeq) :
    (readVarFitting w message bytes).Returns := by
  rw [readVarFitting, returns_bind]
  refine ⟨returns_readVar bytes, fun ⟨value, rest⟩ _ => ?_⟩
  simp only
  split_ifs
  · exact returns_ok _
  · exact returns_err _

theorem toNat_and_low (b : UInt8) : (b &&& 0x7f).toNat = b.toNat % 128 := by
  rw [UInt8.toNat_and]
  exact Nat.and_two_pow_sub_one_eq_mod b.toNat 7

theorem toNat_more (value : ℕ) : (UInt8.ofNat value &&& 0x7f ||| 0x80).toNat = value % 128 + 128 := by
  have hlow : (UInt8.ofNat value &&& 0x7f).toNat = value % 128 := by
    rw [toNat_and_low, UInt8.toNat_ofNat']
    omega
  rw [UInt8.toNat_or, hlow]
  have hor := Nat.two_pow_add_eq_or_of_lt (i := 7) (Nat.mod_lt value (by decide : 0 < 128)) 1
  show value % 128 ||| 128 = value % 128 + 128
  rw [Nat.or_comm, Nat.add_comm]
  exact hor.symm

theorem and_high_eq_zero {b : UInt8} : b &&& 0x80 = 0 ↔ b.toNat < 128 := by
  have hbits : ∀ n : Fin 256, n.val &&& 128 = n.val / 128 * 128 := by decide +kernel
  have hand : (b &&& 0x80).toNat = b.toNat / 128 * 128 := by
    rw [UInt8.toNat_and]
    exact hbits ⟨b.toNat, b.toNat_lt⟩
  rw [← UInt8.toNat_inj, hand]
  show b.toNat / 128 * 128 = 0 ↔ _
  omega

theorem or_shift {acc low s : ℕ} (hacc : acc < 2 ^ s) (hfits : low * 2 ^ s < 2 ^ 64) :
    acc ||| ((low <<< s) % 2 ^ 64) = acc + low * 2 ^ s := by
  rw [Nat.shiftLeft_eq, Nat.mod_eq_of_lt hfits, Nat.or_comm, Nat.mul_comm,
    ← Nat.two_pow_add_eq_or_of_lt hacc, Nat.add_comm]

theorem readVarFrom_last {value s acc : ℕ} (hvalue : value < 128) (hfits : value * 2 ^ s < 2 ^ 64)
    (hacc : acc < 2 ^ s) (rest : ByteSeq) :
    readVarFrom (UInt8.ofNat value :: rest) s acc = .ok (acc + value * 2 ^ s, rest) := by
  have hbyte : (UInt8.ofNat value).toNat = value := by
    rw [UInt8.toNat_ofNat']
    omega
  have hlow : (UInt8.ofNat value &&& 0x7f).toNat = value := by
    rw [toNat_and_low, hbyte]
    omega
  rw [readVarFrom, hlow, or_shift hacc hfits, if_pos (and_high_eq_zero.mpr (hbyte.trans_lt hvalue))]

theorem readVarFrom_pushVarFrom (n : ℕ) {value s acc : ℕ} (hvalue : value < 128 ^ (n + 1))
    (hfits : value * 2 ^ s < 2 ^ 64) (hacc : acc < 2 ^ s) (rest : ByteSeq) :
    readVarFrom (pushVarFrom n value ++ rest) s acc = .ok (acc + value * 2 ^ s, rest) := by
  induction n generalizing value s acc with
  | zero => exact readVarFrom_last (by simpa using hvalue) hfits hacc rest
  | succ n ih =>
    rw [pushVarFrom]
    by_cases hsmall : 0x80 ≤ value
    · rw [if_pos hsmall, List.cons_append, readVarFrom]
      have hbyte := toNat_more value
      have hlow : ((UInt8.ofNat value &&& 0x7f ||| 0x80) &&& 0x7f).toNat = value % 128 := by
        rw [toNat_and_low, hbyte]
        omega
      have hpart : value % 128 * 2 ^ s < 2 ^ 64 :=
        (Nat.mul_le_mul_right _ (Nat.mod_le value 128)).trans_lt hfits
      -- a byte follows only when it has room in 64 bits
      have hroom : s + 7 < 64 := by
        have hpow : 2 ^ (s + 7) < 2 ^ 64 := by
          refine lt_of_le_of_lt ?_ hfits
          rw [Nat.pow_add, Nat.mul_comm]
          exact Nat.mul_le_mul_right _ hsmall
        exact (Nat.pow_lt_pow_iff_right (by decide)).mp hpow
      have hhigh : ¬ (UInt8.ofNat value &&& 0x7f ||| 0x80) &&& 0x80 = 0 := by
        rw [and_high_eq_zero, hbyte]
        omega
      have hdiv : value >>> 7 = value / 128 := Nat.shiftRight_eq_div_pow value 7
      have hsplit : value % 128 * 2 ^ s + value / 128 * 2 ^ (s + 7) = value * 2 ^ s := by
        rw [Nat.pow_add, ← Nat.mul_assoc, Nat.mul_right_comm, ← Nat.add_mul, Nat.mul_comm (value / 128)]
        congr 1
        exact Nat.mod_add_div value 128
      rw [hlow, or_shift hacc hpart, if_neg hhigh, if_neg (by omega), hdiv, ih]
      · rw [Nat.add_assoc, hsplit]
      · rw [Nat.pow_succ] at hvalue
        exact Nat.div_lt_of_lt_mul (by rwa [Nat.mul_comm])
      · omega
      · have hlt : value % 128 < 128 := Nat.mod_lt value (by decide)
        calc acc + value % 128 * 2 ^ s < 2 ^ s + 127 * 2 ^ s :=
              Nat.add_lt_add_of_lt_of_le hacc (Nat.mul_le_mul_right _ (by omega))
          _ = 2 ^ (s + 7) := by rw [Nat.pow_add]; omega
    · rw [if_neg hsmall]
      exact readVarFrom_last (by omega) hfits hacc rest

theorem readVar_pushVar {value : ℕ} (h : value < 2 ^ 64) (rest : ByteSeq) :
    readVar (pushVar value ++ rest) = .ok (value, rest) := by
  have hfits : value * 2 ^ 0 < 2 ^ 64 := by simpa using h
  have hacc : 0 < 2 ^ 0 := by decide
  have hread := readVarFrom_pushVarFrom 9 (h.trans (by decide)) hfits hacc rest
  rw [Nat.zero_add, pow_zero, Nat.mul_one] at hread
  exact hread

theorem readVarFitting_pushVar {w value : ℕ} (hw : w ≤ 64) (h : value < 2 ^ w) (message : String)
    (rest : ByteSeq) : readVarFitting w message (pushVar value ++ rest) = .ok (value, rest) := by
  have hvalue : value < 2 ^ 64 := h.trans_le (Nat.pow_le_pow_right (by decide) hw)
  rw [readVarFitting, readVar_pushVar hvalue, ok_bind]
  exact if_pos h

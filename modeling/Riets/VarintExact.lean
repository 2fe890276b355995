/-
What the variable length readers accept.

An encoding is a run of bytes with the high bit set and one without it; it denotes the
number whose digits to the base 128 are its low seven bits, lowest first.  A reader takes
at most ten bytes and keeps 64 bits, so the tenth byte has one usable bit.
-/
import Riets.Varint

open Fallible List

def denotes : ByteSeq → ℕ
  | [] => 0
  | byte :: bytes => byte.toNat % 128 + 128 * denotes bytes

inductive IsCode : ByteSeq → Prop
  | last {byte : UInt8} (h : byte.toNat < 128) : IsCode [byte]
  | more {byte : UInt8} {code : ByteSeq} (h : 128 ≤ byte.toNat) (hcode : IsCode code) : IsCode (byte :: code)

inductive VarType where
  | u16
  | u32
  | u64

namespace VarType

def bits : VarType → ℕ
  | u16 => 16
  | u32 => 32
  | u64 => 64

/-- `read_var_u16`, `read_var_u32` and `read_var_u64`. -/
def read : VarType → VarReader ℕ
  | u16 => readVarFitting 16 "varint does not fit into u16"
  | u32 => readVarFitting 32 "varint does not fit into u32"
  | u64 => readVar

def readAt (t : VarType) (input : ByteSeq) (offset : ℕ) : Fallible (ℕ × ℕ) := do
  let (value, rest) ← t.read (input.drop offset)
  return (value, input.length - rest.length)

end VarType

theorem IsCode.ne_nil {code : ByteSeq} (h : IsCode code) : code ≠ [] := by
  cases h <;> exact cons_ne_nil _ _

theorem IsCode.eq_of_append {code code' rest rest' : ByteSeq} (h : IsCode code) (h' : IsCode code')
    (heq : code ++ rest = code' ++ rest') : code = code' := by
  induction h generalizing code' with
  | last hlow =>
    cases h' with
    | last _ => exact congrArg (· :: []) (cons.inj heq).1
    | more hhigh _ =>
      have hbyte := (cons.inj heq).1
      subst hbyte
      omega
  | more hhigh _ ih =>
    cases h' with
    | last hlow =>
      have hbyte := (cons.inj heq).1
      subst hbyte
      omega
    | more _ hcode' =>
      obtain ⟨hbyte, htail⟩ := cons.inj heq
      rw [hbyte, ih hcode' htail]

theorem pushVarFrom_spec (n : ℕ) {value : ℕ} (hvalue : value < 128 ^ (n + 1)) :
    IsCode (pushVarFrom n value) ∧ denotes (pushVarFrom n value) = value ∧
      (pushVarFrom n value).length ≤ n + 1 := by
  have hlast : ∀ {v : ℕ}, v < 128 → IsCode [UInt8.ofNat v] ∧ denotes [UInt8.ofNat v] = v := by
    intro v hv
    have hbyte : (UInt8.ofNat v).toNat = v := by
      rw [UInt8.toNat_ofNat']
      omega
    refine ⟨.last (hbyte.trans_lt hv), ?_⟩
    rw [denotes, denotes, hbyte]
    omega
  induction n generalizing value with
  | zero =>
    rw [pushVarFrom]
    obtain ⟨hcode, hval⟩ := hlast (show value < 128 by omega)
    exact ⟨hcode, hval, le_rfl⟩
  | succ n ih =>
    rw [pushVarFrom]
    split_ifs with hsmall
    · have hdiv : value >>> 7 = value / 128 := Nat.shiftRight_eq_div_pow value 7
      have hlt : value / 128 < 128 ^ (n + 1) := by
        rw [Nat.pow_succ] at hvalue
        exact Nat.div_lt_of_lt_mul (by rwa [Nat.mul_comm])
      obtain ⟨hcode, hval, hlength⟩ := ih hlt
      have hbyte := toNat_more value
      rw [hdiv]
      refine ⟨.more (by omega) hcode, ?_, Nat.succ_le_succ hlength⟩
      rw [denotes, hval, hbyte]
      omega
    · obtain ⟨hcode, hval⟩ := hlast (show value < 128 by omega)
      exact ⟨hcode, hval, by show 1 ≤ _; omega⟩

theorem denotes_append (head : ByteSeq) (tail : ByteSeq) :
    denotes (head ++ tail) = denotes head + denotes tail * 128 ^ head.length := by
  induction head with
  | nil =>
    rw [nil_append, denotes, length_nil, Nat.pow_zero, Nat.mul_one, Nat.zero_add]
  | cons byte head ih =>
    rw [cons_append, denotes, denotes, ih, length_cons, Nat.pow_succ, Nat.mul_add, Nat.add_assoc]
    congr 2
    rw [Nat.mul_comm 128, Nat.mul_assoc]

theorem denotes_lt (code : ByteSeq) : denotes code < 128 ^ code.length := by
  induction code with
  | nil => exact Nat.one_pos
  | cons byte code ih =>
    rw [denotes, length_cons, Nat.pow_succ]
    omega

theorem IsCode.last_lt {head : ByteSeq} {last : UInt8} (h : IsCode (head ++ [last])) : last.toNat < 128 := by
  induction head with
  | nil =>
    cases h with
    | last hlow => exact hlow
    | more _ hcode => exact absurd rfl hcode.ne_nil
  | cons byte head ih =>
    generalize hcode : byte :: head ++ [last] = code at h
    cases h with
    | last hlow =>
      rw [cons_append, cons.injEq] at hcode
      exact absurd hcode.2 (by simp)
    | more _ htail =>
      rw [cons_append, cons.injEq] at hcode
      exact ih (hcode.2 ▸ htail)

theorem denotes_tenth {head : ByteSeq} {tenth : UInt8} (hcode : IsCode (head ++ [tenth]))
    (hlength : head.length = 9) :
    denotes (head ++ [tenth]) = denotes head + tenth.toNat * 2 ^ 63 ∧
      denotes (head ++ [tenth]) % 2 ^ 64 = denotes head + tenth.toNat % 2 * 2 ^ 63 := by
  have hhead := denotes_lt head
  have hlast := hcode.last_lt
  rw [hlength] at hhead
  have hsum : denotes (head ++ [tenth]) = denotes head + tenth.toNat * 2 ^ 63 := by
    rw [denotes_append, hlength, denotes, denotes, Nat.mul_zero, Nat.add_zero, Nat.mod_eq_of_lt hlast]
    rfl
  exact ⟨hsum, by omega⟩

/-! ### Reading -/

theorem or_byte {k acc low : ℕ} (hk : k ≤ 9) (hlow : low < 128) (hacc : acc < 2 ^ (7 * k)) :
    acc ||| (low <<< (7 * k) % 2 ^ 64) = (acc + low * 2 ^ (7 * k)) % 2 ^ 64 := by
  have hor : ∀ b, acc ||| (b * 2 ^ (7 * k)) = acc + b * 2 ^ (7 * k) := by
    intro b
    rw [Nat.or_comm, Nat.mul_comm, ← Nat.two_pow_add_eq_or_of_lt hacc, Nat.add_comm]
  rw [Nat.shiftLeft_eq]
  rcases Nat.lt_or_ge k 9 with hlt | hge
  · have hpow : 2 ^ (7 * k) * 128 ≤ 2 ^ 63 :=
      calc 2 ^ (7 * k) * 128 = 2 ^ (7 * k + 7) := by rw [Nat.pow_add]
        _ ≤ 2 ^ 63 := Nat.pow_le_pow_right (by decide) (by omega)
    have hprod : low * 2 ^ (7 * k) ≤ 127 * 2 ^ (7 * k) := Nat.mul_le_mul_right _ (by omega)
    rw [Nat.mod_eq_of_lt (by omega), hor, Nat.mod_eq_of_lt (by omega)]
  · obtain rfl : k = 9 := by omega
    have hkept : low * 2 ^ (7 * 9) % 2 ^ 64 = low % 2 * 2 ^ (7 * 9) := by omega
    rw [hkept, hor]
    omega

theorem readVarFrom_code {code : ByteSeq} (hcode : IsCode code) {k acc : ℕ} (hlength : k + code.length ≤ 10)
    (hacc : acc < 2 ^ (7 * k)) (rest : ByteSeq) :
    readVarFrom (code ++ rest) (7 * k) acc = .ok ((acc + denotes code * 2 ^ (7 * k)) % 2 ^ 64, rest) := by
  induction hcode generalizing k acc with
  | last hlow =>
    rename_i byte
    rw [length_singleton] at hlength
    rw [cons_append, readVarFrom, if_pos (and_high_eq_zero.2 hlow), toNat_and_low,
      or_byte (by omega) (Nat.mod_lt _ (by decide)) hacc, denotes, denotes, Nat.mul_zero, Nat.add_zero,
      nil_append]
  | more hhigh hcode ih =>
    rename_i byte code
    rw [length_cons] at hlength
    have hpos := length_pos_iff.2 hcode.ne_nil
    have hpow : 2 ^ (7 * (k + 1)) = 2 ^ (7 * k) * 128 := by rw [Nat.mul_add, Nat.pow_add]
    have hle : 2 ^ (7 * (k + 1)) ≤ 2 ^ 64 := Nat.pow_le_pow_right (by decide) (by omega)
    have hprod : byte.toNat % 128 * 2 ^ (7 * k) ≤ 127 * 2 ^ (7 * k) := Nat.mul_le_mul_right _ (by omega)
    rw [cons_append, readVarFrom, if_neg (fun h => absurd (and_high_eq_zero.1 h) (by omega)),
      if_neg (by omega), toNat_and_low, or_byte (by omega) (Nat.mod_lt _ (by decide)) hacc,
      Nat.mod_eq_of_lt (by omega), show 7 * k + 7 = 7 * (k + 1) from rfl, ih (by omega) (by omega), denotes,
      hpow, Nat.add_mul, Nat.add_assoc]
    congr 4
    rw [Nat.mul_comm 128, Nat.mul_assoc, Nat.mul_comm 128]

theorem exists_code {bytes : ByteSeq} {k acc value : ℕ} {rest : ByteSeq} (hk : k ≤ 9)
    (h : readVarFrom bytes (7 * k) acc = .ok (value, rest)) :
    ∃ code, IsCode code ∧ k + code.length ≤ 10 ∧ bytes = code ++ rest := by
  induction bytes generalizing k acc with
  | nil => cases h
  | cons byte bytes ih =>
    rw [readVarFrom] at h
    split_ifs at h with hlow hlarge
    · cases h
      refine ⟨[byte], .last (and_high_eq_zero.1 hlow), ?_, rfl⟩
      rw [length_singleton]
      omega
    · obtain ⟨code, hcode, hlength, rfl⟩ := ih (k := k + 1) (by omega) h
      refine ⟨byte :: code, .more ?_ hcode, ?_, rfl⟩
      · exact not_lt.1 fun hlt => hlow (and_high_eq_zero.2 hlt)
      · rw [length_cons]
        omega

namespace VarType

open List

theorem readVar_code {code : ByteSeq} (hcode : IsCode code) (hlength : code.length ≤ 10) (rest : ByteSeq) :
    readVar (code ++ rest) = .ok (denotes code % 2 ^ 64, rest) := by
  have hread := @readVarFrom_code _ hcode 0 0 (by omega) (by decide) rest
  rw [Nat.mul_zero, Nat.pow_zero, Nat.mul_one, Nat.zero_add] at hread
  exact hread

theorem read_code (t : VarType) {code : ByteSeq} (hcode : IsCode code) (hlength : code.length ≤ 10)
    (rest : ByteSeq) {result : ℕ × ByteSeq} :
    t.read (code ++ rest) = .ok result ↔
      denotes code % 2 ^ 64 < 2 ^ t.bits ∧ (denotes code % 2 ^ 64, rest) = result := by
  have hfitting : ∀ w message, readVarFitting w message (code ++ rest) = .ok result ↔
      denotes code % 2 ^ 64 < 2 ^ w ∧ (denotes code % 2 ^ 64, rest) = result := by
    intro w message
    rw [readVarFitting, readVar_code hcode hlength, ok_bind]
    simp only
    split_ifs with hfits
    · rw [pure_eq, ok.injEq, and_iff_right hfits]
    · constructor
      · intro h
        cases h
      · intro h
        exact absurd h.1 hfits
  cases t with
  | u16 => exact hfitting 16 _
  | u32 => exact hfitting 32 _
  | u64 =>
    rw [read, readVar_code hcode hlength, ok.injEq]
    exact (and_iff_right (Nat.mod_lt _ (by decide))).symm

theorem exists_code_read {t : VarType} {bytes : ByteSeq} {value : ℕ} {rest : ByteSeq}
    (h : t.read bytes = .ok (value, rest)) :
    ∃ code, IsCode code ∧ code.length ≤ 10 ∧ bytes = code ++ rest := by
  have hvar : ∀ {v : ℕ} {r : ByteSeq}, readVar bytes = .ok (v, r) →
      ∃ code, IsCode code ∧ code.length ≤ 10 ∧ bytes = code ++ r := by
    intro v r hread
    obtain ⟨code, hcode, hlength, hbytes⟩ := exists_code (k := 0) (by omega) hread
    exact ⟨code, hcode, by omega, hbytes⟩
  have hfitting : ∀ w message, readVarFitting w message bytes = .ok (value, rest) →
      ∃ code, IsCode code ∧ code.length ≤ 10 ∧ bytes = code ++ rest := by
    intro w message hread
    obtain ⟨⟨v, r⟩, hvalue, hread⟩ := bind_eq_ok.1 hread
    simp only at hread
    split_ifs at hread
    cases hread
    exact hvar hvalue
  cases t with
  | u16 => exact hfitting 16 _ h
  | u32 => exact hfitting 32 _ h
  | u64 => exact hvar h

theorem readAt_eq_ok {t : VarType} {input : ByteSeq} {offset value stop : ℕ} :
    t.readAt input offset = .ok (value, stop) ↔
      ∃ code, IsCode code ∧ code.length ≤ 10 ∧ code <+: input.drop offset ∧ stop = offset + code.length ∧
        denotes code % 2 ^ 64 < 2 ^ t.bits ∧ value = denotes code % 2 ^ 64 := by
  have hstop : ∀ {code rest : ByteSeq}, IsCode code → input.drop offset = code ++ rest →
      input.length - rest.length = offset + code.length := by
    intro code rest hcode hdrop
    have hlength := congrArg length hdrop
    rw [length_drop, length_append] at hlength
    have hpos := length_pos_iff.2 hcode.ne_nil
    omega
  rw [readAt, bind_eq_ok]
  constructor
  · rintro ⟨⟨v, rest⟩, hread, hpure⟩
    cases hpure
    obtain ⟨code, hcode, hlength, hdrop⟩ := exists_code_read hread
    rw [hdrop] at hread
    obtain ⟨hfits, hvalue⟩ := (read_code t hcode hlength rest).1 hread
    cases hvalue
    exact ⟨code, hcode, hlength, ⟨rest, hdrop.symm⟩, hstop hcode hdrop, hfits, rfl⟩
  · rintro ⟨code, hcode, hlength, ⟨rest, hdrop⟩, rfl, hfits, rfl⟩
    refine ⟨(denotes code % 2 ^ 64, rest), ?_, ?_⟩
    · rw [← hdrop]
      exact (read_code t hcode hlength rest).2 ⟨hfits, rfl⟩
    · simp only [pure_eq]
      rw [hstop hcode hdrop.symm]

def ReadsExactly (t : VarType) (input : ByteSeq) (offset : ℕ) : Prop :=
  ∀ value stop, t.readAt input offset = .ok (value, stop) →
    ∃ code, IsCode code ∧ code <+: input.drop offset ∧ stop = offset + code.length ∧ denotes code = value

/-- Nine bytes that go on and a tenth above 1, whose lowest 64 bits fit the type. -/
def Overflows (t : VarType) (bytes : ByteSeq) : Prop :=
  ∃ head tenth, head ++ [tenth] <+: bytes ∧ IsCode (head ++ [tenth]) ∧ head.length = 9 ∧ 2 ≤ tenth.toNat ∧
    denotes head + tenth.toNat % 2 * 2 ^ 63 < 2 ^ t.bits

theorem readsExactly_iff (t : VarType) (input : ByteSeq) (offset : ℕ) :
    t.ReadsExactly input offset ↔ ¬t.Overflows (input.drop offset) := by
  constructor
  · rintro h ⟨head, tenth, hprefix, hcode, hlength, htenth, hfits⟩
    obtain ⟨hsum, hmod⟩ := denotes_tenth hcode hlength
    have hten : (head ++ [tenth]).length ≤ 10 := by
      rw [length_append, length_singleton]
      omega
    obtain ⟨code, hcode', hprefix', -, hvalue⟩ :=
      h _ _ (readAt_eq_ok.2 ⟨_, hcode, hten, hprefix, rfl, hmod ▸ hfits, rfl⟩)
    obtain ⟨rest, hrest⟩ := hprefix
    obtain ⟨rest', hrest'⟩ := hprefix'
    rw [hcode'.eq_of_append hcode (hrest'.trans hrest.symm)] at hvalue
    omega
  · intro h value stop hread
    obtain ⟨code, hcode, hlength, hprefix, rfl, hfits, rfl⟩ := readAt_eq_ok.1 hread
    refine ⟨code, hcode, hprefix, rfl, (Nat.mod_eq_of_lt ?_).symm⟩
    by_contra hlarge
    have hlt := denotes_lt code
    rcases Nat.lt_or_ge code.length 10 with hshort | hten
    · have hpow : 128 ^ code.length ≤ 128 ^ 9 := Nat.pow_le_pow_right (by decide) (by omega)
      omega
    · obtain ⟨head, tenth, rfl⟩ := eq_nil_or_concat' code |>.resolve_left hcode.ne_nil
      rw [length_append, length_singleton] at hlength hten
      have hnine : head.length = 9 := by omega
      obtain ⟨hsum, hmod⟩ := denotes_tenth hcode hnine
      have hhead := denotes_lt head
      rw [hnine] at hhead
      exact h ⟨head, tenth, hprefix, hcode, hnine, by omega, hmod ▸ hfits⟩

theorem bits_le (t : VarType) : t.bits ≤ 64 := by
  cases t <;> decide

/-- Every number of the type is read back at any offset, every read returns, and a read
is exact where no ten byte encoding loses bits. -/
theorem varint_exact_iff (t : VarType) (input : ByteSeq) (offset : ℕ) :
    (∀ value < 2 ^ t.bits, pushVar value <+: input.drop offset →
      t.readAt input offset = .ok (value, offset + (pushVar value).length)) ∧
    (t.readAt input offset).Returns ∧
    (t.ReadsExactly input offset ↔ ¬t.Overflows (input.drop offset)) := by
  refine ⟨fun value hvalue hprefix => ?_, ?_, readsExactly_iff t input offset⟩
  · have hfits : value < 2 ^ 64 := hvalue.trans_le (Nat.pow_le_pow_right (by decide) t.bits_le)
    obtain ⟨hcode, hdenotes, hlength⟩ := pushVarFrom_spec 9 (hfits.trans (by decide))
    have hmod : denotes (pushVar value) % 2 ^ 64 = value :=
      (congrArg (· % 2 ^ 64) hdenotes).trans (Nat.mod_eq_of_lt hfits)
    exact readAt_eq_ok.2 ⟨pushVar value, hcode, hlength, hprefix, rfl, by rwa [hmod], hmod.symm⟩
  · rw [readAt, returns_bind]
    refine ⟨?_, fun _ _ => returns_ok _⟩
    cases t with
    | u16 => exact returns_readVarFitting _ _ _
    | u32 => exact returns_readVarFitting _ _ _
    | u64 => exact returns_readVar _

/-- The ten bytes that begin the number `2 ^ 64` read as zero. -/
theorem reads_truncated : ¬∀ (t : VarType) (input : ByteSeq) (offset : ℕ), t.ReadsExactly input offset := by
  intro h
  have hcode : IsCode (replicate 9 0x80 ++ [2]) := by
    repeat refine .more (by decide) ?_
    exact .last (by decide)
  exact (readsExactly_iff .u64 _ 0).1 (h .u64 _ 0)
    ⟨replicate 9 0x80, 2, prefix_rfl, hcode, rfl, by decide, by decide⟩

end VarType

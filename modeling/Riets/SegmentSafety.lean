/-
Damaged segment files.

Which files make the reader panic: it never slices outside the file, but it adds
lengths, row numbers and deltas that a file names without a check.
-/
import Riets.SegmentLengths

open Fallible Cursor List

/-! ### Decoding postings -/

/-- The deltas of positions that can be read, and the bytes behind them when all of
them can. -/
def positionDeltas : ℕ → ByteSeq → List ℕ × Option ByteSeq
  | 0, bytes => ([], some bytes)
  | n + 1, bytes =>
    match readVarFitting 32 "varint does not fit into u32" bytes with
    | .ok (delta, rest) => (delta :: (positionDeltas n rest).1, (positionDeltas n rest).2)
    | _ => ([], none)

def postingHead : VarReader ℕ := do
  let _ ← readVarFitting 16 "varint does not fit into u16"
  readVarFitting 32 "varint does not fit into u32"

/-- The deltas of the postings that can be read: of the id, and of the positions. -/
def postingDeltas : ℕ → ByteSeq → List (ℕ × List ℕ)
  | 0, _ => []
  | n + 1, bytes =>
    match readVar bytes with
    | .ok (delta, rest) =>
      match postingHead rest with
      | .ok (count, rest) =>
        (delta, (positionDeltas count rest).1) ::
          match (positionDeltas count rest).2 with
          | some rest => postingDeltas n rest
          | none => []
      | _ => [(delta, [])]
    | _ => []

/-- The ids stay below `2 ^ 64` and the positions below `2 ^ 32`. -/
def DeltasFit (count : ℕ) (bytes : ByteSeq) : Prop :=
  ((postingDeltas count bytes).map Prod.fst).sum < 2 ^ 64 ∧
    ∀ p ∈ postingDeltas count bytes, p.2.sum < 2 ^ 32

theorem varBind_apply {α β : Type} (r : VarReader α) (f : α → VarReader β) (bytes : ByteSeq) :
    (r >>= f) bytes = (r bytes >>= fun p => f p.1 p.2) := rfl

theorem varLift_apply {α : Type} (o : Fallible α) (bytes : ByteSeq) :
    (StateT.lift o : VarReader α) bytes = (o >>= fun a => .ok (a, bytes)) := rfl

theorem readPositions_cases (n last : ℕ) (bytes : ByteSeq) :
    (2 ^ 32 ≤ last + (positionDeltas n bytes).1.sum ∧ 0 < (positionDeltas n bytes).1.length ∧
      readPositions n last bytes = .fault) ∨
    ((last < 2 ^ 32 → last + (positionDeltas n bytes).1.sum < 2 ^ 32) ∧
      ((∃ positions rest, (positionDeltas n bytes).2 = some rest ∧
        readPositions n last bytes = .ok (positions, rest)) ∨
      ((positionDeltas n bytes).2 = none ∧ ∃ message, readPositions n last bytes = .err message))) := by
  induction n generalizing last bytes with
  | zero => exact .inr ⟨fun h => h, .inl ⟨[], bytes, rfl, rfl⟩⟩
  | succ n ih =>
    rw [readPositions, varBind_apply, positionDeltas]
    cases hvar : readVarFitting 32 "varint does not fit into u32" bytes with
    | fault => exact absurd hvar (returns_readVarFitting _ _ _)
    | err message => exact .inr ⟨fun h => h, .inr ⟨rfl, message, rfl⟩⟩
    | ok p =>
      obtain ⟨delta, rest⟩ := p
      simp only [ok_bind, varBind_apply, varLift_apply, sum_cons, length_cons]
      by_cases hsum : last + delta < 2 ^ 32
      · rw [add_of_lt hsum, ok_bind, ok_bind]
        rcases ih (last + delta) rest with ⟨hover, -, hr⟩ | ⟨hfits, ⟨positions, rest', hrest, hr⟩ | ⟨hrest, message, hr⟩⟩
        · exact .inl ⟨by omega, Nat.succ_pos _, by rw [hr, fault_bind]⟩
        · refine .inr ⟨fun _ => ?_, .inl ⟨_, rest', hrest, by rw [hr, ok_bind]; rfl⟩⟩
          have := hfits hsum
          omega
        · refine .inr ⟨fun _ => ?_, .inr ⟨hrest, message, by rw [hr, err_bind]⟩⟩
          have := hfits hsum
          omega
      · refine .inl ⟨by omega, Nat.succ_pos _, ?_⟩
        rw [add, if_neg hsum, fault_bind, fault_bind]

theorem readPosting_eq (last : DocId) (bytes : ByteSeq) :
    readPosting last bytes = (readVar bytes >>= fun p => add (2 ^ 64) last p.1 >>= fun docId =>
      readVarFitting 16 "varint does not fit into u16" p.2 >>= fun w =>
        readVarFitting 32 "varint does not fit into u32" w.2 >>= fun c =>
          readPositions c.1 0 c.2 >>= fun q => .ok (⟨docId, q.1, w.1⟩, q.2)) := by
  rw [readPosting, varBind_apply]
  congr 1
  funext p
  rw [varBind_apply, varLift_apply]
  cases add (2 ^ 64) last p.1 with
  | ok docId => rfl
  | err message => rfl
  | fault => rfl

theorem returns_readPostingListInto {last : DocId} (n : ℕ) (hlast : last < 2 ^ 64) (out : List Posting)
    (bytes : ByteSeq) :
    (readPostingListInto n last out bytes).Returns ↔
      last + ((postingDeltas n bytes).map Prod.fst).sum < 2 ^ 64 ∧
        ∀ p ∈ postingDeltas n bytes, p.2.sum < 2 ^ 32 := by
  induction n generalizing last out bytes with
  | zero =>
    rw [readPostingListInto, postingDeltas]
    simpa using hlast
  | succ n ih =>
    rw [readPostingListInto, postingDeltas, readPosting_eq]
    cases hvar : readVar bytes with
    | fault => exact absurd hvar (returns_readVar _)
    | err message =>
      simp only [err_bind]
      simpa using hlast
    | ok p =>
      obtain ⟨delta, rest⟩ := p
      simp only [ok_bind]
      by_cases hsum : last + delta < 2 ^ 64
      · rw [add_of_lt hsum, ok_bind]
        -- the head of the posting is read in both, or in none
        cases hweight : readVarFitting 16 "varint does not fit into u16" rest with
        | fault => exact absurd hweight (returns_readVarFitting _ _ _)
        | err message =>
          have hhead : postingHead rest = .err message := by
            rw [postingHead, varBind_apply, hweight, err_bind]
          simp only [err_bind, hhead]
          simpa using hsum
        | ok w =>
          cases hcount : readVarFitting 32 "varint does not fit into u32" w.2 with
          | fault => exact absurd hcount (returns_readVarFitting _ _ _)
          | err message =>
            have hhead : postingHead rest = .err message := by
              rw [postingHead, varBind_apply, hweight, ok_bind, hcount]
            simp only [ok_bind, hcount, err_bind, hhead]
            simpa using hsum
          | ok c =>
            have hhead : postingHead rest = .ok c := by
              rw [postingHead, varBind_apply, hweight, ok_bind, hcount]
            simp only [ok_bind, hcount, hhead, map_cons, sum_cons, mem_cons, forall_eq_or_imp]
            rcases readPositions_cases c.1 0 c.2 with
              ⟨hover, -, hr⟩ | ⟨hfits, ⟨positions, rest', hrest, hr⟩ | ⟨hrest, message, hr⟩⟩
            · rw [hr, fault_bind]
              simp only [not_returns_fault, false_iff, not_and]
              exact fun _ hlt => absurd hlt (by omega)
            · have hpositions := hfits (by decide)
              rw [Nat.zero_add] at hpositions
              rw [hr, hrest, ok_bind]
              simp only
              rw [ih hsum, Nat.add_assoc]
              exact and_congr_right fun _ => ⟨fun h => ⟨hpositions, h⟩, fun h => h.2⟩
            · have hpositions := hfits (by decide)
              rw [Nat.zero_add] at hpositions
              rw [hr, hrest, err_bind]
              simp only [returns_ok, true_iff]
              exact ⟨by simpa using hsum, hpositions, by simp⟩
      · -- the id overflows
        rw [add, if_neg hsum, fault_bind]
        simp only [not_returns_fault, false_iff, not_and]
        intro hlt
        refine absurd hlt (not_lt.mpr ?_)
        have hle : ∀ l : List (ℕ × List ℕ), l ≠ [] → l.head?.map Prod.fst = some delta →
            last + delta ≤ last + (l.map Prod.fst).sum := by
          intro l hl hhead
          cases l with
          | nil => exact absurd rfl hl
          | cons q l =>
            obtain rfl : q.1 = delta := by simpa using hhead
            rw [map_cons, sum_cons]
            exact Nat.add_le_add_left (Nat.le_add_right _ _) _
        refine (Nat.not_lt.mp hsum).trans (hle _ ?_ ?_)
        · split
          · exact cons_ne_nil _ _
          · exact cons_ne_nil _ _
        · split
          · rfl
          · rfl

theorem readPostingListInto_ne_err (n : ℕ) (last : DocId) (out : List Posting) (bytes : ByteSeq)
    (message : String) : readPostingListInto n last out bytes ≠ .err message := by
  induction n generalizing last out bytes with
  | zero => exact fun heq => by cases heq
  | succ n ih =>
    rw [readPostingListInto]
    cases readPosting last bytes with
    | ok p => exact ih _ _ _
    | err m => exact fun heq => by cases heq
    | fault => exact fun heq => by cases heq

theorem returns_readPostingListInto_iff_fit (count : ℕ) (out : List Posting) (bytes : ByteSeq) :
    (readPostingListInto count 0 out bytes).Returns ↔ DeltasFit count bytes := by
  rw [returns_readPostingListInto count (by decide), Nat.zero_add, DeltasFit]

/-! ### The sections -/

theorem fixed_readPair : Fixed 16 readPair :=
  (Fixed.readUInt 8 (by decide)).bind fun _ => (Fixed.readUInt 8 (by decide)).bind_pure _

theorem fixed_lengthEntry : Fixed 16 lengthEntry :=
  (Fixed.readUInt 8 (by decide)).bind fun _ => (Fixed.readUInt 4 (by decide)).bind fun _ =>
    (Fixed.readUInt 4 (by decide)).bind_pure _

theorem fixed_termMeta : Fixed termMetaLen termMeta :=
  (Fixed.readUInt 8 (by decide)).bind fun _ => (Fixed.readUInt 4 (by decide)).bind fun _ =>
    (Fixed.readUInt 4 (by decide)).bind fun _ => (Fixed.readUInt 2 (by decide)).bind_pure _

theorem sound_lengthEntries : Sound lengthEntries :=
  (Sound.readUInt _ (by decide)).bind fun count => (fixed_lengthEntry.sound).times count

variable {c c' : Cursor} {w n : ℕ}

theorem readUInt_lt (h : c.Within) (hw : w ≤ 8)
    (heq : readUInt w c = .ok (n, c')) : n < 256 ^ w := by
  rw [readUInt_eq h hw] at heq
  split_ifs at heq with hshort
  cases heq
  refine (leNat_lt _).trans_le (Nat.pow_le_pow_right (by decide) ?_)
  exact length_take_le _ _

theorem mem_times {α : Type} {r : CursorReader α} (hr : Moves r) (h : c.Within)
    {as : List α} (heq : times n r c = .ok (as, c')) {a : α} (ha : a ∈ as) :
    ∃ c₁ c₂, Within c₁ ∧ r c₁ = .ok (a, c₂) := by
  induction n generalizing c as with
  | zero =>
    cases heq
    cases ha
  | succ n ih =>
    rw [times, bind_apply, bind_eq_ok] at heq
    obtain ⟨⟨b, c₁⟩, hb, heq⟩ := heq
    rw [bind_apply, bind_eq_ok] at heq
    obtain ⟨⟨as', c₂⟩, has, heq⟩ := heq
    cases heq
    rcases mem_cons.mp ha with rfl | ha
    · exact ⟨c, c₁, h, hb⟩
    · exact ih (hr c h b c₁ hb).2 has ha

variable {bytes : ByteSeq}

theorem lengthEntries_bounds (h : (start bytes).Within)
    {entries : List (DocId × XPathId × ℕ)} (heq : runReader lengthEntries bytes = .ok entries) :
    (∀ e ∈ entries, e.1 < 2 ^ 64) ∧ entries.length < 2 ^ 32 := by
  rw [runReader, bind_eq_ok] at heq
  obtain ⟨⟨as, c'⟩, hread, heq⟩ := heq
  cases heq
  rw [lengthEntries, bind_apply, bind_eq_ok] at hread
  obtain ⟨⟨count, c₁⟩, hcount, hread⟩ := hread
  have hc₁ := (moves_readUInt 4 _ h _ _ hcount).2
  refine ⟨fun e he => ?_, ?_⟩
  · obtain ⟨c₂, c₃, hc₂, hentry⟩ := mem_times fixed_lengthEntry.sound.moves hc₁ hread he
    rw [lengthEntry, bind_apply, bind_eq_ok] at hentry
    obtain ⟨⟨docId, c₄⟩, hid, hentry⟩ := hentry
    rw [bind_apply, bind_eq_ok] at hentry
    obtain ⟨⟨xpath, c₅⟩, -, hentry⟩ := hentry
    rw [bind_apply, bind_eq_ok] at hentry
    obtain ⟨⟨len, c₆⟩, -, hentry⟩ := hentry
    cases hentry
    exact readUInt_lt hc₂ (by decide) hid
  · rw [times_length hread]
    exact readUInt_lt h (by decide) hcount

theorem returns_fromPacked (kind : NumericKind) (points : List (BitVec 64 × DocId))
    (entries : List (DocId × BitVec 64)) :
    (Bkd.fromPacked kind points).Returns ∧ (DocValues.fromPacked kind entries).Returns := by
  rw [Bkd.fromPacked, DocValues.fromPacked]
  constructor
  · split
    · exact returns_ok _
    · exact returns_err _
  · split
    · exact returns_ok _
    · exact returns_err _

theorem sound_numericFieldList : Sound numericFieldList := by
  refine (Sound.readUInt _ (by decide)).bind fun count => Sound.times ?_ count
  refine (Sound.readUInt _ (by decide)).bind fun xpath => (Sound.readUInt _ (by decide)).bind fun byte => ?_
  refine (Sound.lift (returns_ofOption _ _)).bind fun kind => (Sound.readUInt _ (by decide)).bind fun n => ?_
  refine (fixed_readPair.sound.times n).bind fun points => (Sound.readUInt _ (by decide)).bind fun m => ?_
  refine (fixed_readPair.sound.times m).bind fun entries => ?_
  refine (Sound.lift (returns_fromPacked kind _ []).1).bind fun bkd => ?_
  exact (Sound.lift (returns_fromPacked kind [] _).2).bind fun docValues => Sound.pure _

def numberAt (w : ℕ) (bytes : ByteSeq) (offset : ℕ) : ℕ := leNat ((bytes.drop offset).take w)

/-- The head of a dictionary field is its path, its number of terms and the length of
its fst. -/
def fieldTerms (bytes : ByteSeq) (offset : ℕ) : ℕ := numberAt 4 bytes (offset + 4)

def fstLen (bytes : ByteSeq) (offset : ℕ) : ℕ := numberAt 8 bytes (offset + 8)

def fieldStop (bytes : ByteSeq) (offset : ℕ) : ℕ :=
  offset + 16 + fstLen bytes offset + fieldTerms bytes offset * termMetaLen

def FieldReadable (codec : SegmentCodec) (bytes : ByteSeq) (offset : ℕ) : Prop :=
  fieldStop bytes offset ≤ bytes.length ∧ (fieldTerms bytes offset = 0 ∨
    (codec.fst ((bytes.drop (offset + 16)).take (fstLen bytes offset))).isOk = true)

instance (codec : SegmentCodec) (bytes : ByteSeq) (offset : ℕ) :
    Decidable (FieldReadable codec bytes offset) :=
  inferInstanceAs (Decidable (_ ∧ _))

/-- The lengths of the fsts in a dictionary section, each with the offset it is added
to; a field that cannot be read is the last. -/
def fstLengths (codec : SegmentCodec) (bytes : ByteSeq) : ℕ → ℕ → List (ℕ × ℕ)
  | 0, _ => []
  | n + 1, offset =>
    if bytes.length < offset + 16 then []
    else (offset + 16, fstLen bytes offset) ::
      if FieldReadable codec bytes offset then fstLengths codec bytes n (fieldStop bytes offset) else []

def dictionaryLengths (codec : SegmentCodec) (bytes : ByteSeq) : List (ℕ × ℕ) :=
  if numberAt 4 bytes 0 * 16 ≤ bytes.length then fstLengths codec bytes (numberAt 4 bytes 0) 4 else []

theorem readUInt_ok (h : c.Within) (hw : w ≤ 8) (hle : c.offset + w ≤ c.bytes.length) :
    readUInt w c = .ok (numberAt w c.bytes c.offset, { c with offset := c.offset + w }) := by
  rw [readUInt_eq h hw, if_neg (Nat.not_lt.mpr hle), piece, numberAt]

inductive FieldRead (codec : SegmentCodec) (c : Cursor) : Prop
  | short (message : String) : c.bytes.length < c.offset + 16 →
      dictionaryField codec c = .err message → FieldRead codec c
  | overflow : c.offset + 16 ≤ c.bytes.length → 2 ^ 64 ≤ c.offset + 16 + fstLen c.bytes c.offset →
      dictionaryField codec c = .fault → FieldRead codec c
  | refused (message : String) : c.offset + 16 ≤ c.bytes.length →
      c.offset + 16 + fstLen c.bytes c.offset < 2 ^ 64 → ¬ FieldReadable codec c.bytes c.offset →
      dictionaryField codec c = .err message → FieldRead codec c
  | read (field : XPathId × TermDict) : c.offset + 16 ≤ c.bytes.length →
      c.offset + 16 + fstLen c.bytes c.offset < 2 ^ 64 → FieldReadable codec c.bytes c.offset →
      dictionaryField codec c = .ok (field, ⟨c.bytes, fieldStop c.bytes c.offset⟩) → FieldRead codec c

def fieldHead : CursorReader (ℕ × ℕ × ℕ) := do
  let xpath ← readUInt 4
  let terms ← readUInt 4
  let len ← readUInt 8
  return (xpath, terms, len)

def fieldBody (codec : SegmentCodec) (head : ℕ × ℕ × ℕ) : CursorReader (XPathId × TermDict) := do
  let fstBytes ← take head.2.2
  let left ← remaining
  lift (check "dictionary term count exceeds section size" (head.2.1 * termMetaLen ≤ left))
  let metas ← times head.2.1 termMeta
  let dict ← lift (TermDict.fromParts codec fstBytes metas)
  return (head.1, dict)

theorem dictionaryField_eq (codec : SegmentCodec) : dictionaryField codec = fieldHead >>= fieldBody codec := by
  simp only [fieldHead, bind_assoc, pure_bind]
  rfl

theorem fixed_fieldHead : Fixed 16 fieldHead :=
  (Fixed.readUInt 4 (by decide)).bind fun _ => (Fixed.readUInt 4 (by decide)).bind fun _ =>
    (Fixed.readUInt 8 (by decide)).bind_pure _

theorem fieldHead_ok (h : c.Within) (hle : c.offset + 16 ≤ c.bytes.length) :
    fieldHead c = .ok ((numberAt 4 c.bytes c.offset, fieldTerms c.bytes c.offset,
      fstLen c.bytes c.offset), ⟨c.bytes, c.offset + 16⟩) := by
  have h₁ := readUInt_ok h (w := 4) (by decide) (by omega)
  have h₂ := readUInt_ok (c := ⟨c.bytes, c.offset + 4⟩) ⟨by simp only; omega, h.length_lt⟩ (w := 4)
    (by decide) (by simp only; omega)
  have h₃ := readUInt_ok (c := ⟨c.bytes, c.offset + 4 + 4⟩) ⟨by simp only; omega, h.length_lt⟩ (w := 8)
    (by decide) (by simp only; omega)
  simp only [fieldHead, bind_apply, h₁, h₂, h₃, ok_bind, pure_apply, fieldTerms, fstLen]

theorem fieldRead (codec : SegmentCodec) (h : c.Within) : FieldRead codec c := by
  rcases Nat.lt_or_ge c.bytes.length (c.offset + 16) with hshort | hle
  · obtain ⟨message, herr⟩ := fixed_fieldHead.short c h hshort
    refine .short message hshort ?_
    rw [dictionaryField_eq, bind_apply, herr, err_bind]
  have hfield : dictionaryField codec c = fieldBody codec (numberAt 4 c.bytes c.offset,
      fieldTerms c.bytes c.offset, fstLen c.bytes c.offset) ⟨c.bytes, c.offset + 16⟩ := by
    rw [dictionaryField_eq, bind_apply, fieldHead_ok h hle, ok_bind]
  rw [fieldBody, bind_apply, take_eq] at hfield
  simp only at hfield
  rcases Nat.lt_or_ge (c.offset + 16 + fstLen c.bytes c.offset) (2 ^ 64) with hfits | hover
  · rw [if_neg (Nat.not_le.mpr hfits)] at hfield
    by_cases hend : c.bytes.length < c.offset + 16 + fstLen c.bytes c.offset
    · rw [if_pos hend, err_bind] at hfield
      refine .refused _ hle hfits (fun hr => ?_) hfield
      have := hr.1
      rw [fieldStop] at this
      omega
    · rw [if_neg hend, ok_bind] at hfield
      simp only [bind_apply, remaining, ok_bind, lift, check] at hfield
      by_cases hmetas : fieldTerms c.bytes c.offset * termMetaLen ≤
          c.bytes.length - (c.offset + 16 + fstLen c.bytes c.offset)
      · rw [if_pos hmetas, ok_bind, ok_bind] at hfield
        have hstop : fieldStop c.bytes c.offset ≤ c.bytes.length := by
          rw [fieldStop]
          omega
        obtain ⟨metas, hread⟩ := (fixed_termMeta.times (fieldTerms c.bytes c.offset)).whole
          ⟨c.bytes, c.offset + 16 + fstLen c.bytes c.offset⟩ ⟨Nat.not_lt.mp hend, h.length_lt⟩ hstop
        have hcount : metas.length = fieldTerms c.bytes c.offset := times_length hread
        rw [hread, ok_bind] at hfield
        simp only [piece, TermDict.fromParts] at hfield
        by_cases hnone : metas = []
        · rw [if_pos hnone, ok_bind, ok_bind] at hfield
          refine .read _ hle hfits ⟨hstop, .inl ?_⟩ hfield
          rw [← hcount, hnone, length_nil]
        · rw [if_neg hnone] at hfield
          cases hfst : codec.fst ((c.bytes.drop (c.offset + 16)).take (fstLen c.bytes c.offset)) with
          | ok map =>
            rw [hfst] at hfield
            exact .read _ hle hfits ⟨hstop, .inr (by rw [hfst]; rfl)⟩ hfield
          | error e =>
            rw [hfst] at hfield
            refine .refused e hle hfits ?_ hfield
            rintro ⟨-, hzero | hok⟩
            · exact hnone (length_eq_zero_iff.mp (hcount.trans hzero))
            · rw [hfst] at hok
              cases hok
      · rw [if_neg hmetas] at hfield
        refine .refused _ hle hfits (fun hr => ?_) hfield
        have := hr.1
        rw [fieldStop] at this
        omega
  · rw [if_pos hover, fault_bind] at hfield
    exact .overflow hle hover hfield

theorem returns_times_dictionaryField (codec : SegmentCodec) (n : ℕ) (h : c.Within) :
    (times n (dictionaryField codec) c).Returns ↔
      ∀ e ∈ fstLengths codec c.bytes n c.offset, e.1 + e.2 < 2 ^ 64 := by
  induction n generalizing c with
  | zero =>
    refine ⟨fun _ e he => ?_, fun _ => returns_ok _⟩
    cases he
  | succ n ih =>
    rw [times, bind_apply, fstLengths]
    cases fieldRead codec h with
    | short message hshort herr =>
      rw [herr, err_bind, if_pos hshort]
      simp
    | overflow hle hover hfault =>
      rw [hfault, fault_bind, if_neg (Nat.not_lt.mpr hle)]
      simp only [not_returns_fault, false_iff]
      exact fun hall => absurd (hall _ mem_cons_self) (Nat.not_lt.mpr hover)
    | refused message hle hfits hno herr =>
      rw [herr, err_bind, if_neg (Nat.not_lt.mpr hle), if_neg hno]
      simpa using hfits
    | read field hle hfits hyes hok =>
      have hnext := ih (c := ⟨c.bytes, fieldStop c.bytes c.offset⟩) ⟨hyes.1, h.length_lt⟩
      rw [hok, ok_bind, if_neg (Nat.not_lt.mpr hle), if_pos hyes, forall_mem_cons, bind_apply,
        returns_bind, hnext]
      simp only [hfits, true_and]
      exact and_iff_left fun p _ => returns_ok _

theorem returns_runReader {α : Type} (r : CursorReader α) (bytes : ByteSeq) :
    (runReader r bytes).Returns ↔ (r (start bytes)).Returns := by
  rw [runReader, returns_bind]
  exact and_iff_left fun _ _ => returns_ok _

theorem readUInt_start (h : bytes.length < 2 ^ 63) (hw : w ≤ 8) :
    (bytes.length < w ∧ ∃ message, readUInt w (start bytes) = .err message) ∨
      (w ≤ bytes.length ∧ readUInt w (start bytes) = .ok (numberAt w bytes 0, ⟨bytes, w⟩)) := by
  rw [readUInt_eq (Within.start h) hw]
  simp only [start, Nat.zero_add]
  by_cases hlt : bytes.length < w
  · exact .inl ⟨hlt, _, if_pos hlt⟩
  · exact .inr ⟨Nat.not_lt.mp hlt, if_neg hlt⟩

theorem returns_dictionaryFields (codec : SegmentCodec) (h : bytes.length < 2 ^ 63) :
    (runReader (dictionaryFields codec bytes.length) bytes).Returns ↔
      ∀ e ∈ dictionaryLengths codec bytes, e.1 + e.2 < 2 ^ 64 := by
  rw [returns_runReader, dictionaryFields, bind_apply]
  rcases readUInt_start h (w := 4) (by decide) with ⟨hshort, message, herr⟩ | ⟨hle, hok⟩
  · have hnone : dictionaryLengths codec bytes = [] := by
      rw [dictionaryLengths]
      split
      · cases numberAt 4 bytes 0 with
        | zero => rfl
        | succ n => rw [fstLengths, if_pos (by omega)]
      · rfl
    rw [herr, err_bind, hnone]
    simp
  · rw [hok, ok_bind, dictionaryLengths]
    simp only [bind_apply, lift, check]
    by_cases hcount : numberAt 4 bytes 0 * 16 ≤ bytes.length
    · rw [if_pos hcount, if_pos hcount, ok_bind, ok_bind]
      exact returns_times_dictionaryField codec _ ⟨hle, h⟩
    · rw [if_neg hcount, if_neg hcount]
      simp

def bitmapLength (bytes : ByteSeq) (offset : ℕ) : List (ℕ × ℕ) :=
  if bytes.length < offset + 8 then [] else [(offset + 8, numberAt 8 bytes offset)]

/-- The end of a bitmap that lies inside the section and is accepted. -/
def bitmapStop (codec : SegmentCodec) (bytes : ByteSeq) (offset : ℕ) : Option ℕ :=
  let stop := offset + 8 + numberAt 8 bytes offset
  if stop ≤ bytes.length ∧
      (codec.bitmap ((bytes.drop (offset + 8)).take (numberAt 8 bytes offset))).isOk = true then some stop
  else none

/-- The lengths of the bitmaps in the section of booleans: two for each field. -/
def bitmapLengths (codec : SegmentCodec) (bytes : ByteSeq) : ℕ → ℕ → List (ℕ × ℕ)
  | 0, _ => []
  | n + 1, offset =>
    bitmapLength bytes (offset + 4) ++
      match bitmapStop codec bytes (offset + 4) with
      | none => []
      | some stop =>
        bitmapLength bytes stop ++
          match bitmapStop codec bytes stop with
          | none => []
          | some stop => bitmapLengths codec bytes n stop

inductive BitmapRead (codec : SegmentCodec) (c : Cursor) : Prop
  | overflow : (∃ e ∈ bitmapLength c.bytes c.offset, 2 ^ 64 ≤ e.1 + e.2) →
      bitmapField codec c = .fault → BitmapRead codec c
  | refused (message : String) : (∀ e ∈ bitmapLength c.bytes c.offset, e.1 + e.2 < 2 ^ 64) →
      bitmapStop codec c.bytes c.offset = none → bitmapField codec c = .err message → BitmapRead codec c
  | read (ids : Finset DocId) (stop : ℕ) :
      (∀ e ∈ bitmapLength c.bytes c.offset, e.1 + e.2 < 2 ^ 64) →
      bitmapStop codec c.bytes c.offset = some stop → stop ≤ c.bytes.length →
      bitmapField codec c = .ok (ids, ⟨c.bytes, stop⟩) → BitmapRead codec c

theorem bitmapField_apply (codec : SegmentCodec) (c : Cursor) :
    bitmapField codec c = (readUInt 8 c >>= fun len => take len.1 len.2 >>= fun p =>
      lift (match codec.bitmap p.1 with
        | .ok ids => .ok ids
        | .error e => .err e) p.2) := rfl

theorem bitmapRead (codec : SegmentCodec) (h : c.Within) : BitmapRead codec c := by
  rcases Nat.lt_or_ge c.bytes.length (c.offset + 8) with hshort | hle
  · have hnone : bitmapLength c.bytes c.offset = [] := if_pos hshort
    refine .refused "unexpected eof" (by simp [hnone]) ?_ ?_
    · rw [bitmapStop]
      exact if_neg fun hstop => by have := hstop.1; omega
    · rw [bitmapField_apply, readUInt_eq h (by decide), if_pos hshort, err_bind]
  have hone : bitmapLength c.bytes c.offset = [(c.offset + 8, numberAt 8 c.bytes c.offset)] :=
    if_neg (Nat.not_lt.mpr hle)
  have hfield := bitmapField_apply codec c
  rw [readUInt_ok h (by decide) hle, ok_bind, take_eq] at hfield
  simp only at hfield
  rcases Nat.lt_or_ge (c.offset + 8 + numberAt 8 c.bytes c.offset) (2 ^ 64) with hfits | hover
  · have hall : ∀ e ∈ bitmapLength c.bytes c.offset, e.1 + e.2 < 2 ^ 64 := by
      rw [hone]
      simpa using hfits
    rw [if_neg (Nat.not_le.mpr hfits)] at hfield
    by_cases hend : c.bytes.length < c.offset + 8 + numberAt 8 c.bytes c.offset
    · rw [if_pos hend, err_bind] at hfield
      refine .refused _ hall ?_ hfield
      rw [bitmapStop]
      exact if_neg fun hstop => by have := hstop.1; omega
    · rw [if_neg hend, ok_bind] at hfield
      simp only [piece, lift] at hfield
      cases hbitmap : codec.bitmap ((c.bytes.drop (c.offset + 8)).take (numberAt 8 c.bytes c.offset)) with
      | ok ids =>
        rw [hbitmap] at hfield
        refine .read ids _ hall ?_ (Nat.not_lt.mp hend) hfield
        rw [bitmapStop, hbitmap]
        exact if_pos ⟨Nat.not_lt.mp hend, rfl⟩
      | error e =>
        rw [hbitmap] at hfield
        refine .refused e hall ?_ hfield
        rw [bitmapStop, hbitmap]
        exact if_neg fun hstop => by cases hstop.2
  · rw [if_pos hover, fault_bind] at hfield
    exact .overflow ⟨_, by rw [hone]; exact mem_cons_self, hover⟩ hfield

theorem boolField_apply (codec : SegmentCodec) (c : Cursor) :
    boolField codec c = (readUInt 4 c >>= fun p => bitmapField codec p.2 >>= fun t =>
      bitmapField codec t.2 >>= fun f => .ok ((p.1, ⟨t.1, f.1⟩), f.2)) := rfl

theorem returns_times_boolField (codec : SegmentCodec) (n : ℕ) (h : c.Within) :
    (times n (boolField codec) c).Returns ↔
      ∀ e ∈ bitmapLengths codec c.bytes n c.offset, e.1 + e.2 < 2 ^ 64 := by
  induction n generalizing c with
  | zero =>
    refine ⟨fun _ e he => ?_, fun _ => returns_ok _⟩
    cases he
  | succ n ih =>
    rw [times, bind_apply, boolField_apply, bitmapLengths]
    rcases Nat.lt_or_ge c.bytes.length (c.offset + 4) with hshort | hle
    · -- no path, so no bitmap either
      have hnone : bitmapLength c.bytes (c.offset + 4) = [] := if_pos (by omega)
      have hstop : bitmapStop codec c.bytes (c.offset + 4) = none := by
        rw [bitmapStop]
        exact if_neg fun hstop => by have := hstop.1; omega
      rw [readUInt_eq h (by decide), if_pos hshort, err_bind, err_bind, hnone, hstop]
      simp
    rw [readUInt_ok h (by decide) hle, ok_bind]
    have hc : Within ⟨c.bytes, c.offset + 4⟩ := ⟨hle, h.length_lt⟩
    cases bitmapRead codec hc with
    | overflow hover hfault =>
      obtain ⟨e, he, hlt⟩ := hover
      simp only [hfault, fault_bind, not_returns_fault, false_iff]
      exact fun hall => absurd (hall e (mem_append_left _ he)) (Nat.not_lt.mpr hlt)
    | refused message hfits hstop herr =>
      simp only [herr, err_bind, returns_err, true_iff]
      rw [hstop, append_nil]
      exact hfits
    | read ids stop hfits hstop hstop_le hok =>
      have hc' : Within ⟨c.bytes, stop⟩ := ⟨hstop_le, h.length_lt⟩
      simp only [hok, ok_bind, hstop]
      cases bitmapRead codec hc' with
      | overflow hover hfault =>
        obtain ⟨e, he, hlt⟩ := hover
        simp only [hfault, fault_bind, not_returns_fault, false_iff]
        exact fun hall => absurd (hall e (mem_append_right _ (mem_append_left _ he)))
          (Nat.not_lt.mpr hlt)
      | refused message hfits' hstop' herr =>
        simp only [herr, err_bind, returns_err, true_iff]
        rw [hstop', append_nil, forall_mem_append]
        exact ⟨hfits, hfits'⟩
      | read ids' stop' hfits' hstop' hstop_le' hok' =>
        have hnext := ih (c := ⟨c.bytes, stop'⟩) ⟨hstop_le', h.length_lt⟩
        simp only [hok', ok_bind, hstop']
        rw [bind_apply, returns_bind, hnext, forall_mem_append, forall_mem_append]
        refine ⟨fun hall => ⟨hfits, hfits', hall.1⟩, fun hall => ⟨hall.2.2, fun _ _ => returns_ok _⟩⟩

theorem returns_boolFieldList (codec : SegmentCodec) (h : bytes.length < 2 ^ 63) :
    (runReader (boolFieldList codec) bytes).Returns ↔
      ∀ e ∈ bitmapLengths codec bytes (numberAt 4 bytes 0) 4, e.1 + e.2 < 2 ^ 64 := by
  rw [returns_runReader, boolFieldList, bind_apply]
  rcases readUInt_start h (w := 4) (by decide) with ⟨hshort, message, herr⟩ | ⟨hle, hok⟩
  · have hnone : bitmapLengths codec bytes (numberAt 4 bytes 0) 4 = [] := by
      cases numberAt 4 bytes 0 with
      | zero => rfl
      | succ n =>
        have hstop : bitmapStop codec bytes (4 + 4) = none := by
          rw [bitmapStop]
          exact if_neg fun hstop => by have := hstop.1; omega
        rw [bitmapLengths, hstop, bitmapLength, if_pos (by omega), append_nil]
    rw [herr, err_bind, hnone]
    simp
  · rw [hok, ok_bind]
    exact returns_times_boolField codec _ ⟨hle, h⟩

def rowCount (bytes : ByteSeq) : ℕ := min (numberAt 4 bytes 8) ((bytes.length - 12) / 16)

theorem returns_rowsFrom (base n i : ℕ) (idx : ArrayRowIndex) (h : c.Within) :
    (rowsFrom base n i idx c).Returns ↔
      ∀ k < n, c.offset + 16 * (k + 1) ≤ c.bytes.length → base + (i + k) < 2 ^ 64 := by
  induction n generalizing i idx c with
  | zero => exact ⟨fun _ k hk => absurd hk (Nat.not_lt_zero k), fun _ => returns_ok _⟩
  | succ n ih =>
    rw [rowsFrom, bind_apply]
    rcases Nat.lt_or_ge c.bytes.length (c.offset + 16) with hshort | hle
    · obtain ⟨message, herr⟩ := fixed_readPair.short c h hshort
      rw [herr, err_bind]
      simp only [returns_err, true_iff]
      exact fun k _ hk => absurd hk (by omega)
    · obtain ⟨pair, hok⟩ := fixed_readPair.whole c h hle
      rw [hok, ok_bind]
      simp only [bind_apply, lift]
      by_cases hrow : base + i < 2 ^ 64
      · rw [add_of_lt hrow, ok_bind, ok_bind,
          ih (i + 1) _ (c := ⟨c.bytes, c.offset + 16⟩) ⟨hle, h.length_lt⟩]
        constructor
        · intro hall k hk hend
          cases k with
          | zero => simpa using hrow
          | succ k =>
            have := hall k (by omega) (by simp only; omega)
            omega
        · intro hall k hk hend
          have := hall (k + 1) (by omega) (by simp only at hend; omega)
          omega
      · rw [add, if_neg hrow, fault_bind, fault_bind]
        simp only [not_returns_fault, false_iff, not_forall]
        exact ⟨0, by omega, by omega, by simpa using hrow⟩

theorem returns_rowTable (h : bytes.length < 2 ^ 63) :
    (runReader rowTable bytes).Returns ↔
      (12 ≤ bytes.length → numberAt 8 bytes 0 + rowCount bytes ≤ 2 ^ 64) := by
  have hbase : numberAt 8 bytes 0 < 2 ^ 64 := by
    rw [numberAt]
    refine (leNat_lt _).trans_le ?_
    rw [show (2 : ℕ) ^ 64 = 256 ^ 8 from rfl]
    exact Nat.pow_le_pow_right (by decide) (length_take_le _ _)
  rw [returns_runReader]
  by_cases hle : 12 ≤ bytes.length
  · have h₁ := readUInt_ok (Within.start h) (w := 8) (by decide) (by simp only [start]; omega)
    have h₂ := readUInt_ok (c := ⟨bytes, 8⟩) ⟨by simp only; omega, h⟩ (w := 4) (by decide) (by simpa using hle)
    simp only [start, Nat.zero_add] at h₁
    simp only [rowTable, bind_apply, start, h₁, ok_bind, h₂]
    rw [returns_rowsFrom _ _ _ _ ⟨by simpa using hle, h⟩]
    simp only [hle, forall_const, Nat.zero_add, rowCount]
    constructor
    · intro hall
      by_contra hover
      obtain ⟨k, hk⟩ : ∃ k, k = min (numberAt 4 bytes 8) ((bytes.length - 12) / 16) - 1 := ⟨_, rfl⟩
      have := hall k (by omega) (by omega)
      omega
    · intro hfits k hk hend
      omega
  · refine ⟨fun _ hle' => absurd hle' hle, fun _ => ?_⟩
    have hfixed : Fixed 12 (readUInt 8 >>= fun base => readUInt 4 >>= fun count =>
        (Pure.pure (base, count) : CursorReader (ℕ × ℕ))) :=
      (Fixed.readUInt 8 (by decide)).bind fun _ => (Fixed.readUInt 4 (by decide)).bind_pure _
    obtain ⟨message, herr⟩ := hfixed.short (start bytes) (Within.start h) (by
      simp only [start]
      omega)
    have hsplit : rowTable = ((readUInt 8 >>= fun base => readUInt 4 >>= fun count =>
        (Pure.pure (base, count) : CursorReader (ℕ × ℕ))) >>= fun q =>
          rowsFrom q.1 q.2 0 ⟨q.1, [], [], rfl⟩) := by
      simp only [bind_assoc, pure_bind]
      rfl
    rw [hsplit, bind_apply, herr, err_bind]
    exact returns_err _

/-! ### Header, footer and the places of the sections -/

def sectionBytes (bytes : ByteSeq) (offset len : ℕ) : ByteSeq := (bytes.drop offset).take len

variable {offset len : ℕ}

theorem slice_section (h : offset + len ≤ bytes.length) :
    slice bytes offset (offset + len) = .ok (sectionBytes bytes offset len) := by
  rw [slice_of_le (Nat.le_add_right _ _) h, drop_take, Nat.add_sub_cancel_left, sectionBytes]

theorem length_section (h : offset + len ≤ bytes.length) :
    (sectionBytes bytes offset len).length = len := by
  rw [sectionBytes, length_take, length_drop]
  omega

theorem readUIntAt_ok (h : offset + w ≤ bytes.length)
    (hlt : bytes.length < 2 ^ 63) : readUIntAt w bytes offset = .ok (numberAt w bytes offset) := by
  rw [readUIntAt, add_of_lt (by omega), ok_bind, slice_section h, ok_bind]
  rfl

theorem returns_validateHeader (hlt : bytes.length < 2 ^ 63) :
    (validateHeader bytes).Returns := by
  rw [validateHeader]
  split_ifs with hsmall
  · exact returns_err _
  · rw [show footerLen = 100 from rfl] at hsmall
    rw [slice_of_le (by decide) (by omega), ok_bind]
    split_ifs
    · exact returns_err _
    · rw [readUIntAt_ok (by omega) hlt, ok_bind]
      exact returns_check _ _

theorem footerLen_le_of_validateHeader (h : validateHeader bytes = .ok ()) :
    12 + footerLen ≤ bytes.length := by
  rw [validateHeader] at h
  split_ifs at h with hsmall
  exact Nat.not_lt.mp hsmall

theorem readFooter_eq (h : footerLen ≤ bytes.length) (hlt : bytes.length < 2 ^ 63) :
    readFooter bytes = .ok {
      docLengthsOffset := numberAt 8 bytes (bytes.length - footerLen + 0)
      docLengthsLen := numberAt 8 bytes (bytes.length - footerLen + 8)
      dictionaryOffset := numberAt 8 bytes (bytes.length - footerLen + 16)
      dictionaryLen := numberAt 8 bytes (bytes.length - footerLen + 24)
      numericFieldsOffset := numberAt 8 bytes (bytes.length - footerLen + 32)
      numericFieldsLen := numberAt 8 bytes (bytes.length - footerLen + 40)
      termCount := numberAt 4 bytes (bytes.length - footerLen + 48)
      minDocId := numberAt 8 bytes (bytes.length - footerLen + 52)
      maxDocId := numberAt 8 bytes (bytes.length - footerLen + 60)
      boolFieldsOffset := numberAt 8 bytes (bytes.length - footerLen + 84)
      boolFieldsLen := numberAt 8 bytes (bytes.length - footerLen + 92)
      arrayRowIndexOffset := numberAt 8 bytes (bytes.length - footerLen + 68)
      arrayRowIndexLen := numberAt 8 bytes (bytes.length - footerLen + 76) } := by
  have hlen : footerLen = 100 := rfl
  have hfield : ∀ w k, k + w ≤ 100 → (add (2 ^ 64) (bytes.length - footerLen) k >>= fun offset =>
      readUIntAt w bytes offset) = .ok (numberAt w bytes (bytes.length - footerLen + k)) := by
    intro w k hk
    rw [add_of_lt (by omega), ok_bind, readUIntAt_ok (by omega) hlt]
  rw [readFooter, sub_of_le h, ok_bind]
  simp only [hfield 8 0 (by decide), hfield 8 8 (by decide), hfield 8 16 (by decide),
    hfield 8 24 (by decide), hfield 8 32 (by decide), hfield 8 40 (by decide), hfield 4 48 (by decide),
    hfield 8 52 (by decide), hfield 8 60 (by decide), hfield 8 84 (by decide), hfield 8 92 (by decide),
    hfield 8 68 (by decide), hfield 8 76 (by decide), ok_bind, pure_eq]

theorem returns_validateSection (h : footerLen ≤ bytes.length) (offset len : ℕ)
    (overflow : String) (early : Option String) (outside : String) :
    (validateSection bytes offset len overflow early outside).Returns := by
  have hstart : (validateStart offset early).Returns := by
    cases early with
    | none => exact returns_ok ()
    | some message => exact returns_check _ _
  rw [validateSection, returns_bind]
  refine ⟨returns_check _ _, fun _ _ => returns_bind.mpr ⟨hstart, fun _ _ => ?_⟩⟩
  rw [sub_of_le h, ok_bind]
  exact returns_check _ _

theorem returns_validateFooter (h : footerLen ≤ bytes.length) (footer : SegmentFooter) :
    (validateFooter bytes footer).Returns := by
  simp only [validateFooter, returns_bind]
  refine ⟨returns_validateSection h _ _ _ _ _, fun _ _ => ⟨returns_validateSection h _ _ _ _ _,
    fun _ _ => ⟨returns_validateSection h _ _ _ _ _, fun _ _ => ⟨returns_validateSection h _ _ _ _ _,
      fun _ _ => returns_check _ _⟩⟩⟩⟩

variable {limit : ℕ}

theorem readSection_cases (hlimit : limit ≤ bytes.length)
    (offset len : ℕ) (overflow outside : String) :
    (∃ message, readSection bytes (.ok limit) offset len overflow outside = .err message) ∨
      (offset + len ≤ bytes.length ∧ readSection bytes (.ok limit) offset len overflow outside =
        .ok (sectionBytes bytes offset len)) := by
  rw [readSection, check]
  split_ifs with hover
  · rw [ok_bind, ok_bind, check]
    split_ifs with hin
    · refine .inr ⟨hin.trans hlimit, ?_⟩
      rw [ok_bind, slice_section (hin.trans hlimit)]
    · exact .inl ⟨outside, rfl⟩
  · exact .inl ⟨overflow, rfl⟩

theorem inside_of_validateSection (h : footerLen ≤ bytes.length)
    {overflow : String} {early : Option String} {outside : String}
    (hok : validateSection bytes offset len overflow early outside = .ok ()) :
    offset + len < 2 ^ 64 ∧ offset + len ≤ bytes.length - footerLen := by
  simp only [validateSection, bind_eq_ok, sub_of_le h] at hok
  obtain ⟨_, hover, _, -, limit, hlimit, hout⟩ := hok
  cases hlimit
  exact ⟨of_check_eq_ok hover, of_check_eq_ok hout⟩

/-- The sections that the footer check has seen lie before the footer. -/
structure Inside (bytes : ByteSeq) (footer : SegmentFooter) : Prop where
  dictionary : footer.dictionaryOffset + footer.dictionaryLen ≤ bytes.length - footerLen
  numericFields : footer.numericFieldsOffset + footer.numericFieldsLen ≤ bytes.length - footerLen
  boolFields : footer.boolFieldsOffset + footer.boolFieldsLen ≤ bytes.length - footerLen
  arrayRowIndex : footer.arrayRowIndexOffset + footer.arrayRowIndexLen ≤ bytes.length - footerLen

theorem inside_of_validateFooter (h : footerLen ≤ bytes.length) {footer : SegmentFooter}
    (hok : validateFooter bytes footer = .ok ()) : Inside bytes footer := by
  simp only [validateFooter, bind_eq_ok] at hok
  obtain ⟨_, h₁, _, h₂, _, h₃, _, h₄, -⟩ := hok
  exact ⟨(inside_of_validateSection h h₁).2, (inside_of_validateSection h h₂).2,
    (inside_of_validateSection h h₃).2, (inside_of_validateSection h h₄).2⟩

theorem readSection_ok (hlt : bytes.length < 2 ^ 63)
    (hlimit : limit ≤ bytes.length) (hin : offset + len ≤ limit) (overflow outside : String) :
    readSection bytes (.ok limit) offset len overflow outside = .ok (sectionBytes bytes offset len) := by
  rw [readSection, check, if_pos (by omega), ok_bind, ok_bind, check, if_pos hin, ok_bind,
    slice_section (hin.trans hlimit)]

/-! ### The whole file -/

structure Located (bytes : ByteSeq) (footer : SegmentFooter) : Prop where
  header : validateHeader bytes = .ok ()
  read : readFooter bytes = .ok footer
  valid : validateFooter bytes footer = .ok ()
  lengths : ∃ lengths, readDocLengths bytes footer = .ok lengths

namespace Located

open Nat

variable {codec : SegmentCodec} {bytes : ByteSeq} {footer : SegmentFooter}

section

variable (h : Located bytes footer)
include h

theorem footerLen_le : footerLen ≤ bytes.length :=
  (le_add_left _ _).trans (footerLen_le_of_validateHeader h.header)

theorem inside : Inside bytes footer :=
  inside_of_validateFooter h.footerLen_le h.valid

theorem returns_dictionary (hlt : bytes.length < 2 ^ 63) :
    (readTermDictionary codec bytes footer).Returns ↔
      ∀ e ∈ dictionaryLengths codec (sectionBytes bytes footer.dictionaryOffset footer.dictionaryLen),
        e.1 + e.2 < 2 ^ 64 := by
  have hin := h.inside.dictionary
  have hlen := length_section (hin.trans (sub_le _ _))
  have hshort : (sectionBytes bytes footer.dictionaryOffset footer.dictionaryLen).length < 2 ^ 63 := by
    rw [hlen]
    omega
  have hread := returns_dictionaryFields codec hshort
  rw [hlen] at hread
  rw [readTermDictionary, sub_of_le h.footerLen_le,
    readSection_ok hlt (sub_le _ _) hin, ok_bind, returns_bind, hread]
  exact and_iff_left fun _ _ => returns_bind.mpr ⟨returns_check _ _, fun _ _ => returns_ok _⟩

theorem returns_numericFields (hlt : bytes.length < 2 ^ 63) :
    (readNumericFields bytes footer).Returns := by
  have hin := h.inside.numericFields
  have hlen := length_section (hin.trans (sub_le _ _))
  rw [readNumericFields, sub_of_le h.footerLen_le,
    readSection_ok hlt (sub_le _ _) hin, ok_bind, returns_bind, returns_runReader]
  exact ⟨sound_numericFieldList.returns _ (Within.start (by rw [hlen]; omega)), fun _ _ => returns_ok _⟩

theorem returns_boolPoints (hlt : bytes.length < 2 ^ 63) :
    (readBoolPoints codec bytes footer).Returns ↔
      ∀ e ∈ bitmapLengths codec (sectionBytes bytes footer.boolFieldsOffset footer.boolFieldsLen)
        (numberAt 4 (sectionBytes bytes footer.boolFieldsOffset footer.boolFieldsLen) 0) 4,
        e.1 + e.2 < 2 ^ 64 := by
  have hin := h.inside.boolFields
  have hlen := length_section (hin.trans (sub_le _ _))
  rw [readBoolPoints, sub_of_le h.footerLen_le, readSection_ok hlt (sub_le _ _) hin, ok_bind,
    returns_bind, returns_boolFieldList codec (by rw [hlen]; omega)]
  exact and_iff_left fun _ _ => returns_ok _

end

/-- The rows of the table that the section can hold have ids of 64 bits. -/
def RowsFit (bytes : ByteSeq) : Prop :=
  12 ≤ bytes.length → numberAt 8 bytes 0 + rowCount bytes ≤ 2 ^ 64

theorem returns_arrayRowIndex (h : Located bytes footer) (hlt : bytes.length < 2 ^ 63) :
    (readArrayRowIndex bytes footer).Returns ↔
      RowsFit (sectionBytes bytes footer.arrayRowIndexOffset footer.arrayRowIndexLen) := by
  have hin := h.inside.arrayRowIndex.trans (sub_le _ _)
  have hlen := length_section hin
  rw [readArrayRowIndex, readSection_ok hlt le_rfl hin, ok_bind,
    returns_rowTable (by rw [hlen]; omega), RowsFit]

end Located

theorem returns_readDocLengths (hlt : bytes.length < 2 ^ 63)
    (hfooter : footerLen ≤ bytes.length) (footer : SegmentFooter) :
    (readDocLengths bytes footer).Returns ∧
      ∀ lengths, readDocLengths bytes footer = .ok lengths → lengths.iter.Returns := by
  rw [readDocLengths, sub_of_le hfooter]
  rcases readSection_cases (Nat.sub_le bytes.length footerLen) footer.docLengthsOffset footer.docLengthsLen
    "doc lengths offset overflow" "doc lengths outside segment bounds" with ⟨message, herr⟩ | ⟨hin, hok⟩
  · rw [herr, err_bind]
    exact ⟨returns_err _, fun _ heq => by cases heq⟩
  rw [hok, ok_bind]
  have hlen := length_section hin
  have hshort : (sectionBytes bytes footer.docLengthsOffset footer.docLengthsLen).length < 2 ^ 63 := by
    rw [hlen]
    omega
  have hwithin := Within.start hshort
  have hreturns := (returns_runReader lengthEntries _).mpr (sound_lengthEntries.returns _ hwithin)
  cases hentries : runReader lengthEntries
      (sectionBytes bytes footer.docLengthsOffset footer.docLengthsLen) with
  | fault => exact absurd hentries hreturns
  | err message => exact ⟨returns_err _, fun _ heq => by cases heq⟩
  | ok entries =>
    rw [ok_bind]
    obtain ⟨hids, hcount⟩ := lengthEntries_bounds hwithin hentries
    exact DocLengths.returns_fromEntries hids (hcount.trans (by decide))

structure Readable (codec : SegmentCodec) (bytes : ByteSeq) (footer : SegmentFooter)
    (dictionary : SortedMap XPathId TermDict) : Prop where
  located : Located bytes footer
  dictionary : readTermDictionary codec bytes footer = .ok dictionary
  numericFields : ∃ fields, readNumericFields bytes footer = .ok fields
  boolFields : ∃ fields, readBoolPoints codec bytes footer = .ok fields
  arrayRowIndex : ∃ rows, readArrayRowIndex bytes footer = .ok rows

/-- A lookup, the list of all terms or a search by a start of terms comes to the
meta. -/
def TermDict.Reaches (codec : SegmentCodec) (dict : TermDict) (m : TermMeta) : Prop :=
  (∃ term, dict.get term = some m) ∨ (∃ e ∈ dict.entries codec, e.2 = m) ∨
    ∃ start, ∃ e ∈ DiskSegment.patternTerms (dict.startingWith codec start), e.2 = m

def blobOf (bytes : ByteSeq) (m : TermMeta) : Option ByteSeq :=
  if m.postingsOffset + m.postingsLen ≤ bytes.length then
    some (sectionBytes bytes m.postingsOffset m.postingsLen)
  else none

/-- The sums the reader forms stay below their bounds: an offset and the length of an
fst or of a bitmap, the base of the row table and its rows, and the deltas of
postings. -/
structure SumsFit (codec : SegmentCodec) (bytes : ByteSeq) : Prop where
  fsts : ∀ footer, Located bytes footer →
    ∀ e ∈ dictionaryLengths codec (sectionBytes bytes footer.dictionaryOffset footer.dictionaryLen),
      e.1 + e.2 < 2 ^ 64
  bitmaps : ∀ footer, Located bytes footer →
    (∃ dictionary, readTermDictionary codec bytes footer = .ok dictionary) →
    (∃ fields, readNumericFields bytes footer = .ok fields) →
    ∀ e ∈ bitmapLengths codec (sectionBytes bytes footer.boolFieldsOffset footer.boolFieldsLen)
      (numberAt 4 (sectionBytes bytes footer.boolFieldsOffset footer.boolFieldsLen) 0) 4,
      e.1 + e.2 < 2 ^ 64
  rows : ∀ footer, Located bytes footer →
    (∃ dictionary, readTermDictionary codec bytes footer = .ok dictionary) →
    (∃ fields, readNumericFields bytes footer = .ok fields) →
    (∃ fields, readBoolPoints codec bytes footer = .ok fields) →
    Located.RowsFit (sectionBytes bytes footer.arrayRowIndexOffset footer.arrayRowIndexLen)
  postings : ∀ footer dictionary, Readable codec bytes footer dictionary →
    ∀ xpath dict, dictionary.get? xpath = some dict → ∀ m, dict.Reaches codec m →
      ∀ blob, blobOf bytes m = some blob → DeltasFit m.docFreq blob

/-- Opening the file returns, and so does every search in it; the lengths and the
rows of a document are found with checked operations only. -/
structure NeverPanics (codec : SegmentCodec) (bytes : ByteSeq) : Prop where
  opens : (DiskSegment.open codec bytes).Returns
  lookup : ∀ s, DiskSegment.open codec bytes = .ok s → ∀ term xpath, (s.lookup term xpath).Returns
  lookupPrefix : ∀ s, DiskSegment.open codec bytes = .ok s →
    ∀ start xpath, (s.lookupPrefix codec start xpath).Returns
  iterTerms : ∀ s, DiskSegment.open codec bytes = .ok s → (s.iterTerms codec).Returns
  numericRange : ∀ s, DiskSegment.open codec bytes = .ok s →
    ∀ xpath lo hi, (s.numericRange xpath lo hi).Returns

namespace DiskSegment

open List DocLengths

variable {codec : SegmentCodec} {bytes : ByteSeq} {s : DiskSegment}

theorem readable_of_open (h : DiskSegment.open codec bytes = .ok s) :
    s.mmap = bytes ∧ ∃ footer, Readable codec bytes footer s.dictionary := by
  simp only [DiskSegment.open, bind_eq_ok] at h
  obtain ⟨_, hheader, footer, hfooter, _, hvalid, lengths, hlengths, _, -, dictionary, hdict, fields, hnum,
    bools, hbool, rows, hrows, heq⟩ := h
  cases heq
  exact ⟨rfl, footer, ⟨⟨hheader, hfooter, hvalid, lengths, hlengths⟩, hdict, ⟨fields, hnum⟩,
    ⟨bools, hbool⟩, ⟨rows, hrows⟩⟩⟩

theorem exists_open {footer : SegmentFooter} {dictionary : SortedMap XPathId TermDict}
    (hlt : bytes.length < 2 ^ 63) (h : Readable codec bytes footer dictionary) :
    ∃ s, DiskSegment.open codec bytes = .ok s ∧ s.dictionary = dictionary := by
  obtain ⟨lengths, hlengths⟩ := h.located.lengths
  obtain ⟨fields, hnum⟩ := h.numericFields
  obtain ⟨bools, hbool⟩ := h.boolFields
  obtain ⟨rows, hrows⟩ := h.arrayRowIndex
  have hiter := (returns_readDocLengths hlt h.located.footerLen_le footer).2 lengths hlengths
  cases hlist : lengths.iter with
  | fault => exact absurd hlist hiter
  | err message => exact absurd hlist (iter_ne_err lengths message)
  | ok list =>
    rw [DiskSegment.open, h.located.header, ok_bind, h.located.read, ok_bind, h.located.valid, ok_bind,
      hlengths, ok_bind, hlist, ok_bind, h.dictionary, ok_bind, hnum, ok_bind, hbool, ok_bind, hrows, ok_bind]
    exact ⟨_, rfl, rfl⟩

theorem returns_open (hlt : bytes.length < 2 ^ 63) :
    (DiskSegment.open codec bytes).Returns ↔
      ∀ footer, Located bytes footer → (readTermDictionary codec bytes footer).Returns ∧
        ((∃ dictionary, readTermDictionary codec bytes footer = .ok dictionary) →
          (∃ fields, readNumericFields bytes footer = .ok fields) →
          (readBoolPoints codec bytes footer).Returns ∧
            ((∃ fields, readBoolPoints codec bytes footer = .ok fields) →
              (readArrayRowIndex bytes footer).Returns)) := by
  simp only [DiskSegment.open, returns_bind]
  constructor
  · rintro ⟨-, hrest⟩ footer hlocated
    obtain ⟨lengths, hlengths⟩ := hlocated.lengths
    obtain ⟨-, hrest⟩ := (hrest () hlocated.header).2 footer hlocated.read
    obtain ⟨hiter, hrest⟩ := (hrest () hlocated.valid).2 lengths hlengths
    cases hlist : lengths.iter with
    | fault => exact absurd hlist hiter
    | err message => exact absurd hlist (iter_ne_err lengths message)
    | ok list =>
      obtain ⟨hdict, hrest⟩ := hrest list hlist
      refine ⟨hdict, fun ⟨dictionary, hd⟩ ⟨fields, hn⟩ => ?_⟩
      obtain ⟨-, hrest⟩ := hrest dictionary hd
      obtain ⟨hbool, hrest⟩ := hrest fields hn
      exact ⟨hbool, fun ⟨bools, hb⟩ => (hrest bools hb).1⟩
  · intro hall
    refine ⟨returns_validateHeader hlt, fun _ hheader => ?_⟩
    have hlen : footerLen ≤ bytes.length :=
      (Nat.le_add_left _ _).trans (footerLen_le_of_validateHeader hheader)
    refine ⟨by rw [readFooter_eq hlen hlt]; exact returns_ok _, fun footer hfooter => ?_⟩
    refine ⟨returns_validateFooter hlen footer, fun _ hvalid => ?_⟩
    obtain ⟨hlengths, hiter⟩ := returns_readDocLengths hlt hlen footer
    refine ⟨hlengths, fun lengths hl => ⟨hiter lengths hl, fun list _ => ?_⟩⟩
    have hlocated : Located bytes footer := ⟨hheader, hfooter, hvalid, lengths, hl⟩
    obtain ⟨hdict, hrest⟩ := hall footer hlocated
    refine ⟨hdict, fun dictionary hd => ⟨hlocated.returns_numericFields hlt, fun fields hn => ?_⟩⟩
    obtain ⟨hbool, hrows⟩ := hrest ⟨dictionary, hd⟩ ⟨fields, hn⟩
    exact ⟨hbool, fun bools hb => ⟨hrows ⟨bools, hb⟩, fun _ _ => returns_ok _⟩⟩

/-! ### Lookups -/

theorem postingBytes_eq (hlt : s.mmap.length < 2 ^ 63) (m : TermMeta) :
    s.postingBytes m = .ok (blobOf s.mmap m) := by
  rw [postingBytes, blobOf]
  by_cases hin : m.postingsOffset + m.postingsLen ≤ s.mmap.length
  · rw [if_neg (by omega), if_neg (Nat.not_lt.mpr hin), if_pos hin, slice_section hin, ok_bind]
    rfl
  · rw [if_neg hin]
    split_ifs with hover hend
    · rfl
    · rfl
    · exact absurd (Nat.not_lt.mp hend) hin

def BlobFits (s : DiskSegment) (m : TermMeta) : Prop :=
  ∀ blob, blobOf s.mmap m = some blob → DeltasFit m.docFreq blob

section

variable (hlt : s.mmap.length < 2 ^ 63)
include hlt

theorem readPostings_cases (m : TermMeta) :
    (s.BlobFits m ∧ ∃ list, s.readPostings m = .ok list) ∨
      (¬ s.BlobFits m ∧ s.readPostings m = .fault) := by
  rw [readPostings, postingBytes_eq hlt, ok_bind, BlobFits]
  cases hblob : blobOf s.mmap m with
  | none => exact .inl ⟨fun _ heq => (by cases heq), _, rfl⟩
  | some blob =>
    have hfit := returns_readPostingListInto_iff_fit m.docFreq [] blob
    simp only [Option.some.injEq, forall_eq']
    cases hread : readPostingListInto m.docFreq 0 [] blob with
    | fault => exact .inr ⟨fun hf => hfit.mpr hf hread, rfl⟩
    | err message => exact absurd hread (readPostingListInto_ne_err _ _ _ _ _)
    | ok p =>
      refine .inl ⟨hfit.mp (hread ▸ returns_ok p), ?_⟩
      obtain ⟨items, _ | message⟩ := p
      · exact ⟨_, rfl⟩
      · exact ⟨_, rfl⟩

theorem readPostingsInto_cases (m : TermMeta) (out : List Posting) :
    (s.BlobFits m ∧ ∃ list, s.readPostingsInto out m = .ok list) ∨
      (¬ s.BlobFits m ∧ s.readPostingsInto out m = .fault) := by
  rw [readPostingsInto, postingBytes_eq hlt, ok_bind, BlobFits]
  cases hblob : blobOf s.mmap m with
  | none => exact .inl ⟨fun _ heq => (by cases heq), _, rfl⟩
  | some blob =>
    have hfit := returns_readPostingListInto_iff_fit m.docFreq out blob
    simp only [Option.some.injEq, forall_eq']
    cases hread : readPostingListInto m.docFreq 0 out blob with
    | fault => exact .inr ⟨fun hf => hfit.mpr hf hread, rfl⟩
    | err message => exact absurd hread (readPostingListInto_ne_err _ _ _ _ _)
    | ok p => exact .inl ⟨hfit.mp (hread ▸ returns_ok p), _, rfl⟩

theorem returns_readPostings (m : TermMeta) :
    (s.readPostings m).Returns ↔ s.BlobFits m := by
  rcases readPostings_cases hlt m with ⟨hfit, list, hok⟩ | ⟨hno, hfault⟩
  · exact ⟨fun _ => hfit, fun _ => hok ▸ returns_ok list⟩
  · exact ⟨fun h => absurd hfault h, fun h => absurd h hno⟩

theorem returns_lookup (term : String) (xpath : XPathId) :
    (s.lookup term xpath).Returns ↔ ∀ m, s.meta? xpath term = some m → s.BlobFits m := by
  rw [lookup]
  cases hmeta : s.meta? xpath term with
  | none => exact ⟨fun _ m hm => (by cases hm), fun _ => returns_ok _⟩
  | some m =>
    simp only [Option.some.injEq, forall_eq']
    exact returns_readPostings hlt m

theorem returns_iterTerms :
    (s.iterTerms codec).Returns ↔
      ∀ f ∈ s.dictionary.entries, ∀ e ∈ f.2.entries codec, s.BlobFits e.2 := by
  rw [iterTerms, returns_collect_iff]
  · simp only [mem_flatMap, mem_map]
    constructor
    · intro hall f hf e he
      have hreturns := hall _ ⟨f, hf, e, he, rfl⟩
      exact (returns_readPostings hlt e.2).mp (returns_bind.mp hreturns).1
    · rintro hall o ⟨f, hf, e, he, rfl⟩
      exact returns_bind.mpr ⟨(returns_readPostings hlt e.2).mpr (hall f hf e he), fun _ _ => returns_ok _⟩
  · simp only [mem_flatMap, mem_map]
    rintro o ⟨f, -, e, -, rfl⟩ message heq
    rcases readPostings_cases hlt e.2 with ⟨-, list, hok⟩ | ⟨-, hfault⟩
    · rw [hok, ok_bind] at heq
      cases heq
    · rw [hfault, fault_bind] at heq
      cases heq

theorem returns_foldlM (found : List (String × TermMeta))
    (out : List Posting) :
    (found.foldlM (fun out e => s.readPostingsInto out e.2) out).Returns ↔
      ∀ e ∈ found, s.BlobFits e.2 := by
  induction found generalizing out with
  | nil => exact ⟨fun _ e he => (by cases he), fun _ => returns_ok _⟩
  | cons e found ih =>
    rw [foldlM_cons, forall_mem_cons]
    rcases readPostingsInto_cases hlt e.2 out with ⟨hfit, list, hok⟩ | ⟨hno, hfault⟩
    · rw [hok, ok_bind, ih list]
      exact ⟨fun h => ⟨hfit, h⟩, fun h => h.2⟩
    · rw [hfault, fault_bind]
      exact ⟨fun h => absurd rfl h, fun h => absurd h.1 hno⟩

theorem returns_lookupPrefix (start : String) (xpath : XPathId) :
    (s.lookupPrefix codec start xpath).Returns ↔ ∀ dict, s.dictionary.get? xpath = some dict →
      ∀ e ∈ patternTerms (dict.startingWith codec start), s.BlobFits e.2 := by
  rw [lookupPrefix]
  cases hdict : s.dictionary.get? xpath with
  | none => exact ⟨fun _ dict hd => (by cases hd), fun _ => returns_ok _⟩
  | some dict =>
    simp only [Option.some.injEq, forall_eq', returns_bind]
    rw [returns_foldlM hlt]
    exact and_iff_left fun _ _ => returns_ok _

end

theorem rangeSlice_eq (b : Bkd) (lo hi : Option NumericBound) :
    b.rangeSlice lo hi = .ok (b.range lo hi) := by
  have hslice : ∀ start stop, stop ≤ b.points.length →
      (if start ≥ stop then pure [] else slice b.points start stop >>= fun points =>
        pure (sortDedup (points.map Prod.snd)) : Fallible (List DocId))
      = .ok (if start ≥ stop then [] else sortDedup (((b.points.take stop).drop start).map Prod.snd)) := by
    intro start stop hstop
    by_cases hempty : start ≥ stop
    · rw [if_pos hempty, if_pos hempty]
      rfl
    · rw [if_neg hempty, if_neg hempty, slice_of_le (Nat.le_of_lt (Nat.not_le.mp hempty)) hstop, ok_bind]
      rfl
  refine hslice _ _ ?_
  split
  · split_ifs
    · exact Keyed.partitionPoint_le _ _
    · exact Keyed.partitionPoint_le _ _
  · exact le_rfl

theorem returns_numericRange (xpath : XPathId) (lo hi : Option NumericBound) :
    (s.numericRange xpath lo hi).Returns := by
  unfold numericRange
  cases s.numericFields.get? xpath with
  | none => exact returns_ok _
  | some field =>
    simp only [rangeSlice_eq]
    exact returns_ok _

end DiskSegment

/-- Opening and searching a file never panics just when the sums fit. -/
theorem neverPanics_iff (codec : SegmentCodec) (mmap : Mmap) :
    NeverPanics codec mmap.bytes ↔ SumsFit codec mmap.bytes := by
  have hlt := mmap.length_lt
  have hmmap : ∀ s, DiskSegment.open codec mmap.bytes = .ok s → s.mmap.length < 2 ^ 63 := by
    intro s hs
    rw [(DiskSegment.readable_of_open hs).1]
    exact hlt
  constructor
  · intro h
    have hopen := (DiskSegment.returns_open hlt).mp h.opens
    refine ⟨fun footer hl => (hl.returns_dictionary hlt).mp (hopen footer hl).1,
      fun footer hl hd hn => (hl.returns_boolPoints hlt).mp ((hopen footer hl).2 hd hn).1,
      fun footer hl hd hn hb => (hl.returns_arrayRowIndex hlt).mp (((hopen footer hl).2 hd hn).2 hb),
      fun footer dictionary hread xpath dict hdict m hreach => ?_⟩
    obtain ⟨s, hs, rfl⟩ := DiskSegment.exists_open hlt hread
    have hfits : s.BlobFits m := by
      rcases hreach with ⟨term, hget⟩ | ⟨e, he, rfl⟩ | ⟨start, e, he, rfl⟩
      · refine (DiskSegment.returns_lookup (hmmap s hs) term xpath).mp (h.lookup s hs term xpath) m ?_
        rw [DiskSegment.meta?, hdict, Option.bind_some, hget]
      · exact (DiskSegment.returns_iterTerms (hmmap s hs)).mp (h.iterTerms s hs) (xpath, dict)
          (SortedMap.mem_entries.mpr hdict) e he
      · exact (DiskSegment.returns_lookupPrefix (hmmap s hs) start xpath).mp
          (h.lookupPrefix s hs start xpath) dict hdict e he
    rwa [DiskSegment.BlobFits, (DiskSegment.readable_of_open hs).1] at hfits
  · intro h
    have hfits : ∀ s, DiskSegment.open codec mmap.bytes = .ok s → ∀ xpath dict,
        s.dictionary.get? xpath = some dict → ∀ m, dict.Reaches codec m → s.BlobFits m := by
      intro s hs xpath dict hdict m hreach
      obtain ⟨hbytes, footer, hread⟩ := DiskSegment.readable_of_open hs
      rw [DiskSegment.BlobFits, hbytes]
      exact h.postings footer s.dictionary hread xpath dict hdict m hreach
    refine ⟨(DiskSegment.returns_open hlt).mpr fun footer hl => ?_, fun s hs term xpath => ?_,
      fun s hs start xpath => ?_, fun s hs => ?_,
      fun s hs xpath lo hi => DiskSegment.returns_numericRange xpath lo hi⟩
    · exact ⟨(hl.returns_dictionary hlt).mpr (h.fsts footer hl), fun hd hn =>
        ⟨(hl.returns_boolPoints hlt).mpr (h.bitmaps footer hl hd hn), fun hb =>
          (hl.returns_arrayRowIndex hlt).mpr (h.rows footer hl hd hn hb)⟩⟩
    · refine (DiskSegment.returns_lookup (hmmap s hs) term xpath).mpr fun m hm => ?_
      obtain ⟨dict, hdict, hget⟩ := Option.bind_eq_some_iff.mp hm
      exact hfits s hs xpath dict hdict m (.inl ⟨term, hget⟩)
    · exact (DiskSegment.returns_lookupPrefix (hmmap s hs) start xpath).mpr fun dict hdict e he =>
        hfits s hs xpath dict hdict e.2 (.inr (.inr ⟨start, e, he, rfl⟩))
    · exact (DiskSegment.returns_iterTerms (hmmap s hs)).mpr fun f hf e he =>
        hfits s hs f.1 f.2 (SortedMap.mem_entries.mp hf) e.2 (.inr (.inl ⟨e, he, rfl⟩))

/-- One field with one term, whose fst is said to have `2 ^ 64 - 1` bytes. -/
def overlongFst : Mmap where
  bytes := segmentMagic ++ leBytes 4 segmentVersion ++ leBytes 4 0 ++
    (leBytes 4 1 ++ leBytes 4 0 ++ leBytes 4 1 ++ leBytes 8 (2 ^ 64 - 1)) ++
    leBytes 4 0 ++ leBytes 4 0 ++ leBytes 12 0 ++
    (leBytes 8 12 ++ leBytes 8 4 ++ leBytes 8 16 ++ leBytes 8 20 ++ leBytes 8 36 ++ leBytes 8 4 ++
      leBytes 4 1 ++ leBytes 8 0 ++ leBytes 8 0 ++ leBytes 8 44 ++ leBytes 8 12 ++
      leBytes 8 40 ++ leBytes 8 4)
  length_lt := by simp [segmentMagic]

set_option maxRecDepth 4000 in
theorem open_overlongFst (codec : SegmentCodec) : DiskSegment.open codec overlongFst.bytes = .fault := rfl

/-- The offset behind that length overflows, whatever the parsers do. -/
theorem overlongFst_panics : ¬∃ codec, NeverPanics codec overlongFst.bytes := by
  rintro ⟨codec, h⟩
  exact h.opens (open_overlongFst codec)

/-
Readers look only at what they take.

`Frames r` says that a read of `r` that succeeds depends on the bytes it takes and on no
others: with other bytes behind them it gives the same value and leaves those bytes.
-/
import Riets.RecordFormat

/-- What a reader takes does not depend on the bytes behind it. -/
def Frames {α : Type} (r : ByteReader α) : Prop :=
  ∀ bytes a rest, r bytes = .ok (a, rest) →
    ∃ used, bytes = used ++ rest ∧ ∀ more, r (used ++ more) = .ok (a, more)

namespace Frames

open List

variable {α β : Type} {r : ByteReader α} {f : α → ByteReader β}

theorem pure (a : α) : Frames (Pure.pure a) := by
  intro bytes b rest h
  obtain ⟨rfl, rfl⟩ : a = b ∧ bytes = rest := by
    cases h
    exact ⟨rfl, rfl⟩
  exact ⟨[], rfl, fun more => rfl⟩

theorem throw (e : ReadError) : Frames (throw e : ByteReader α) := by
  intro bytes a rest h
  cases h

theorem bind (hr : Frames r) (hf : ∀ a, Frames (f a)) : Frames (r >>= f) := by
  intro bytes b rest h
  have h : Except.bind (r bytes) (fun p => f p.1 p.2) = .ok (b, rest) := h
  cases hread : r bytes with
  | error e =>
    rw [hread] at h
    cases h
  | ok p =>
    rw [hread] at h
    have h : f p.1 p.2 = .ok (b, rest) := h
    obtain ⟨used, hused, hmore⟩ := hr bytes p.1 p.2 hread
    obtain ⟨used', hused', hmore'⟩ := hf p.1 p.2 b rest h
    refine ⟨used ++ used', by rw [hused, hused', append_assoc], ?_⟩
    intro more
    show Except.bind (r (used ++ used' ++ more)) (fun p => f p.1 p.2) = _
    rw [append_assoc, hmore]
    exact hmore' more

theorem map (hr : Frames r) (g : α → β) : Frames (g <$> r) := by
  have heq : (g <$> r) = r >>= fun a => Pure.pure (g a) := rfl
  rw [heq]
  exact hr.bind fun a => pure (g a)

theorem exact (n : ℕ) : Frames (readExact n) := by
  intro bytes a rest h
  rw [readExact] at h
  split_ifs at h with hn
  have heq : (bytes.take n, bytes.drop n) = (a, rest) := Except.ok.inj h
  obtain ⟨rfl, rfl⟩ := Prod.mk.inj heq
  have hlen : (bytes.take n).length = n := by
    rw [length_take]
    omega
  exact ⟨bytes.take n, (take_append_drop n bytes).symm, fun more => (Decodes.exact hlen).whole more⟩

theorem mono (hr : Frames r) {bytes rest : ByteSeq} {a : α} (h : r bytes = .ok (a, rest))
    {bytes' : ByteSeq} (hpre : bytes <+: bytes') : ∃ rest', r bytes' = .ok (a, rest') := by
  obtain ⟨used, rfl, hmore⟩ := hr bytes a rest h
  obtain ⟨more, rfl⟩ := hpre
  refine ⟨rest ++ more, ?_⟩
  rw [append_assoc]
  exact hmore (rest ++ more)

end Frames

/-! ### The readers of the document store -/

theorem frames_u8 : Frames readU8 := by
  intro bytes a rest h
  cases bytes with
  | nil => cases h
  | cons b bytes =>
    cases h
    exact ⟨[a], rfl, fun more => rfl⟩

theorem frames_sized : Frames readSized := ((Frames.exact 4).map leNat).bind fun n => Frames.exact n

theorem frames_orInvalid {α : Type} (o : Option α) : Frames (orInvalid o) := by
  cases o with
  | none => exact Frames.throw _
  | some a => exact Frames.pure a

theorem frames_string : Frames readString := frames_sized.bind fun _ => frames_orInvalid _

theorem frames_u64 : Frames readU64 := (Frames.exact 8).map leNat

theorem frames_document : Frames readDocument :=
  frames_string.bind fun _ => frames_u64.bind fun _ => frames_u8.bind fun _ =>
    (frames_orInvalid _).bind fun _ => frames_sized.bind fun _ => Frames.pure _

theorem frames_delete : Frames readDelete :=
  frames_string.bind fun _ => frames_u64.bind fun _ => Frames.pure _

theorem frames_record : Frames readRecord := by
  refine frames_u8.bind fun op => ?_
  rw [readOp]
  split_ifs
  · exact frames_document.map StoreRecord.put
  · exact frames_delete
  · exact Frames.throw _

theorem scanRecords_succ {fuel pos : ℕ} {bytes : ByteSeq} (hne : bytes ≠ []) :
    scanRecords (fuel + 1) pos bytes =
      match readRecord bytes with
      | .ok (record, rest) =>
        (⟨pos, bytes.length - rest.length, record⟩ ::
            (scanRecords fuel (pos + (bytes.length - rest.length)) rest).1,
          (scanRecords fuel (pos + (bytes.length - rest.length)) rest).2)
      | .error .unexpectedEof => ([], .torn pos)
      | .error .invalidData => ([], .invalid) := by
  cases bytes with
  | nil => exact absurd rfl hne
  | cons b bytes => rfl

theorem le_of_scanRecords_torn {fuel pos : ℕ} {bytes : ByteSeq} {cut : ℕ}
    (h : (scanRecords fuel pos bytes).2 = .torn cut) : pos ≤ cut := by
  induction fuel generalizing pos bytes with
  | zero => cases h
  | succ fuel ih =>
    by_cases hnil : bytes = []
    · rw [hnil] at h
      cases h
    · rw [scanRecords_succ hnil] at h
      split at h
      · have := ih h
        omega
      · cases h
        exact le_refl _
      · cases h

theorem mem_scanRecords {fuel pos : ℕ} {bytes : ByteSeq} {p : PlacedRecord}
    (h : p ∈ (scanRecords fuel pos bytes).1) :
    ∃ pre used rest, bytes = pre ++ (used ++ rest) ∧ p.start = pos + pre.length ∧
      (∀ more, readRecord (used ++ more) = .ok (p.record, more)) ∧
      ∀ cut, (scanRecords fuel pos bytes).2 = .torn cut → p.start + used.length ≤ cut := by
  induction fuel generalizing pos bytes with
  | zero => cases h
  | succ fuel ih =>
    by_cases hnil : bytes = []
    · rw [hnil] at h
      cases h
    · rw [scanRecords_succ hnil] at h ⊢
      cases hread : readRecord bytes with
      | error e =>
        rw [hread] at h
        cases e <;> cases h
      | ok r =>
        obtain ⟨record, rest⟩ := r
        rw [hread] at h
        obtain ⟨used, hused, hmore⟩ := frames_record bytes record rest hread
        have hlen : bytes.length - rest.length = used.length := by
          rw [hused, List.length_append]
          omega
        simp only [hlen] at h ⊢
        rcases List.mem_cons.mp h with rfl | h
        · refine ⟨[], used, rest, hused, rfl, hmore, ?_⟩
          intro cut hcut
          exact le_of_scanRecords_torn hcut
        · -- behind the first record
          obtain ⟨pre, used', rest', hrest, hstart, hmore', hcut⟩ := ih h
          refine ⟨used ++ pre, used', rest', ?_, ?_, hmore', hcut⟩
          · rw [hused, hrest, List.append_assoc]
          · rw [hstart, List.length_append, Nat.add_assoc]

/-
The order of numbers, and of their packed forms.

A packed value is the value's sort key, moved up by `2 ^ 63`: packing keeps the order of
the numbers of a kind.  So a list of points, the packed points of a range search and the
column of a document's values answer alike.
-/
import Riets.Numeric

/-! ### Sort keys -/

def NumericValue.sortKey : NumericValue → ℤ
  | .int v => v.toInt
  | .float bits => totalKey bits

theorem toNat_lt_of_not_msb {b : BitVec 64} (h : b.msb = false) : b.toNat < 2 ^ 63 := by
  rw [BitVec.msb_eq_decide, decide_eq_false_iff_not] at h
  omega

theorem toNat_xor_signBit {b : BitVec 64} (h : b.msb = false) :
    (b ^^^ signBit).toNat = b.toNat + 2 ^ 63 := by
  have hand : b &&& signBit = 0 := (and_signBit_eq_zero b).mpr h
  have hlt : b.toNat < 2 ^ 63 := toNat_lt_of_not_msb h
  have hxor : b ^^^ signBit = b + signBit := by
    rw [BitVec.add_eq_or_of_and_eq_zero _ _ hand]
    refine BitVec.eq_of_getLsbD_eq fun i hi => ?_
    have hbit := congrArg (fun v : BitVec 64 => v.getLsbD i) hand
    simp only [BitVec.getLsbD_and, BitVec.ofNat_eq_ofNat, BitVec.getLsbD_zero] at hbit
    rw [BitVec.getLsbD_xor, BitVec.getLsbD_or]
    cases hb : b.getLsbD i with
    | false => rw [Bool.false_xor, Bool.false_or]
    | true =>
      rw [hb, Bool.true_and] at hbit
      rw [hbit]
      rfl
  have hsign : signBit.toNat = 2 ^ 63 := by decide
  rw [hxor, BitVec.toNat_add, hsign]
  omega

theorem toNat_xor_signBit_of_msb {b : BitVec 64} (h : b.msb = true) :
    (b ^^^ signBit).toNat + 2 ^ 63 = b.toNat := by
  have hmsb : (b ^^^ signBit).msb = false := by rw [msb_xor_signBit, h]; rfl
  have hback := toNat_xor_signBit hmsb
  rw [xor_signBit_cancel] at hback
  exact hback.symm

theorem totalKey_of_msb {bits : BitVec 64} (h : bits.msb = true) :
    NumericValue.totalKey bits = ((~~~bits) ^^^ signBit).toInt := by
  have hones : bits.sshiftRight 63 = BitVec.allOnes 64 := by
    rw [BitVec.sshiftRight_eq_of_msb_true h]
    have hsmall : (~~~bits).toNat < 2 ^ 63 := toNat_lt_of_not_msb (by rw [msb_not_eq, h]; rfl)
    have hshift : (~~~bits) >>> 63 = 0#64 := by
      refine BitVec.eq_of_toNat_eq ?_
      rw [BitVec.toNat_ushiftRight, Nat.shiftRight_eq_div_pow, Nat.div_eq_of_lt hsmall]
      rfl
    rw [hshift]
    rfl
  have hmask : (BitVec.allOnes 64) >>> 1 = BitVec.allOnes 64 ^^^ signBit := by decide
  rw [NumericValue.totalKey, hones, hmask, ← BitVec.xor_assoc, BitVec.xor_allOnes]

theorem totalKey_of_not_msb {bits : BitVec 64} (h : bits.msb = false) :
    NumericValue.totalKey bits = bits.toInt := by
  have hlt : bits.toNat < 2 ^ 63 := toNat_lt_of_not_msb h
  have hshift : bits.sshiftRight 63 = 0#64 := by
    rw [BitVec.sshiftRight_eq_of_msb_false h]
    refine BitVec.eq_of_toNat_eq ?_
    rw [BitVec.toNat_ushiftRight, Nat.shiftRight_eq_div_pow, Nat.div_eq_of_lt hlt]
    rfl
  have hzero : (0#64) >>> 1 = 0#64 := by decide
  rw [NumericValue.totalKey, hshift, hzero, BitVec.xor_zero]

theorem packInt_toNat (v : BitVec 64) : ((packInt v).toNat : ℤ) = v.toInt + 2 ^ 63 := by
  rw [packInt, BitVec.toInt_eq_msb_cond]
  cases h : v.msb with
  | false =>
    have hup := toNat_xor_signBit h
    simp only [Bool.false_eq_true, if_false]
    omega
  | true =>
    have hdown := toNat_xor_signBit_of_msb h
    simp only [if_true]
    omega

theorem packFloat_toNat (bits : BitVec 64) :
    ((packFloat bits).toNat : ℤ) = NumericValue.totalKey bits + 2 ^ 63 := by
  cases h : bits.msb with
  | false => rw [packFloat_of_not_msb h, totalKey_of_not_msb h, ← packInt_toNat, packInt]
  | true =>
    rw [packFloat_of_msb h, totalKey_of_msb h, ← packInt_toNat, packInt, xor_signBit_cancel]

theorem pack_toNat (v : NumericValue) : ((pack v).toNat : ℤ) = v.sortKey + 2 ^ 63 := by
  cases v with
  | int v => exact packInt_toNat v
  | float bits => exact packFloat_toNat bits

variable {v : NumericValue}

theorem NumericValue.cmp_eq_compare {w : NumericValue} (h : v.kind = w.kind) :
    v.cmp w = compare v.sortKey w.sortKey := by
  cases v <;> cases w <;> first | rfl | cases h

theorem cmp_eq_compare_pack {w : NumericValue} (h : v.kind = w.kind) :
    v.cmp w = compare (pack v).toNat (pack w).toNat := by
  rw [NumericValue.cmp_eq_compare h]
  have hv := pack_toNat v
  have hw := pack_toNat w
  rcases lt_trichotomy v.sortKey w.sortKey with hlt | heq | hgt
  · rw [compare_lt_iff_lt.mpr hlt, compare_lt_iff_lt.mpr (by omega)]
  · rw [compare_eq_iff_eq.mpr heq, compare_eq_iff_eq.mpr (by omega)]
  · rw [compare_gt_iff_gt.mpr hgt, compare_gt_iff_gt.mpr (by omega)]

theorem packedBelow_eq {lo : NumericBound} (h : v.kind = lo.value.kind) :
    packedBelow (some lo) (pack v) = lo.belowLo v := by
  rw [NumericBound.belowLo, cmp_eq_compare_pack h, packedBelow]
  rcases lt_trichotomy (pack v).toNat (pack lo.value).toNat with hlt | heq | hgt
  · rw [compare_lt_iff_lt.mpr hlt]
    simp only [BitVec.lt_def, BitVec.le_def, hlt, hlt.le, decide_true, ite_self]
  · rw [compare_eq_iff_eq.mpr heq]
    cases lo.inclusive <;> simp [BitVec.lt_def, BitVec.le_def, heq]
  · rw [compare_gt_iff_gt.mpr hgt]
    simp only [BitVec.lt_def, BitVec.le_def, not_lt.mpr hgt.le, not_le.mpr hgt, decide_false, ite_self]

theorem packedUpTo_eq {hi : NumericBound} (h : v.kind = hi.value.kind) :
    packedUpTo (some hi) (pack v) = !hi.pastHi v := by
  rw [NumericBound.pastHi, cmp_eq_compare_pack h, packedUpTo]
  rcases lt_trichotomy (pack v).toNat (pack hi.value).toNat with hlt | heq | hgt
  · rw [compare_lt_iff_lt.mpr hlt]
    simp only [BitVec.lt_def, BitVec.le_def, hlt, hlt.le, decide_true, ite_self, Bool.not_false]
  · rw [compare_eq_iff_eq.mpr heq]
    cases hi.inclusive <;> simp [BitVec.lt_def, BitVec.le_def, heq]
  · rw [compare_gt_iff_gt.mpr hgt]
    simp only [BitVec.lt_def, BitVec.le_def, not_lt.mpr hgt.le, not_le.mpr hgt, decide_false,
      ite_self, Bool.not_true]

theorem packed_inBounds {lo hi : Option NumericBound}
    (hlo : ∀ b ∈ lo, v.kind = b.value.kind) (hhi : ∀ b ∈ hi, v.kind = b.value.kind) :
    packedUpTo hi (pack v) = true ∧ packedBelow lo (pack v) = false ↔ inBounds v lo hi = true := by
  have hbelow : packedBelow lo (pack v) = !lo.all fun b => !b.belowLo v := by
    cases lo with
    | none => rfl
    | some b => rw [packedBelow_eq (hlo b rfl), Option.all_some, Bool.not_not]
  have hupTo : packedUpTo hi (pack v) = hi.all fun b => !b.pastHi v := by
    cases hi with
    | none => rfl
    | some b => rw [packedUpTo_eq (hhi b rfl), Option.all_some]
  rw [hbelow, hupTo, inBounds, Bool.and_eq_true, Bool.not_eq_false', and_comm]

/-! ### Points that were inserted and merged -/

structure FiledPoint where
  xpath : XPathId
  docId : DocId
  value : NumericValue
  deriving DecidableEq, Repr

/-- The points that `insert` and `merge` calls put together. -/
inductive NumericPoints.MadeOf : NumericPoints → List FiledPoint → Prop
  | empty : MadeOf .empty []
  | insert {n : NumericPoints} {points : List FiledPoint} (p : FiledPoint) :
      MadeOf n points → MadeOf (n.insert p.xpath p.value p.docId) (points ++ [p])
  | merge {n other : NumericPoints} {points added : List FiledPoint} :
      MadeOf n points → MadeOf other added → MadeOf (n.merge other) (points ++ added)

/-- The documents with a point of the field between the bounds, found by looking at every point. -/
def idsInBounds (points : List FiledPoint) (xpath : XPathId) (lo hi : Option NumericBound) :
    List DocId :=
  sortDedup ((points.filter fun p => p.xpath = xpath && inBounds p.value lo hi).map
    FiledPoint.docId)

def OneValue (points : List FiledPoint) (x : XPathId) : Prop :=
  ∀ p ∈ points, ∀ q ∈ points, p.xpath = x → q.xpath = x → p.docId = q.docId → p.value = q.value

instance (points : List FiledPoint) (x : XPathId) : Decidable (OneValue points x) :=
  inferInstanceAs (Decidable (∀ p ∈ points, ∀ q ∈ points,
    p.xpath = x → q.xpath = x → p.docId = q.docId → p.value = q.value))

namespace NumericPoints.MadeOf

open List Option Keyed NumericField

variable {n : NumericPoints} {points : List FiledPoint} {x : XPathId} {d : DocId}
  {v : NumericValue} {k : NumericKind}

theorem of_eq (h : n.MadeOf points) (x : XPathId) (d : DocId) :
    (n.at_ x).of d
      = (points.filter fun p => p.xpath = x ∧ p.docId = d).map fun p => (p.docId, p.value) := by
  induction h with
  | empty => rfl
  | insert p h ih =>
    rw [of_insert, ih, filter_append, map_append, filter_singleton]
    by_cases hp : p.xpath = x ∧ p.docId = d
    · rw [if_pos ⟨hp.1.symm, hp.2⟩, decide_eq_true hp]
      rfl
    · rw [if_neg fun hx => hp ⟨hx.1.symm, hx.2⟩, decide_eq_false hp]
      rfl
  | merge h ho ih iho => rw [of_merge, ih, iho, filter_append, map_append]

theorem mem_of_iff (h : n.MadeOf points) : (d, v) ∈ (n.at_ x).of d ↔ ⟨x, d, v⟩ ∈ points := by
  rw [h.of_eq, List.mem_map]
  constructor
  · rintro ⟨⟨x', d', v'⟩, hp, heq⟩
    obtain ⟨hmem, hkey⟩ := mem_filter.mp hp
    obtain ⟨rfl, rfl⟩ := of_decide_eq_true hkey
    obtain ⟨-, rfl⟩ := Prod.mk.injEq _ _ _ _ ▸ heq
    exact hmem
  · intro hmem
    exact ⟨⟨x, d, v⟩, mem_filter.mpr ⟨hmem, decide_eq_true ⟨rfl, rfl⟩⟩, rfl⟩

theorem range_eq (h : n.MadeOf points) (x : XPathId) (lo hi : Option NumericBound) :
    n.range x lo hi = idsInBounds points x lo hi := by
  refine (ascending_sortDedup _).eq_of_mem_iff (ascending_sortDedup _) fun d => ?_
  show d ∈ n.range x lo hi ↔ d ∈ idsInBounds points x lo hi
  rw [mem_range, idsInBounds, mem_sortDedup, List.mem_map]
  constructor
  · rintro ⟨v, hmem, hv⟩
    exact ⟨⟨x, d, v⟩, mem_filter.mpr ⟨h.mem_of_iff.mp hmem, by simp [hv]⟩, rfl⟩
  · rintro ⟨⟨x', d', v⟩, hp, rfl⟩
    obtain ⟨hmem, hv⟩ := mem_filter.mp hp
    rw [Bool.and_eq_true, decide_eq_true_eq] at hv
    obtain ⟨rfl, hv⟩ := hv
    exact ⟨v, h.mem_of_iff.mpr hmem, hv⟩

theorem build_range_eq (h : n.MadeOf points) (hk : ∀ p ∈ points, p.xpath = x → p.value.kind = k)
    {lo hi : Option NumericBound} (hlo : ∀ b ∈ lo, b.value.kind = k)
    (hhi : ∀ b ∈ hi, b.value.kind = k) : n.build.range x lo hi = n.range x lo hi := by
  have hasc : (n.build.range x lo hi).Pairwise (· < ·) := by
    rw [NumericFields.range]
    cases n.build.fields.get? x with
    | none => exact Pairwise.nil
    | some f =>
      rw [map_some, getD_some, Bkd.range_eq]
      exact ascending_sortDedup _
  refine hasc.eq_of_mem_iff (ascending_sortDedup _) fun d => ?_
  show d ∈ n.build.range x lo hi ↔ d ∈ n.range x lo hi
  rw [NumericFields.mem_range, mem_range, of_build]
  -- every point of the document is of the kind of the bounds
  have hkind : ∀ e ∈ (n.at_ x).of d, e.1 = d ∧ e.2.kind = k := by
    intro e he
    have hd : e.1 = d := by simpa using (mem_filter.mp he).2
    obtain ⟨d', v⟩ := e
    obtain rfl : d' = d := hd
    exact ⟨rfl, hk _ (h.mem_of_iff.mp he) rfl⟩
  have hbounds : ∀ e ∈ (n.at_ x).of d,
      (packedUpTo hi (pack e.2) = true ∧ packedBelow lo (pack e.2) = false ↔
        inBounds e.2 lo hi = true) := by
    intro e he
    exact packed_inBounds (fun b hb => (hkind e he).2.trans (hlo b hb).symm)
      fun b hb => (hkind e he).2.trans (hhi b hb).symm
  constructor
  · rintro ⟨e, he, hb⟩
    obtain ⟨⟨d', v⟩, hmem, rfl⟩ := mem_map.mp he
    obtain rfl : d' = d := (hkind _ hmem).1
    exact ⟨v, hmem, (hbounds _ hmem).mp hb⟩
  · rintro ⟨v, hmem, hv⟩
    exact ⟨(d, pack v), mem_map.mpr ⟨(d, v), hmem, rfl⟩, (hbounds _ hmem).mpr hv⟩

theorem get_eq (n : NumericPoints) (x : XPathId) (d : DocId) :
    n.get x d = (((n.at_ x).of d).head?).map Prod.snd := by
  have hmono : ∀ a b : DocId × NumericValue, a.1 ≤ b.1 → decide (b.1 < d) = true →
      decide (a.1 < d) = true := by
    intro a b hab hb
    simp only [decide_eq_true_eq] at hb ⊢
    exact lt_of_le_of_lt hab hb
  have hsorted := (n.at_ x).sorted
  rw [get, DocPoints.of]
  generalize (n.at_ x).items = points at hsorted
  have hat : points[partitionPoint (fun p => decide (p.1 < d)) points]?
      = (points.filter fun p => !decide (p.1 < d)).head? := by
    have hdrop := drop_partitionPoint_take (fun p => decide (p.1 < d)) points points.length
    rw [take_length] at hdrop
    rw [← dropWhile_eq_filter hsorted hmono, ← hdrop, head?_drop]
  rw [hat]
  congr 1
  -- of the points from the document on, the first is the document's or none is
  have hrest : points.filter (fun p => p.1 = d)
      = (points.filter fun p => !decide (p.1 < d)).filter fun p => p.1 = d :=
    (filter_key_filter (fun p _ hp => by simp [hp])).symm
  rw [hrest]
  have hge : ∀ p ∈ points.filter (fun p => !decide (p.1 < d)), d ≤ p.1 := by
    intro p hp
    simpa using (mem_filter.mp hp).2
  have hrest_sorted : Sorted Prod.fst (points.filter fun p => !decide (p.1 < d)) :=
    hsorted.sublist filter_sublist
  cases hcase : points.filter fun p => !decide (p.1 < d) with
  | nil => rfl
  | cons p rest =>
    rw [hcase] at hge hrest_sorted
    by_cases hp : p.1 = d
    · simp [hp]
    · have hnone : (p :: rest).filter (fun q => decide (q.1 = d)) = [] := by
        rw [filter_eq_nil_iff]
        intro q hq
        have hpd : d < p.1 := lt_of_le_of_ne (hge p mem_cons_self) (Ne.symm hp)
        have hpq : p.1 ≤ q.1 := by
          rcases mem_cons.mp hq with rfl | hq
          · exact le_rfl
          · exact rel_of_pairwise_cons hrest_sorted hq
        simpa using (lt_of_lt_of_le hpd hpq).ne'
      rw [hnone]
      simp [hp]

theorem build_get_eq (h : n.MadeOf points) (hk : ∀ p ∈ points, p.xpath = x → p.value.kind = k)
    (d : DocId) : n.build.get x d = (((n.at_ x).of d).getLast?).map Prod.snd := by
  have hkind : ∀ e ∈ (n.at_ x).items, e.2.kind = k := by
    intro e he
    exact hk _ (h.mem_of_iff.mp (mem_of.mpr he)) rfl
  rw [NumericFields.get, build, NumericFields.fromPoints, SortedMap.get?_map]
  rw [at_] at hkind ⊢
  cases hx : n.points.get? x with
  | none => rfl
  | some own =>
    rw [hx, getD_some] at hkind
    rw [map_some, bind_some, DocValues.get_eq, of_ofPoints, getLast?_map, Option.map_map, getD_some]
    cases hlast : (own.of d).getLast? with
    | none => rfl
    | some e =>
      have hmem : e ∈ own.items := (mem_filter.mp (mem_of_getLast? hlast)).1
      obtain ⟨first, hfirst⟩ : ∃ first, own.items.head? = some first := by
        cases hitems : own.items with
        | nil => rw [hitems] at hmem; cases hmem
        | cons a l => exact ⟨a, rfl⟩
      have hfield : (ofPoints own).docValues.kind = e.2.kind := by
        show (own.items.head?.map fun p => p.2.kind).getD default = e.2.kind
        rw [hfirst, map_some, getD_some, hkind e hmem, hkind first (mem_of_head? hfirst)]
      rw [map_some, Function.comp_apply, hfield, unpack_pack]
      rfl

theorem get_eq_some_iff (h : n.MadeOf points) (hone : OneValue points x)
    (pick : List (DocId × NumericValue) → Option (DocId × NumericValue))
    (hmem : ∀ l e, pick l = some e → e ∈ l) (hnone : ∀ l, pick l = none → l = []) :
    (pick ((n.at_ x).of d)).map Prod.snd = some v ↔ ⟨x, d, v⟩ ∈ points := by
  have hvalue : ∀ e ∈ (n.at_ x).of d, (⟨x, d, e.2⟩ : FiledPoint) ∈ points := by
    intro e he
    have hd : e.1 = d := by simpa using (mem_filter.mp he).2
    obtain ⟨d', w⟩ := e
    obtain rfl : d' = d := hd
    exact h.mem_of_iff.mp he
  constructor
  · intro hpick
    obtain ⟨e, he, rfl⟩ := map_eq_some_iff.mp hpick
    exact hvalue e (hmem _ e he)
  · intro hin
    cases hp : pick ((n.at_ x).of d) with
    | none =>
      have hempty := hnone _ hp
      have hthere := h.mem_of_iff.mpr hin
      rw [hempty] at hthere
      cases hthere
    | some e =>
      rw [map_some]
      exact congrArg some (hone _ (hvalue e (hmem _ e hp)) _ hin rfl rfl rfl)

end NumericPoints.MadeOf

/-- Packing keeps the order and can be undone; and the points of a field, the packed points of a
range search and the column of its values answer alike, and as a look at every point does. -/
theorem representations_agree :
    (∀ v w : NumericValue, v.kind = w.kind → v.cmp w = compare (pack v).toNat (pack w).toNat) ∧
    (∀ v : NumericValue, unpack (pack v) v.kind = v) ∧
    (∀ (p : BitVec 64) (k : NumericKind), pack (unpack p k) = p ∧ (unpack p k).kind = k) ∧
    ∀ (n : NumericPoints) (points : List FiledPoint), n.MadeOf points →
      ∀ (x : XPathId) (k : NumericKind), (∀ p ∈ points, p.xpath = x → p.value.kind = k) →
        (∀ lo hi : Option NumericBound, (∀ b ∈ lo, b.value.kind = k) → (∀ b ∈ hi, b.value.kind = k) →
          (idsInBounds points x lo hi).Pairwise (· < ·) ∧
          n.range x lo hi = idsInBounds points x lo hi ∧
          n.build.range x lo hi = idsInBounds points x lo hi) ∧
        (OneValue points x → ∀ (d : DocId) (v : NumericValue),
          (n.get x d = some v ↔ ⟨x, d, v⟩ ∈ points) ∧
          (n.build.get x d = some v ↔ ⟨x, d, v⟩ ∈ points)) := by
  refine ⟨fun v w h => cmp_eq_compare_pack h, unpack_pack,
    fun p k => ⟨pack_unpack p k, unpack_kind p k⟩, ?_⟩
  intro n points h x k hk
  constructor
  · intro lo hi hlo hhi
    have hrange : n.range x lo hi = idsInBounds points x lo hi := h.range_eq x lo hi
    have hbuild : n.build.range x lo hi = n.range x lo hi := h.build_range_eq hk hlo hhi
    exact ⟨ascending_sortDedup _, hrange, hbuild.trans hrange⟩
  · intro hone d v
    constructor
    · rw [NumericPoints.MadeOf.get_eq]
      exact h.get_eq_some_iff hone List.head? (fun _ _ => List.mem_of_head?)
        fun _ => List.head?_eq_none_iff.mp
    · rw [h.build_get_eq hk]
      exact h.get_eq_some_iff hone List.getLast? (fun _ _ => List.mem_of_getLast?)
        fun _ => List.getLast?_eq_none_iff.mp

/-- `-1.0` in document 9 and `0.5` in document 2, from two lists. -/
theorem floats_agree :
    let minusOne := NumericValue.float 0xBFF0000000000000#64
    let half := NumericValue.float 0x3FE0000000000000#64
    let n := (NumericPoints.empty.insert 1 minusOne 9).merge (NumericPoints.empty.insert 1 half 2)
    n.build.range 1 (some ⟨minusOne, false⟩) none = n.range 1 (some ⟨minusOne, false⟩) none ∧
      n.get 1 2 = some half ∧ n.build.get 1 9 = some minusOne := by
  intro minusOne half n
  have hn : n.MadeOf [⟨1, 9, minusOne⟩, ⟨1, 2, half⟩] :=
    .merge (.insert ⟨1, 9, minusOne⟩ .empty) (.insert ⟨1, 2, half⟩ .empty)
  obtain ⟨hrange, hget⟩ := representations_agree.2.2.2 n _ hn 1 .float (by decide)
  have hbounds := hrange (some ⟨minusOne, false⟩) none (by decide) (by decide)
  have hone : OneValue [⟨1, 9, minusOne⟩, ⟨1, 2, half⟩] 1 := by decide
  exact ⟨hbounds.2.2.trans hbounds.2.1.symm, ((hget hone 2 half).1).mpr (by decide),
    ((hget hone 9 minusOne).2).mpr (by decide)⟩

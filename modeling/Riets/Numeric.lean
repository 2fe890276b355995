/-
Numbers in the index.

A field stores numbers in two shapes.  While documents arrive they are points
`(document, value)` in document order (`NumericPoints`); a segment keeps them
packed into `u64`s, once sorted by value for ranges (`Bkd`) and once sorted by
document for single lookups (`DocValues`).  A packed field has one `kind` for
all its numbers, taken from its first point.
-/
import Riets.Posting
import Riets.Search

open Keyed SortedMap

/-- A number: an `i64`, or the bit pattern of an `f64`. -/
inductive NumericValue where
  | int (v : BitVec 64)
  | float (bits : BitVec 64)
  deriving DecidableEq, Repr

inductive NumericKind where
  | int
  | float
  deriving DecidableEq, Repr

instance : Inhabited NumericKind := ⟨.int⟩

namespace NumericValue

def kind : NumericValue → NumericKind
  | int _ => .int
  | float _ => .float

/-- The integer `f64::total_cmp` compares. -/
def totalKey (bits : BitVec 64) : ℤ := (bits ^^^ ((bits.sshiftRight 63) >>> 1)).toInt

/-- Order of the source; numbers of different kinds never meet in a field, and
are ordered integers first. -/
def cmp : NumericValue → NumericValue → Ordering
  | int a, int b => compare a.toInt b.toInt
  | float a, float b => compare (totalKey a) (totalKey b)
  | int _, float _ => .lt
  | float _, int _ => .gt

end NumericValue

def signBit : BitVec 64 := 1#64 <<< 63

/-- So that `u64` order is `i64` order. -/
def packInt (value : BitVec 64) : BitVec 64 := value ^^^ signBit

def unpackInt (packed : BitVec 64) : BitVec 64 := packed ^^^ signBit

def packFloat (bits : BitVec 64) : BitVec 64 :=
  if bits &&& signBit ≠ 0 then ~~~bits else bits ^^^ signBit

def unpackFloat (packed : BitVec 64) : BitVec 64 :=
  if packed &&& signBit ≠ 0 then packed ^^^ signBit else ~~~packed

def pack : NumericValue → BitVec 64
  | .int v => packInt v
  | .float v => packFloat v

def unpack (packed : BitVec 64) : NumericKind → NumericValue
  | .int => .int (unpackInt packed)
  | .float => .float (unpackFloat packed)

theorem unpack_kind (packed : BitVec 64) (k : NumericKind) : (unpack packed k).kind = k := by
  cases k <;> rfl

/-! ### Packing is a bijection on each kind -/

theorem signBit_getLsbD : ∀ i < 64, signBit.getLsbD i = decide (i = 63) := by decide

theorem and_signBit_eq_zero (b : BitVec 64) : b &&& signBit = 0 ↔ b.msb = false := by
  rw [BitVec.msb_eq_getLsbD_last]
  constructor
  · intro h
    have h63 := congrArg (fun v : BitVec 64 => v.getLsbD 63) h
    simpa only [BitVec.getLsbD_and, signBit_getLsbD 63 (by decide), decide_true, Bool.and_true,
      BitVec.ofNat_eq_ofNat, BitVec.getLsbD_zero] using h63
  · intro h
    refine BitVec.eq_of_getLsbD_eq fun i hi => ?_
    rw [BitVec.getLsbD_and, signBit_getLsbD i hi, BitVec.ofNat_eq_ofNat, BitVec.getLsbD_zero]
    by_cases h63 : i = 63
    · subst h63
      rw [show b.getLsbD 63 = false from h, Bool.false_and]
    · rw [decide_eq_false h63, Bool.and_false]

theorem msb_xor_signBit (b : BitVec 64) : (b ^^^ signBit).msb = !b.msb := by
  rw [BitVec.msb_xor]
  have : signBit.msb = true := by decide
  rw [this, Bool.xor_true]

theorem xor_signBit_cancel (b : BitVec 64) : b ^^^ signBit ^^^ signBit = b := by
  rw [BitVec.xor_assoc, BitVec.xor_self, BitVec.xor_zero]

theorem unpackInt_packInt (v : BitVec 64) : unpackInt (packInt v) = v := xor_signBit_cancel v

theorem packInt_unpackInt (p : BitVec 64) : packInt (unpackInt p) = p := xor_signBit_cancel p

variable {b : BitVec 64}

theorem packFloat_of_msb (h : b.msb = true) : packFloat b = ~~~b := by
  rw [packFloat, if_pos]
  intro h0
  rw [(and_signBit_eq_zero b).mp h0] at h
  exact absurd h (by decide)

theorem packFloat_of_not_msb (h : b.msb = false) : packFloat b = b ^^^ signBit := by
  rw [packFloat, if_neg (not_not.mpr ((and_signBit_eq_zero b).mpr h))]

variable {p : BitVec 64}

theorem unpackFloat_of_msb (h : p.msb = true) : unpackFloat p = p ^^^ signBit := by
  rw [unpackFloat, if_pos]
  intro h0
  rw [(and_signBit_eq_zero p).mp h0] at h
  exact absurd h (by decide)

theorem unpackFloat_of_not_msb (h : p.msb = false) : unpackFloat p = ~~~p := by
  rw [unpackFloat, if_neg (not_not.mpr ((and_signBit_eq_zero p).mpr h))]

theorem msb_not_eq (b : BitVec 64) : (~~~b).msb = !b.msb := by
  rw [BitVec.msb_not]
  simp

theorem unpackFloat_packFloat (b : BitVec 64) : unpackFloat (packFloat b) = b := by
  cases h : b.msb
  · rw [packFloat_of_not_msb h, unpackFloat_of_msb (by rw [msb_xor_signBit, h]; rfl),
      xor_signBit_cancel]
  · rw [packFloat_of_msb h, unpackFloat_of_not_msb (by rw [msb_not_eq, h]; rfl), BitVec.not_not]

theorem packFloat_unpackFloat (p : BitVec 64) : packFloat (unpackFloat p) = p := by
  cases h : p.msb
  · rw [unpackFloat_of_not_msb h, packFloat_of_msb (by rw [msb_not_eq, h]; rfl), BitVec.not_not]
  · rw [unpackFloat_of_msb h, packFloat_of_not_msb (by rw [msb_xor_signBit, h]; rfl),
      xor_signBit_cancel]

theorem unpack_pack (v : NumericValue) : unpack (pack v) v.kind = v := by
  cases v with
  | int v => rw [NumericValue.kind, unpack, pack, unpackInt_packInt]
  | float v => rw [NumericValue.kind, unpack, pack, unpackFloat_packFloat]

@[simp] theorem pack_unpack (p : BitVec 64) (k : NumericKind) : pack (unpack p k) = p := by
  cases k with
  | int => rw [unpack, pack, packInt_unpackInt]
  | float => rw [unpack, pack, packFloat_unpackFloat]

structure NumericBound where
  value : NumericValue
  inclusive : Bool
  deriving DecidableEq, Repr

namespace NumericBound

def belowLo (b : NumericBound) (value : NumericValue) : Bool :=
  match value.cmp b.value with
  | .lt => true
  | .eq => !b.inclusive
  | .gt => false

def pastHi (b : NumericBound) (value : NumericValue) : Bool :=
  match value.cmp b.value with
  | .gt => true
  | .eq => !b.inclusive
  | .lt => false

end NumericBound

def inBounds (value : NumericValue) (lo hi : Option NumericBound) : Bool :=
  lo.all (fun b => !b.belowLo value) && hi.all (fun b => !b.pastHi value)

/-! ### Points in memory -/

structure DocPoints where
  items : List (DocId × NumericValue)
  sorted : Sorted Prod.fst items
  deriving DecidableEq

namespace DocPoints

open List Keyed

def empty : DocPoints := ⟨[], Pairwise.nil⟩

instance : Inhabited DocPoints := ⟨empty⟩

def of (l : DocPoints) (d : DocId) : List (DocId × NumericValue) := l.items.filter fun p => p.1 = d

/-- Pushes the point, or puts it behind the points of the same and of smaller
documents when a larger document came before. -/
def insertItems (items : List (DocId × NumericValue)) (docId : DocId) (value : NumericValue) :
    List (DocId × NumericValue) :=
  match items.getLast? with
  | some last =>
    if last.1 > docId then
      items.insertIdx (partitionPoint (fun p => p.1 ≤ docId) items) (docId, value)
    else items ++ [(docId, value)]
  | none => items ++ [(docId, value)]

variable {items : List (DocId × NumericValue)}

theorem insertItems_eq (hs : Sorted Prod.fst items)
    (docId : DocId) (value : NumericValue) :
    insertItems items docId value
      = items.filter (fun p => p.1 ≤ docId) ++ (docId, value) ::
        items.filter fun p => !decide (p.1 ≤ docId) := by
  have hmono : ∀ a b : DocId × NumericValue, a.1 ≤ b.1 → decide (b.1 ≤ docId) = true →
      decide (a.1 ≤ docId) = true := by
    intro a b hab hb
    simp only [decide_eq_true_eq] at hb ⊢
    exact hab.trans hb
  have hpush : (∀ p ∈ items, p.1 ≤ docId) → items ++ [(docId, value)]
      = items.filter (fun p => p.1 ≤ docId) ++ (docId, value) ::
        items.filter fun p => !decide (p.1 ≤ docId) := by
    intro hall
    rw [filter_eq_self.mpr (by simpa using hall), filter_eq_nil_iff.mpr (by simpa using hall)]
  rw [insertItems]
  cases hl : items.getLast? with
  | none =>
    rw [getLast?_eq_none_iff.mp hl]
    rfl
  | some last =>
    obtain ⟨init, rfl⟩ := getLast?_eq_some_iff.mp hl
    by_cases h : last.1 > docId
    · simp only [if_pos h]
      rw [← takeWhile_eq_filter hs hmono, ← dropWhile_eq_filter hs hmono, insertIdx_partitionPoint]
    · simp only [if_neg h]
      refine hpush fun p hp => ?_
      rcases mem_append.mp hp with hp | hp
      · exact ((pairwise_append.mp hs).2.2 p hp last (by simp)).trans (not_lt.mp h)
      · rw [mem_singleton.mp hp]
        exact not_lt.mp h

theorem sorted_insertItems (hs : Sorted Prod.fst items)
    (docId : DocId) (value : NumericValue) :
    Sorted Prod.fst (insertItems items docId value) := by
  rw [insertItems_eq hs]
  have hhigh : ∀ p ∈ items.filter (fun p => !decide (p.1 ≤ docId)), docId ≤ p.1 := by
    intro p hp
    have := (mem_filter.mp hp).2
    simp only [Bool.not_eq_eq_eq_not, Bool.not_true, decide_eq_false_iff_not, not_le] at this
    exact this.le
  refine pairwise_append.mpr ⟨hs.sublist filter_sublist,
    pairwise_cons.mpr ⟨hhigh, hs.sublist filter_sublist⟩, fun a ha b hb => ?_⟩
  have hlow : a.1 ≤ docId := by simpa using (mem_filter.mp ha).2
  rcases mem_cons.mp hb with rfl | hb
  · exact hlow
  · exact hlow.trans (hhigh b hb)

def insertPoint (l : DocPoints) (docId : DocId) (value : NumericValue) : DocPoints :=
  ⟨insertItems l.items docId value, sorted_insertItems l.sorted docId value⟩

/-- Both lists; sorting a list that is sorted already changes nothing, so the
check the source makes first is left out. -/
def merge (mine points : DocPoints) : DocPoints :=
  ⟨sortBy Prod.fst (mine.items ++ points.items), sorted_sortBy _⟩

@[simp] theorem of_empty (d : DocId) : empty.of d = [] := rfl

theorem filter_insertPoint (l : DocPoints) (docId : DocId) (value : NumericValue) (d : DocId) :
    (l.insertPoint docId value).of d = l.of d ++ if docId = d then [(docId, value)] else [] := by
  simp only [insertPoint, of, insertItems_eq l.sorted, filter_append, filter_cons]
  -- the document's points all lie before, or all behind, the new one's place
  rcases le_or_gt d docId with hd | hd
  · rw [filter_key_filter (fun p _ hp => by simpa [hp] using hd),
      filter_key_filter_eq_nil (fun p _ hp => by simpa [hp] using hd)]
    split_ifs <;> simp_all
  · rw [filter_key_filter_eq_nil (fun p _ hp => by simpa [hp] using hd),
      filter_key_filter (fun p _ hp => by simpa [hp] using hd)]
    simp [hd.ne]

theorem filter_merge (mine points : DocPoints) (d : DocId) :
    (mine.merge points).of d = mine.of d ++ points.of d := by
  rw [of, merge, filter_sortBy, filter_append]
  rfl

end DocPoints

structure NumericPoints where
  points : SortedMap XPathId DocPoints
  deriving DecidableEq

namespace NumericPoints

def empty : NumericPoints := ⟨SortedMap.empty⟩

def insert (n : NumericPoints) (xpath : XPathId) (value : NumericValue) (docId : DocId) :
    NumericPoints :=
  ⟨n.points.upsert xpath fun old => (old.getD default).insertPoint docId value⟩

def at_ (n : NumericPoints) (xpath : XPathId) : DocPoints := (n.points.get? xpath).getD default

def get (n : NumericPoints) (xpath : XPathId) (docId : DocId) : Option NumericValue :=
  let points := (n.at_ xpath).items
  ((points[partitionPoint (fun p => p.1 < docId) points]?).filter
    fun p => p.1 = docId).map Prod.snd

def range (n : NumericPoints) (xpath : XPathId) (lo hi : Option NumericBound) : List DocId :=
  sortDedup (((n.at_ xpath).items.filter fun p => inBounds p.2 lo hi).map Prod.fst)

def merge (n other : NumericPoints) : NumericPoints :=
  ⟨n.points.mergeWith (fun mine points => (mine.getD default).merge points) other.points⟩

@[simp] theorem at_empty (x : XPathId) : empty.at_ x = DocPoints.empty := rfl

theorem at_insert (n : NumericPoints) (xpath : XPathId) (value : NumericValue) (docId : DocId)
    (x : XPathId) :
    (n.insert xpath value docId).at_ x
      = if x = xpath then (n.at_ xpath).insertPoint docId value else n.at_ x := by
  rw [at_, insert, get?_upsert]
  split_ifs <;> rfl

theorem of_insert (n : NumericPoints) (xpath : XPathId) (value : NumericValue) (docId : DocId)
    (x : XPathId) (d : DocId) :
    ((n.insert xpath value docId).at_ x).of d
      = (n.at_ x).of d ++ if x = xpath ∧ docId = d then [(docId, value)] else [] := by
  rw [at_insert]
  by_cases hx : x = xpath
  · simp [hx, DocPoints.filter_insertPoint]
  · simp [hx]

theorem of_merge (n other : NumericPoints) (x : XPathId) (d : DocId) :
    ((n.merge other).at_ x).of d = (n.at_ x).of d ++ (other.at_ x).of d := by
  rw [at_, merge, get?_mergeWith, at_, at_]
  cases other.points.get? x with
  | none => exact (List.append_nil _).symm
  | some points => exact DocPoints.filter_merge _ _ d

theorem mem_of {n : DocPoints} {d : DocId} {v : NumericValue} :
    (d, v) ∈ n.of d ↔ (d, v) ∈ n.items := by
  simp [DocPoints.of]

theorem mem_range {n : NumericPoints} {x : XPathId} {lo hi : Option NumericBound} {d : DocId} :
    d ∈ n.range x lo hi ↔ ∃ v, (d, v) ∈ (n.at_ x).of d ∧ inBounds v lo hi = true := by
  rw [range, mem_sortDedup, List.mem_map]
  constructor
  · rintro ⟨⟨d', v⟩, hp, rfl⟩
    obtain ⟨hmem, hv⟩ := List.mem_filter.mp hp
    exact ⟨v, mem_of.mpr hmem, hv⟩
  · rintro ⟨v, hp, hv⟩
    exact ⟨(d, v), List.mem_filter.mpr ⟨mem_of.mp hp, hv⟩, rfl⟩

end NumericPoints

/-! ### Packed fields -/

def packedBelow (lo : Option NumericBound) (p : BitVec 64) : Bool :=
  match lo with
  | some lo => if lo.inclusive then p < pack lo.value else p ≤ pack lo.value
  | none => false

def packedUpTo (hi : Option NumericBound) (p : BitVec 64) : Bool :=
  match hi with
  | some hi => if hi.inclusive then p ≤ pack hi.value else p < pack hi.value
  | none => true

structure Bkd where
  kind : NumericKind
  points : List (BitVec 64 × DocId)
  sorted : Sorted (fun p : BitVec 64 × DocId => p.1.toNat) points
  deriving DecidableEq

namespace Bkd

open Keyed List

/-- Sort order of `(packed, document)` pairs. -/
def pairKey (p : BitVec 64 × DocId) : ℕ ×ₗ ℕ := toLex (p.1.toNat, p.2)

theorem sorted_of_pairKey {l : List (BitVec 64 × DocId)} (h : Sorted pairKey l) :
    Sorted (fun p : BitVec 64 × DocId => p.1.toNat) l := by
  refine h.imp fun {a b} hab => ?_
  rcases Prod.Lex.toLex_le_toLex.mp hab with h | ⟨h, -⟩
  · exact h.le
  · exact h.le

def build (kind : NumericKind) (points : List (DocId × NumericValue)) : Bkd where
  kind := kind
  points := sortBy pairKey (points.map fun p => (pack p.2, p.1))
  sorted := sorted_of_pairKey (sorted_sortBy _)

/-- Ids whose value lies inside the bounds, ascending and without repeats. -/
def range (b : Bkd) (lo hi : Option NumericBound) : List DocId :=
  let start := match lo with
    | some lo =>
      if lo.inclusive then partitionPoint (fun p => p.1 < pack lo.value) b.points
      else partitionPoint (fun p => p.1 ≤ pack lo.value) b.points
    | none => 0
  let stop := match hi with
    | some hi =>
      if hi.inclusive then partitionPoint (fun p => p.1 ≤ pack hi.value) b.points
      else partitionPoint (fun p => p.1 < pack hi.value) b.points
    | none => b.points.length
  if start ≥ stop then [] else sortDedup (((b.points.take stop).drop start).map Prod.snd)

theorem range_eq (b : Bkd) (lo hi : Option NumericBound) :
    b.range lo hi = sortDedup (((b.points.take
      (partitionPoint (fun p => packedUpTo hi p.1) b.points)).drop
      (partitionPoint (fun p => packedBelow lo p.1) b.points)).map Prod.snd) := by
  have hstart : (match lo with
      | some lo =>
        if lo.inclusive then partitionPoint (fun p => p.1 < pack lo.value) b.points
        else partitionPoint (fun p => p.1 ≤ pack lo.value) b.points
      | none => 0) = partitionPoint (fun p => packedBelow lo p.1) b.points := by
    rcases lo with _ | ⟨v, _ | _⟩
    · cases b.points <;> rfl
    · simp [packedBelow]
    · simp [packedBelow]
  have hstop : (match hi with
      | some hi =>
        if hi.inclusive then partitionPoint (fun p => p.1 ≤ pack hi.value) b.points
        else partitionPoint (fun p => p.1 < pack hi.value) b.points
      | none => b.points.length) = partitionPoint (fun p => packedUpTo hi p.1) b.points := by
    rcases hi with _ | ⟨v, _ | _⟩
    · simp only [packedUpTo, partitionPoint]
      rw [takeWhile_eq_self_iff.mpr fun _ _ => rfl]
    · simp [packedUpTo]
    · simp [packedUpTo]
  unfold range
  simp only [hstart, hstop]
  split_ifs with h
  · rw [drop_eq_nil_of_le (by simp only [length_take]; omega)]
    rfl
  · rfl

theorem mem_range {b : Bkd} {lo hi : Option NumericBound} {d : DocId} :
    d ∈ b.range lo hi
      ↔ ∃ p, (p, d) ∈ b.points ∧ packedUpTo hi p = true ∧ packedBelow lo p = false := by
  have hbelow : ∀ a c : BitVec 64 × DocId, a.1.toNat ≤ c.1.toNat →
      packedBelow lo c.1 = true → packedBelow lo a.1 = true := by
    intro a c hac
    rcases lo with _ | ⟨v, _ | _⟩
    · exact id
    all_goals
      simp only [packedBelow, BitVec.lt_def, BitVec.le_def, decide_eq_true_eq, if_true, if_false,
        Bool.false_eq_true]
      omega
  have hupTo : ∀ a c : BitVec 64 × DocId, a.1.toNat ≤ c.1.toNat →
      packedUpTo hi c.1 = true → packedUpTo hi a.1 = true := by
    intro a c hac
    rcases hi with _ | ⟨v, _ | _⟩
    · exact id
    all_goals
      simp only [packedUpTo, BitVec.lt_def, BitVec.le_def, decide_eq_true_eq, if_true, if_false,
        Bool.false_eq_true]
      omega
  rw [range_eq, mem_sortDedup, mem_map]
  simp only [mem_slice b.sorted hbelow hupTo]
  constructor
  · rintro ⟨⟨p, d'⟩, h, rfl⟩
    exact ⟨p, h⟩
  · rintro ⟨p, h⟩
    exact ⟨(p, d), h, rfl⟩

end Bkd

structure DocValues where
  kind : NumericKind
  entries : List (DocId × BitVec 64)
  sorted : Sorted Prod.fst entries
  deriving DecidableEq

namespace DocValues

open Keyed List

def blockSize : ℕ := 256

def blockFirstDoc (v : DocValues) : List DocId :=
  (range ((v.entries.length + (blockSize - 1)) / blockSize)).map fun i =>
    ((v.entries[i * blockSize]?).map Prod.fst).getD 0

def build (kind : NumericKind) (points : List (DocId × NumericValue)) : DocValues where
  kind := kind
  entries := sortBy Prod.fst (points.map fun p => (p.1, pack p.2))
  sorted := sorted_sortBy _

/-- The value of a document: the only block it can be in is binary searched. -/
def get (v : DocValues) (docId : DocId) : Option NumericValue :=
  match v.entries.head?, v.entries.getLast? with
  | some first, some last =>
    if docId < first.1 ∨ docId > last.1 then none
    else
      let block := partitionPoint (fun first => first ≤ docId) v.blockFirstDoc - 1
      let start := block * blockSize
      (binarySearch Prod.fst docId ((v.entries.drop start).take blockSize)).bind fun offset =>
        (v.entries[start + offset]?).map fun e => unpack e.2 v.kind
  | _, _ => none

def of (v : DocValues) (d : DocId) : List (DocId × BitVec 64) := v.entries.filter fun e => e.1 = d

theorem block_getLast (v : DocValues) {docId : DocId} {first : DocId × BitVec 64}
    (hf : v.entries.head? = some first) (hlo : first.1 ≤ docId) :
    let start := (partitionPoint (fun first => first ≤ docId) v.blockFirstDoc - 1) * blockSize
    (((v.entries.drop start).take blockSize).filter fun e => e.1 = docId).getLast?
      = (v.of docId).getLast? := by
  intro start
  obtain ⟨pp, hpp⟩ : ∃ pp, pp = partitionPoint (fun first => first ≤ docId) v.blockFirstDoc :=
    ⟨_, rfl⟩
  have hstart : start = (pp - 1) * 256 := by rw [hpp, ← show blockSize = 256 from rfl]
  clear_value start
  subst hstart
  have hlen : v.blockFirstDoc.length = (v.entries.length + 255) / 256 := by
    simp [blockFirstDoc, blockSize]
  -- the first entry of block `i`, when there is such a block
  have hblock : ∀ i, i * 256 < v.entries.length →
      ∃ e, v.entries[i * 256]? = some e ∧ v.blockFirstDoc[i]? = some e.1 := by
    intro i hi
    refine ⟨v.entries[i * 256], getElem?_eq_getElem hi, ?_⟩
    rw [blockFirstDoc, getElem?_map, getElem?_range (by simp only [blockSize]; omega)]
    simp [blockSize, getElem?_eq_getElem hi]
  have hpp_le : pp ≤ (v.entries.length + 255) / 256 := by
    rw [hpp, ← hlen]
    exact partitionPoint_le _ _
  have hfirst : v.entries[0]? = some first := by rw [← head?_eq_getElem?, hf]
  have hpos : 0 < v.entries.length := (List.getElem?_eq_some_iff.mp hfirst).1
  have hpp_pos : 0 < pp := by
    rcases Nat.eq_zero_or_pos pp with hz | h
    · obtain ⟨e, he, hfd⟩ := hblock 0 (by omega)
      rw [Nat.zero_mul, hfirst, Option.some_inj] at he
      rw [← hz, hpp] at hfd
      have hno := not_at_partitionPoint hfd
      rw [← he] at hno
      exact absurd hlo (by simpa using hno)
    · exact h
  obtain ⟨e, he, hfd⟩ := hblock (pp - 1) (by omega)
  have hle : e.1 ≤ docId := by
    have hlt : pp - 1 < pp := by omega
    rw [hpp] at hlt hfd
    simpa using of_lt_partitionPoint hlt hfd
  refine getLast_filter_window v.sorted (by decide) he hle fun j b hj hb => ?_
  -- an entry behind the block belongs to a block whose first document is larger
  have hjn := (List.getElem?_eq_some_iff.mp hb).1
  have hj' : pp * 256 ≤ j := by
    calc pp * 256 = (pp - 1) * 256 + 256 := by omega
      _ ≤ j := hj
  obtain ⟨e', he', hfd'⟩ := hblock pp (by omega)
  have hgt : docId < e'.1 := by
    rw [hpp] at hfd'
    simpa using not_at_partitionPoint hfd'
  exact lt_of_lt_of_le hgt (key_le_of_getElem? v.sorted hj' he' hb)

theorem get_eq (v : DocValues) (docId : DocId) :
    v.get docId = ((v.of docId).getLast?).map fun e => unpack e.2 v.kind := by
  rw [get]
  cases hf : v.entries.head? with
  | none => simp [of, head?_eq_none_iff.mp hf]
  | some first =>
    obtain ⟨init, last, hl⟩ : ∃ init last, v.entries = init ++ [last] := by
      rcases eq_nil_or_concat v.entries with h | ⟨init, last, h⟩
      · rw [h] at hf
        exact absurd hf (by simp)
      · exact ⟨init, last, by rw [h, concat_eq_append]⟩
    have hlast : v.entries.getLast? = some last := by simp [hl]
    simp only [hlast]
    split_ifs with hout
    · -- outside the range of documents there is no entry
      have hnone : v.of docId = [] := by
        rw [of, filter_eq_nil_iff]
        intro e he
        obtain ⟨i, hi, rfl⟩ := mem_iff_getElem.mp he
        have hi' : v.entries[i]? = some v.entries[i] := getElem?_eq_getElem hi
        have hend : v.entries[v.entries.length - 1]? = some last := by
          rw [← getLast?_eq_getElem?, hlast]
        have h1 : first.1 ≤ v.entries[i].1 :=
          key_le_of_getElem? v.sorted (Nat.zero_le i)
            (by rw [← head?_eq_getElem?, hf]) hi'
        have h2 : v.entries[i].1 ≤ last.1 :=
          key_le_of_getElem? v.sorted (by omega) hi' hend
        rcases hout with hout | hout
        · simpa using (lt_of_lt_of_le hout h1).ne'
        · simpa using (lt_of_le_of_lt h2 hout).ne
      simp [hnone]
    · simp only [not_or, not_lt] at hout
      rw [← block_getLast v hf hout.1, ← binarySearch_eq_getLast
        ((v.sorted.sublist (drop_sublist _ _)).sublist (take_sublist _ _)), Option.map_bind]
      -- an offset inside the block is the same entry counted from the start of the list
      refine Option.bind_congr fun i hi => ?_
      obtain ⟨e, he⟩ := binarySearch_getElem? hi
      have hlt := (List.getElem?_eq_some_iff.mp he).1
      simp only [length_take] at hlt
      rw [Function.comp_apply, getElem?_take_of_lt (by omega), getElem?_drop]

end DocValues

structure NumericField where
  bkd : Bkd
  docValues : DocValues
  kind_eq : bkd.kind = docValues.kind
  agree : (bkd.points.map Prod.swap).Perm docValues.entries
  deriving DecidableEq

namespace NumericField

open List

theorem swap_mem_points {f : NumericField} {d : DocId} :
    (p, d) ∈ f.bkd.points ↔ (d, p) ∈ f.docValues.entries := by
  rw [← f.agree.mem_iff, mem_map]
  constructor
  · intro h
    exact ⟨(p, d), h, rfl⟩
  · rintro ⟨⟨p', d'⟩, h, he⟩
    simp only [Prod.swap_prod_mk, Prod.mk.injEq] at he
    rwa [← he.1, ← he.2]

theorem mem_range {f : NumericField} {lo hi : Option NumericBound} {d : DocId} :
    d ∈ f.bkd.range lo hi
      ↔ ∃ e ∈ f.docValues.of d, packedUpTo hi e.2 = true ∧ packedBelow lo e.2 = false := by
  rw [Bkd.mem_range]
  constructor
  · rintro ⟨p, hp, h⟩
    exact ⟨(d, p), mem_filter.mpr ⟨swap_mem_points.mp hp, by simp⟩, h⟩
  · rintro ⟨⟨d', p⟩, he, h⟩
    obtain ⟨hmem, hd⟩ := mem_filter.mp he
    obtain rfl : d' = d := by simpa using hd
    exact ⟨p, swap_mem_points.mpr hmem, h⟩

def ofPoints (points : DocPoints) : NumericField :=
  let kind := (points.items.head?.map fun p => p.2.kind).getD default
  { bkd := Bkd.build kind points.items
    docValues := DocValues.build kind points.items
    kind_eq := rfl
    agree := by
      have h1 : (sortBy Bkd.pairKey (points.items.map fun p => (pack p.2, p.1))).Perm
          (points.items.map fun p => (pack p.2, p.1)) := perm_sortBy _
      have h2 : (sortBy Prod.fst (points.items.map fun p => (p.1, pack p.2))).Perm
          (points.items.map fun p => (p.1, pack p.2)) := perm_sortBy _
      have h3 := h1.map Prod.swap
      rw [map_map] at h3
      exact h3.trans h2.symm }

theorem of_ofPoints (points : DocPoints) (d : DocId) :
    (ofPoints points).docValues.of d = (points.of d).map fun p => (p.1, pack p.2) := by
  simp only [ofPoints, DocValues.build, DocValues.of, DocPoints.of]
  rw [filter_sortBy, filter_map]
  rfl

end NumericField

structure NumericFields where
  fields : SortedMap XPathId NumericField
  deriving DecidableEq

namespace NumericFields

def empty : NumericFields := ⟨SortedMap.empty⟩

def fromPoints (points : SortedMap XPathId DocPoints) : NumericFields :=
  ⟨points.map NumericField.ofPoints⟩

def range (n : NumericFields) (xpath : XPathId) (lo hi : Option NumericBound) : List DocId :=
  ((n.fields.get? xpath).map fun f => f.bkd.range lo hi).getD []

def get (n : NumericFields) (xpath : XPathId) (docId : DocId) : Option NumericValue :=
  (n.fields.get? xpath).bind fun f => f.docValues.get docId

def of (n : NumericFields) (xpath : XPathId) (d : DocId) : List (DocId × BitVec 64) :=
  ((n.fields.get? xpath).map fun f => f.docValues.of d).getD []

theorem mem_range {n : NumericFields} {x : XPathId} {lo hi : Option NumericBound} {d : DocId} :
    d ∈ n.range x lo hi
      ↔ ∃ e ∈ n.of x d, packedUpTo hi e.2 = true ∧ packedBelow lo e.2 = false := by
  rw [range, of]
  cases n.fields.get? x with
  | none => simp
  | some f => exact NumericField.mem_range

end NumericFields

def NumericPoints.build (n : NumericPoints) : NumericFields := NumericFields.fromPoints n.points

theorem NumericPoints.of_build (n : NumericPoints) (x : XPathId) (d : DocId) :
    n.build.of x d = ((n.at_ x).of d).map fun p => (p.1, pack p.2) := by
  rw [build, NumericFields.of, NumericFields.fromPoints, get?_map, at_]
  cases n.points.get? x with
  | none => rfl
  | some points => exact NumericField.of_ofPoints points d

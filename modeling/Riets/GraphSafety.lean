/-
Opening a damaged graph file.

`validateLinks` follows the levels and slot starts of the nodes.  It checks that the
upper slots of a node start where those of the nodes before it end, and reads them before
it knows whether the file has that many: it faults exactly when it comes to a node whose
slots it does not have (`Overrun`).
-/
import Riets.GraphFile

open FixedSlots List

structure GraphLayout.Fits (h : GraphHeader) (l : GraphLayout) : Prop where
  levels : l.nodeLevelsOffset = headerLength
  starts : l.nodeLevelsOffset + h.nodeCount ≤ l.upperSlotStartsOffset
  level0 : l.upperSlotStartsOffset + h.nodeCount * 4 ≤ l.level0ListsOffset
  upper : l.level0ListsOffset + h.nodeCount * l.level0SlotLength ≤ l.upperListsOffset
  total : l.upperListsOffset + h.upperSlotCount * l.upperSlotLength = l.totalLength
  limit : l.totalLength < usizeLimit
  slot0 : l.level0SlotLength = (1 + h.maxLinksLevel0) * 4
  slotUpper : l.upperSlotLength = (1 + h.maxLinksUpper) * 4

theorem checkedAdd_eq_some {a b c : ℕ} (h : checkedAdd a b = some c) : c = a + b ∧ c < usizeLimit := by
  rw [checkedAdd] at h
  split_ifs at h with hlt
  cases h
  exact ⟨rfl, hlt⟩

theorem checkedMul_eq_some {a b c : ℕ} (h : checkedMul a b = some c) : c = a * b := by
  rw [checkedMul] at h
  split_ifs at h
  cases h
  rfl

theorem le_of_nextSection {offset section' : ℕ} (h : nextSection offset = some section') :
    offset ≤ section' := by
  rw [nextSection] at h
  split_ifs at h
  · cases h
    exact le_rfl
  · rw [(checkedAdd_eq_some h).1]
    exact Nat.le_add_right _ _

theorem GraphLayout.new_fits {h : GraphHeader} {l : GraphLayout} (hnew : GraphLayout.new h = some l) :
    l.Fits h := by
  rw [GraphLayout.new] at hnew
  simp only [Option.bind_eq_bind, Option.bind_eq_some_iff] at hnew
  obtain ⟨levelsEnd, hlevels, starts, hstarts, startsLength, hstartsLength, startsEnd, hstartsEnd,
    level0, hlevel0, level0Length, hlevel0Length, level0End, hlevel0End, upper, hupper, upperLength,
    hupperLength, total, htotal, hl⟩ := hnew
  cases hl
  have hadd₁ := (checkedAdd_eq_some hlevels).1
  have hadd₂ := (checkedAdd_eq_some hstartsEnd).1
  have hadd₃ := (checkedAdd_eq_some hlevel0End).1
  obtain ⟨hadd₄, hlimit⟩ := checkedAdd_eq_some htotal
  have hmul₁ := checkedMul_eq_some hstartsLength
  have hmul₂ := checkedMul_eq_some hlevel0Length
  have hmul₃ := checkedMul_eq_some hupperLength
  have hle₁ := le_of_nextSection hstarts
  have hle₂ := le_of_nextSection hlevel0
  have hle₃ := le_of_nextSection hupper
  refine ⟨rfl, ?_, ?_, ?_, ?_, hlimit, rfl, rfl⟩
  · show headerLength + h.nodeCount ≤ starts
    omega
  · show starts + h.nodeCount * 4 ≤ level0
    omega
  · show level0 + h.nodeCount * ((1 + h.maxLinksLevel0) * 4) ≤ upper
    omega
  · show upper + h.upperSlotCount * ((1 + h.maxLinksUpper) * 4) = total
    omega

namespace HnswGraph

open Fallible GraphHeader GraphLayout List

variable {g : HnswGraph}

/-! ### What the file holds -/

structure Mapped (g : HnswGraph) : Prop where
  fits : g.layout.Fits g.header
  length : g.layout.totalLength = g.bytes.length
  valid : g.header.validate = none
  slots : g.header.upperSlotCount < 2 ^ 32

def levelOf (g : HnswGraph) (n : ℕ) : ℕ := wordAt 1 g.bytes (g.layout.nodeLevelsOffset + n)

def startOf (g : HnswGraph) (n : ℕ) : ℕ := wordAt 4 g.bytes (g.layout.upperSlotStartsOffset + n * 4)

def slotsBefore (g : HnswGraph) : ℕ → ℕ
  | 0 => 0
  | n + 1 => slotsBefore g n + g.levelOf n

def slotAt (g : HnswGraph) (n l : ℕ) : ℕ :=
  if l = 0 then g.layout.level0ListsOffset + n * g.layout.level0SlotLength
  else g.layout.upperListsOffset + (g.startOf n + (l - 1)) * g.layout.upperSlotLength

def lengthOf (g : HnswGraph) (n l : ℕ) : ℕ := wordAt 4 g.bytes (g.slotAt n l)

def linksOf (g : HnswGraph) (n l : ℕ) : List ℕ := words 4 (g.lengthOf n l) (g.bytes.drop (g.slotAt n l + 4))

structure ListOk (g : HnswGraph) (n l : ℕ) : Prop where
  bound : g.lengthOf n l ≤ g.maxLinksAt l
  links : ∀ m ∈ g.linksOf n l, m < g.nodeCount ∧ m ≠ n ∧ l ≤ g.levelOf m

def InFile (g : HnswGraph) (n l : ℕ) : Prop := l = 0 ∨ g.startOf n + l ≤ g.header.upperSlotCount

theorem levelOf_le (g : HnswGraph) (n : ℕ) : g.levelOf n < 256 := by
  have := wordAt_lt 1 g.bytes (g.layout.nodeLevelsOffset + n)
  rwa [pow_one] at this

theorem Mapped.total (h : g.Mapped) :
    g.layout.upperListsOffset + g.header.upperSlotCount * g.layout.upperSlotLength =
      g.bytes.length := h.fits.total.trans h.length

theorem Mapped.limit (h : g.Mapped) : g.bytes.length < usizeLimit := h.length ▸ h.fits.limit

variable {n : ℕ}

theorem Mapped.nodeLevel (h : g.Mapped) (hn : n < g.nodeCount) :
    g.nodeLevel n = .ok (g.levelOf n) := by
  have hn' : n < g.header.nodeCount := hn
  have h1 := h.fits.starts
  have h2 := h.fits.level0
  have h3 := h.fits.upper
  have h4 := h.total
  have h5 := h.limit
  rw [HnswGraph.nodeLevel, add_of_lt (by omega), ok_bind, readWord_of_le (by omega)]
  rfl

theorem Mapped.upperSlotStart (h : g.Mapped) (hn : n < g.nodeCount) :
    g.upperSlotStart n = .ok (g.startOf n) := by
  have hn' : n < g.header.nodeCount := hn
  have h2 := h.fits.level0
  have h3 := h.fits.upper
  have h4 := h.total
  have h5 := h.limit
  rw [HnswGraph.upperSlotStart, add_of_lt (by omega), ok_bind, readWord_of_le (by omega)]
  rfl

variable {l : ℕ}

theorem Mapped.slot (h : g.Mapped) (hn : n < g.nodeCount) (hin : g.InFile n l) :
    g.layout.slotOffset n l (g.startOf n) = .ok (g.slotAt n l) ∧
      g.slotAt n l + (1 + g.maxLinksAt l) * 4 ≤ g.bytes.length := by
  have hn' : n < g.header.nodeCount := hn
  have h3 := h.fits.upper
  have h4 := h.total
  have h5 := h.limit
  rw [slotOffset, slotAt, maxLinksAt]
  by_cases hl : l = 0
  · have hmul : n * g.layout.level0SlotLength + g.layout.level0SlotLength ≤
        g.header.nodeCount * g.layout.level0SlotLength := by
      rw [← Nat.succ_mul]
      exact Nat.mul_le_mul_right _ hn'
    have hslot := h.fits.slot0
    simp only [if_pos hl]
    rw [if_pos (by omega), add_of_lt (by omega)]
    exact ⟨rfl, by omega⟩
  · have hle := hin.resolve_left hl
    have hslots := h.slots
    have hslot := h.fits.slotUpper
    have hmul : (g.startOf n + (l - 1)) * g.layout.upperSlotLength + g.layout.upperSlotLength ≤
        g.header.upperSlotCount * g.layout.upperSlotLength := by
      rw [← Nat.succ_mul]
      exact Nat.mul_le_mul_right _ (by omega)
    have hadd : g.startOf n + (l - 1) < usizeLimit := by
      rw [usizeLimit]
      omega
    simp only [if_neg hl, add_of_lt hadd, ok_bind]
    rw [if_pos (by omega), add_of_lt (by omega)]
    exact ⟨rfl, by omega⟩

theorem Mapped.neighbourList (h : g.Mapped) (hn : n < g.nodeCount) (hin : g.InFile n l)
    (hbound : g.lengthOf n l ≤ g.maxLinksAt l) : g.neighbourList n l = .ok (g.linksOf n l) := by
  obtain ⟨hslot, hend⟩ := h.slot hn hin
  have hlimit := h.limit
  have hread : readWord 4 g.bytes (g.slotAt n l) = .ok (g.lengthOf n l) :=
    readWord_of_le (by omega)
  rw [HnswGraph.neighbourList, h.upperSlotStart hn, ok_bind, hslot, ok_bind, hread, ok_bind]
  simp only [min_eq_left hbound]
  rw [add_of_lt (by omega), ok_bind, add_of_lt (by omega),
    ok_bind, slice_of_le (by omega) (by omega), ok_bind, drop_take, pure_eq, linksOf]
  have hlen : g.slotAt n l + 4 + g.lengthOf n l * 4 - (g.slotAt n l + 4) = 4 * g.lengthOf n l := by
    omega
  rw [hlen, words_take]

theorem Mapped.checkLink (h : g.Mapped) (n l m : ℕ) :
    (g.checkLink n l m = .ok () ↔ m < g.nodeCount ∧ m ≠ n ∧ l ≤ g.levelOf m) ∧
      g.checkLink n l m ≠ .fault := by
  rw [HnswGraph.checkLink]
  by_cases hbad : g.nodeCount ≤ m ∨ m = n
  · simp only [if_pos hbad]
    constructor
    · constructor
      · intro herr
        cases herr
      · rintro ⟨hlt, hne, -⟩
        exact absurd hbad (not_or.2 ⟨not_le.2 hlt, hne⟩)
    · intro herr
      cases herr
  · obtain ⟨hlt, hne⟩ := not_or.1 hbad
    simp only [if_neg hbad, h.nodeLevel (not_le.1 hlt), ok_bind]
    by_cases hlevel : g.levelOf m < l
    · rw [if_pos hlevel]
      constructor
      · constructor
        · intro herr
          cases herr
        · intro hgood
          omega
      · intro herr
        cases herr
    · rw [if_neg hlevel]
      refine ⟨⟨fun _ => ⟨not_le.1 hlt, hne, not_lt.1 hlevel⟩, fun _ => rfl⟩, fun herr => ?_⟩
      cases herr

theorem Mapped.checkList (h : g.Mapped) (hn : n < g.nodeCount) (hin : g.InFile n l) :
    (g.checkList n (g.startOf n) l = .ok () ↔ g.ListOk n l) ∧
      g.checkList n (g.startOf n) l ≠ .fault := by
  obtain ⟨hslot, hend⟩ := h.slot hn hin
  have hread : readWord 4 g.bytes (g.slotAt n l) = .ok (g.lengthOf n l) :=
    readWord_of_le (by omega)
  rw [HnswGraph.checkList, hslot, ok_bind, hread, ok_bind]
  by_cases hbound : g.maxLinksAt l < g.lengthOf n l
  · rw [if_pos hbound]
    constructor
    · constructor
      · intro herr
        cases herr
      · intro hok
        have := hok.bound
        omega
    · intro herr
      cases herr
  · rw [if_neg hbound, h.neighbourList hn hin (not_lt.1 hbound), ok_bind]
    constructor
    · rw [each_eq_ok]
      constructor
      · intro hall
        exact ⟨not_lt.1 hbound, fun m hm => (h.checkLink n l m).1.1 (hall m hm)⟩
      · intro hok m hm
        exact (h.checkLink n l m).1.2 (hok.links m hm)
    · rw [Ne, each_eq_fault]
      rintro ⟨before, m, after, -, -, hfault⟩
      exact (h.checkLink n l m).2 hfault

theorem Mapped.checkList_past_end (h : g.Mapped) (hl : l ≠ 0)
    (hout : g.header.upperSlotCount < g.startOf n + l) :
    g.checkList n (g.startOf n) l = .fault := by
  have h4 := h.total
  have hmul : g.header.upperSlotCount * g.layout.upperSlotLength ≤
      (g.startOf n + (l - 1)) * g.layout.upperSlotLength := Nat.mul_le_mul_right _ (by omega)
  rw [HnswGraph.checkList, slotOffset, if_neg hl, Fallible.add]
  by_cases hadd : g.startOf n + (l - 1) < usizeLimit
  · rw [if_pos hadd, ok_bind]
    by_cases hlt : (g.startOf n + (l - 1)) * g.layout.upperSlotLength < usizeLimit
    · rw [if_pos hlt, add]
      by_cases hsum : g.layout.upperListsOffset +
          (g.startOf n + (l - 1)) * g.layout.upperSlotLength < usizeLimit
      · rw [if_pos hsum, ok_bind, readWord_past_end (by omega), fault_bind]
      · rw [if_neg hsum, fault_bind]
    · rw [if_neg hlt, fault_bind]
  · rw [if_neg hadd, fault_bind, fault_bind]

/-! ### Nodes -/

/-- A node that passes: its upper slots follow those of the nodes before it and lie in the file. -/
structure NodeOk (g : HnswGraph) (n : ℕ) : Prop where
  top : g.levelOf n ≤ g.header.topLevel
  start : g.startOf n = if g.levelOf n = 0 then noUpperSlots else g.slotsBefore n
  slots : g.slotsBefore n + g.levelOf n ≤ g.header.upperSlotCount
  lists : ∀ l ≤ g.levelOf n, g.ListOk n l

/-- A node that passes all checks made before the read of a list behind the file's last slot. -/
structure Overrun (g : HnswGraph) (n : ℕ) : Prop where
  top : g.levelOf n ≤ g.header.topLevel
  start : g.startOf n = g.slotsBefore n
  slots : g.header.upperSlotCount < g.slotsBefore n + g.levelOf n
  lists : ∀ l ≤ g.levelOf n, g.InFile n l → g.ListOk n l

theorem NodeOk.inFile (h : g.NodeOk n) (hl : l ≤ g.levelOf n) : g.InFile n l := by
  by_cases hzero : l = 0
  · exact Or.inl hzero
  · have hstart := h.start
    have hslots := h.slots
    rw [if_neg (by omega)] at hstart
    exact Or.inr (by omega)

theorem slotsBefore_le (h : ∀ m < n, g.NodeOk m) : g.slotsBefore n ≤ g.header.upperSlotCount := by
  cases n with
  | zero => exact Nat.zero_le _
  | succ n => exact (h n (Nat.lt_succ_self n)).slots

theorem Mapped.each_checkList_ok (h : g.Mapped) (hn : n < g.nodeCount) :
    each (g.checkList n (g.startOf n)) (range (g.levelOf n + 1)) = .ok () ↔
      ∀ l ≤ g.levelOf n, g.InFile n l ∧ g.ListOk n l := by
  simp only [each_range_eq_ok, Nat.lt_succ_iff]
  refine forall_congr' fun l => imp_congr_right fun _ => ?_
  constructor
  · intro hok
    have hin : g.InFile n l := by
      by_contra hout
      obtain ⟨hl, hout⟩ := not_or.1 hout
      rw [h.checkList_past_end hl (not_le.1 hout)] at hok
      cases hok
    exact ⟨hin, (h.checkList hn hin).1.1 hok⟩
  · rintro ⟨hin, hok⟩
    exact (h.checkList hn hin).1.2 hok

theorem Mapped.each_checkList_fault (h : g.Mapped) (hn : n < g.nodeCount) :
    each (g.checkList n (g.startOf n)) (range (g.levelOf n + 1)) = .fault ↔
      ¬ g.InFile n (g.levelOf n) ∧ ∀ l ≤ g.levelOf n, g.InFile n l → g.ListOk n l := by
  simp only [each_range_eq_fault, Nat.lt_succ_iff]
  constructor
  · rintro ⟨l, hle, hbefore, hfault⟩
    have hout : ¬ g.InFile n l := fun hin => (h.checkList hn hin).2 hfault
    obtain ⟨hzero, hpast⟩ := not_or.1 hout
    constructor
    · exact not_or.2 ⟨by omega, by omega⟩
    · intro k hk hin
      have hkl : k < l := by
        obtain rfl | hin := hin
        · omega
        · omega
      exact (h.checkList hn hin).1.1 (hbefore k hkl)
  · rintro ⟨hout, hlists⟩
    obtain ⟨hlevel, hpast⟩ := not_or.1 hout
    -- the first list that is not in the file
    let first := max 1 (g.header.upperSlotCount + 1 - g.startOf n)
    have hpast' : g.header.upperSlotCount < g.startOf n + first := by omega
    refine ⟨first, by omega, fun l hl => ?_, h.checkList_past_end (by omega) hpast'⟩
    have hin : g.InFile n l := by
      by_cases hzero : l = 0
      · exact Or.inl hzero
      · exact Or.inr (by omega)
    exact (h.checkList hn hin).1.2 (hlists l (by omega) hin)

variable {level start next : ℕ}

theorem checkSlotStart_eq (hadd : next + level < usizeLimit)
    (hstart : start = if level = 0 then noUpperSlots else next) :
    g.checkSlotStart n level start next = .ok (next + level) := by
  rw [checkSlotStart]
  split_ifs with hlevel hne hne
  · rw [if_pos hlevel] at hstart
    exact absurd hstart hne
  · rw [hlevel, Nat.add_zero]
  · rw [if_neg hlevel] at hstart
    exact absurd hstart hne
  · exact add_of_lt hadd

theorem checkSlotStart_err (hstart : start ≠ if level = 0 then noUpperSlots else next) :
    ∃ message, g.checkSlotStart n level start next = .err message := by
  rw [checkSlotStart]
  split_ifs with hlevel hne hne
  · exact ⟨_, rfl⟩
  · rw [if_pos hlevel] at hstart
    exact absurd (not_not.1 hne) hstart
  · exact ⟨_, rfl⟩
  · rw [if_neg hlevel] at hstart
    exact absurd (not_not.1 hne) hstart

theorem Mapped.checkNode_eq (h : g.Mapped) (hn : n < g.nodeCount)
    (hbefore : g.slotsBefore n ≤ g.header.upperSlotCount) (htop : g.levelOf n ≤ g.header.topLevel)
    (hstart : g.startOf n = if g.levelOf n = 0 then noUpperSlots else g.slotsBefore n) :
    g.checkNode (g.slotsBefore n) n = (do
      each (g.checkList n (g.startOf n)) (range (g.levelOf n + 1))
      return g.slotsBefore (n + 1)) := by
  have hslots := h.slots
  have hlevel := g.levelOf_le n
  have hadd : g.slotsBefore n + g.levelOf n < usizeLimit := by
    rw [usizeLimit]
    omega
  rw [checkNode, h.nodeLevel hn, ok_bind, if_neg (not_lt.2 htop),
    h.upperSlotStart hn, ok_bind, checkSlotStart_eq hadd hstart, ok_bind]
  rfl

theorem Mapped.checkNode_err (h : g.Mapped) (hn : n < g.nodeCount)
    (hbad : ¬ (g.levelOf n ≤ g.header.topLevel ∧
      g.startOf n = if g.levelOf n = 0 then noUpperSlots else next)) :
    ∃ message, g.checkNode next n = .err message := by
  rw [checkNode, h.nodeLevel hn, ok_bind]
  by_cases htop : g.header.topLevel < g.levelOf n
  · exact ⟨_, if_pos htop⟩
  · obtain ⟨message, hmessage⟩ := checkSlotStart_err (g := g) (n := n)
      fun hstart => hbad ⟨not_lt.1 htop, hstart⟩
    rw [if_neg htop, h.upperSlotStart hn, ok_bind, hmessage, err_bind]
    exact ⟨message, rfl⟩

variable {b : ℕ}

theorem Mapped.checkNode_eq_ok (h : g.Mapped) (hn : n < g.nodeCount)
    (hbefore : g.slotsBefore n ≤ g.header.upperSlotCount) :
    g.checkNode (g.slotsBefore n) n = .ok b ↔ g.NodeOk n ∧ b = g.slotsBefore (n + 1) := by
  by_cases hgood : g.levelOf n ≤ g.header.topLevel ∧
      g.startOf n = if g.levelOf n = 0 then noUpperSlots else g.slotsBefore n
  · rw [h.checkNode_eq hn hbefore hgood.1 hgood.2, bind_eq_ok]
    constructor
    · rintro ⟨_, heach, hpure⟩
      have hlists := (h.each_checkList_ok hn).1 heach
      cases hpure
      refine ⟨⟨hgood.1, hgood.2, ?_, fun l hl => (hlists l hl).2⟩, rfl⟩
      obtain hzero | hin := (hlists (g.levelOf n) le_rfl).1
      · omega
      · have hstart := hgood.2
        split_ifs at hstart with hzero
        · omega
        · omega
    · rintro ⟨hok, rfl⟩
      refine ⟨(), (h.each_checkList_ok hn).2 fun l hl => ⟨hok.inFile hl, hok.lists l hl⟩, rfl⟩
  · obtain ⟨message, hmessage⟩ := h.checkNode_err hn hgood
    rw [hmessage]
    constructor
    · intro herr
      cases herr
    · rintro ⟨hok, -⟩
      exact absurd ⟨hok.top, hok.start⟩ hgood

theorem Mapped.checkNode_eq_fault (h : g.Mapped) (hn : n < g.nodeCount)
    (hbefore : g.slotsBefore n ≤ g.header.upperSlotCount) :
    g.checkNode (g.slotsBefore n) n = .fault ↔ g.Overrun n := by
  by_cases hgood : g.levelOf n ≤ g.header.topLevel ∧
      g.startOf n = if g.levelOf n = 0 then noUpperSlots else g.slotsBefore n
  · obtain ⟨htop, hstart⟩ := hgood
    have hfault : g.checkNode (g.slotsBefore n) n = .fault ↔
        each (g.checkList n (g.startOf n)) (range (g.levelOf n + 1)) = .fault := by
      rw [h.checkNode_eq hn hbefore htop hstart]
      cases each (g.checkList n (g.startOf n)) (range (g.levelOf n + 1)) with
      | ok u => simp
      | err message => simp
      | fault => simp
    rw [hfault, h.each_checkList_fault hn]
    constructor
    · rintro ⟨hout, hlists⟩
      obtain ⟨hlevel, hpast⟩ := not_or.1 hout
      rw [if_neg hlevel] at hstart
      exact ⟨htop, hstart, by omega, hlists⟩
    · intro hover
      have hslots := hover.slots
      have hstart' := hover.start
      exact ⟨not_or.2 ⟨by omega, by omega⟩, hover.lists⟩
  · obtain ⟨message, hmessage⟩ := h.checkNode_err hn hgood
    rw [hmessage]
    constructor
    · intro herr
      cases herr
    · intro hover
      have hslots := hover.slots
      refine absurd ⟨hover.top, ?_⟩ hgood
      rw [if_neg (by omega), hover.start]

structure Good (g : HnswGraph) : Prop where
  entry : g.levelOf g.header.entryNode = g.header.topLevel
  nodes : ∀ n < g.nodeCount, g.NodeOk n
  slots : g.slotsBefore g.nodeCount = g.header.upperSlotCount

theorem Mapped.entry_lt (h : g.Mapped) : g.header.entryNode < g.nodeCount := by
  have hvalid := h.valid
  rw [validate] at hvalid
  split_ifs at hvalid with h₁ h₂ h₃ h₄ h₅
  exact not_le.1 h₄

theorem Mapped.checkNodes_eq_ok (h : g.Mapped) :
    (range g.nodeCount).foldlM g.checkNode 0 = .ok b ↔
      (∀ n < g.nodeCount, g.NodeOk n) ∧ b = g.slotsBefore g.nodeCount :=
  foldlM_range_eq_ok g.slotsBefore fun _ hm hbefore _ =>
    h.checkNode_eq_ok hm (slotsBefore_le hbefore)

theorem Mapped.checkNodes_eq_fault (h : g.Mapped) :
    (range g.nodeCount).foldlM g.checkNode 0 = .fault ↔
      ∃ n < g.nodeCount, (∀ m < n, g.NodeOk m) ∧ g.Overrun n :=
  foldlM_range_eq_fault g.slotsBefore
    (fun _ hm hbefore _ => h.checkNode_eq_ok hm (slotsBefore_le hbefore))
    fun _ hm hbefore => h.checkNode_eq_fault hm (slotsBefore_le hbefore)

theorem Mapped.validateLinks_eq_ok (h : g.Mapped) : g.validateLinks = .ok () ↔ g.Good := by
  rw [validateLinks, h.nodeLevel h.entry_lt, ok_bind]
  by_cases hentry : g.levelOf g.header.entryNode = g.header.topLevel
  · rw [if_neg (not_not.2 hentry), bind_eq_ok]
    constructor
    · rintro ⟨b, hb, hcount⟩
      obtain ⟨hnodes, rfl⟩ := h.checkNodes_eq_ok.1 hb
      split_ifs at hcount with hslots
      exact ⟨hentry, hnodes, not_not.1 hslots⟩
    · intro hgood
      refine ⟨g.slotsBefore g.nodeCount, h.checkNodes_eq_ok.2 ⟨hgood.nodes, rfl⟩, ?_⟩
      rw [if_neg (not_not.2 hgood.slots)]
  · rw [if_pos hentry]
    constructor
    · intro herr
      cases herr
    · intro hgood
      exact absurd hgood.entry hentry

/-- The upper slots of each node that the checks come to lie in the file, if the lists of the node
that lie there pass. -/
def SlotsFit (g : HnswGraph) : Prop :=
  g.levelOf g.header.entryNode = g.header.topLevel →
    ∀ n < g.nodeCount, (∀ m < n, g.NodeOk m) → g.levelOf n ≤ g.header.topLevel →
      g.startOf n = g.slotsBefore n → (∀ l ≤ g.levelOf n, g.InFile n l → g.ListOk n l) →
      g.slotsBefore n + g.levelOf n ≤ g.header.upperSlotCount

theorem Mapped.validateLinks_returns (h : g.Mapped) : g.validateLinks.Returns ↔ g.SlotsFit := by
  rw [validateLinks, h.nodeLevel h.entry_lt, ok_bind]
  by_cases hentry : g.levelOf g.header.entryNode = g.header.topLevel
  · rw [if_neg (not_not.2 hentry), returns_bind]
    constructor
    · rintro ⟨hreturns, -⟩ - n hn hbefore htop hstart hlists
      by_contra hslots
      refine hreturns (h.checkNodes_eq_fault.2 ⟨n, hn, hbefore, htop, hstart, ?_, hlists⟩)
      exact not_le.1 hslots
    · intro hfit
      constructor
      · intro hfault
        obtain ⟨n, hn, hbefore, hover⟩ := h.checkNodes_eq_fault.1 hfault
        have hle := hfit hentry n hn hbefore hover.top hover.start hover.lists
        have hlt := hover.slots
        omega
      · intro b _
        split_ifs
        · exact returns_err _
        · exact returns_ok _
  · rw [if_pos hentry]
    exact ⟨fun _ hentry' => absurd hentry' hentry, fun _ => returns_err _⟩

/-! ### Opening -/

variable {bytes : ByteSeq}

theorem fields_returns (h : headerLength ≤ bytes.length) :
    (fields bytes).Returns := by
  rw [headerLength] at h
  rw [fields]
  repeat' refine returns_bind.2 ⟨returns_readWord (by omega), fun _ _ => ?_⟩
  exact returns_ok _

theorem upperSlotCount_lt {header : GraphHeader}
    (h : fields bytes = .ok header) : header.upperSlotCount < 2 ^ 32 := by
  simp only [fields, bind_eq_ok] at h
  obtain ⟨_, -, _, -, _, -, _, -, _, -, _, -, _, -, upperSlotCount, hcount, hheader⟩ := h
  cases hheader
  exact readWord_eq_ok hcount

theorem readFrom_returns (path : String) (bytes : ByteSeq) : (readFrom path bytes).Returns := by
  rw [readFrom]
  split_ifs with hshort
  · exact returns_err _
  · have hlen : headerLength ≤ bytes.length := not_lt.1 hshort
    have hlen' : 64 ≤ bytes.length := hlen
    rw [slice_of_le (by omega) (by omega), ok_bind]
    split_ifs
    · exact returns_err _
    · refine returns_bind.2 ⟨returns_readWord (by omega), fun version _ => ?_⟩
      split_ifs
      · exact returns_err _
      · refine returns_bind.2 ⟨fields_returns hlen, fun header _ => ?_⟩
        split
        · exact returns_err _
        · exact returns_ok _

theorem readFrom_eq_ok {path : String} {header : GraphHeader}
    (h : readFrom path bytes = .ok header) :
    header.validate = none ∧ header.upperSlotCount < 2 ^ 32 := by
  rw [readFrom] at h
  split_ifs at h
  obtain ⟨magic, -, h⟩ := bind_eq_ok.1 h
  split_ifs at h
  obtain ⟨version, -, h⟩ := bind_eq_ok.1 h
  split_ifs at h
  obtain ⟨header', hfields, h⟩ := bind_eq_ok.1 h
  split at h
  · cases h
  · rename_i hvalid
    cases h
    exact ⟨hvalid, upperSlotCount_lt hfields⟩

theorem mapped_returns (path : String) (bytes : ByteSeq) (vectors : VectorFile) (aligned : Bool) :
    (mapped path bytes vectors aligned).Returns := by
  rw [mapped, returns_bind]
  refine ⟨readFrom_returns path bytes, fun header _ => ?_⟩
  split
  · exact returns_err _
  · split
    · exact returns_err _
    · split
      · exact returns_err _
      · split_ifs
        · exact returns_err _
        · exact returns_err _
        · exact returns_ok _

theorem mapped_eq_ok {path : String} {vectors : VectorFile} {aligned : Bool} (h : mapped path bytes vectors aligned = .ok g) : g.Mapped := by
  obtain ⟨header, hread, h⟩ := bind_eq_ok.1 h
  obtain ⟨hvalid, hslots⟩ := readFrom_eq_ok hread
  split at h
  · cases h
  · split at h
    · cases h
    · split at h
      · cases h
      · rename_i layout hlayout
        split_ifs at h with hlen
        cases h
        exact ⟨new_fits hlayout, not_not.1 hlen, hvalid, hslots⟩

theorem openGraph_eq_ok {path : String} {vectors : VectorFile} {aligned : Bool} :
    openGraph path bytes vectors aligned = .ok g ↔
      mapped path bytes vectors aligned = .ok g ∧ g.Good := by
  rw [openGraph, bind_eq_ok]
  constructor
  · rintro ⟨g', hmapped, hcheck⟩
    obtain ⟨_, hlinks, hpure⟩ := bind_eq_ok.1 hcheck
    cases hpure
    exact ⟨hmapped, (mapped_eq_ok hmapped).validateLinks_eq_ok.1 hlinks⟩
  · rintro ⟨hmapped, hgood⟩
    refine ⟨g, hmapped, ?_⟩
    rw [(mapped_eq_ok hmapped).validateLinks_eq_ok.2 hgood]
    rfl

/-- The lists that a search can ask for: it starts at the entry node on the top level, follows
links on a level and goes down a level where it stands. -/
inductive Asked (g : HnswGraph) : ℕ → ℕ → Prop
  | entry : Asked g g.header.entryNode g.header.topLevel
  | link {n l m : ℕ} {links : List ℕ} (asked : Asked g n l) (list : g.neighbourList n l = .ok links)
      (linked : m ∈ links) : Asked g m l
  | down {n l : ℕ} (asked : Asked g n (l + 1)) : Asked g n l

theorem Good.list (h : g.Good) (hmapped : g.Mapped) (hn : n < g.nodeCount)
    (hl : l ≤ g.levelOf n) :
    g.neighbourList n l = .ok (g.linksOf n l) ∧
      ∀ m ∈ g.linksOf n l, m < g.nodeCount ∧ l ≤ g.levelOf m := by
  have hok := (h.nodes n hn).lists l hl
  refine ⟨hmapped.neighbourList hn ((h.nodes n hn).inFile hl) hok.bound, fun m hm => ?_⟩
  obtain ⟨hlt, -, hlevel⟩ := hok.links m hm
  exact ⟨hlt, hlevel⟩

theorem Good.asked (h : g.Good) (hmapped : g.Mapped) (hasked : g.Asked n l) :
    n < g.nodeCount ∧ l ≤ g.levelOf n := by
  induction hasked with
  | entry => exact ⟨hmapped.entry_lt, h.entry.ge⟩
  | link asked list linked ih =>
    obtain ⟨hlist, hlinks⟩ := h.list hmapped ih.1 ih.2
    rw [hlist] at list
    cases list
    exact hlinks _ linked
  | down asked ih => exact ⟨ih.1, by omega⟩

/-- Every list that a search can ask for lies in the file and names existing nodes. -/
def Safe (g : HnswGraph) : Prop :=
  ∀ n l, g.Asked n l → n < g.nodeCount ∧
    ∃ links, g.neighbourList n l = .ok links ∧ ∀ m ∈ links, m < g.nodeCount

theorem Good.safe (h : g.Good) (hmapped : g.Mapped) : g.Safe := by
  intro n l hasked
  obtain ⟨hn, hl⟩ := h.asked hmapped hasked
  obtain ⟨hlist, hlinks⟩ := h.list hmapped hn hl
  exact ⟨hn, g.linksOf n l, hlist, fun m hm => (hlinks m hm).1⟩

/-- Opening reads within the file, and so does every search of an opened graph, exactly when the
upper slots that the checks come to lie in the file. -/
theorem openGraph_safe_iff (path : String) (bytes : ByteSeq) (vectors : VectorFile) (aligned : Bool) :
    ((openGraph path bytes vectors aligned).Returns ∧
      ∀ g, openGraph path bytes vectors aligned = .ok g → g.Safe) ↔
    ∀ g, mapped path bytes vectors aligned = .ok g → g.SlotsFit := by
  constructor
  · rintro ⟨hreturns, -⟩ g hmapped
    rw [openGraph, hmapped, ok_bind, returns_bind] at hreturns
    exact (mapped_eq_ok hmapped).validateLinks_returns.1 hreturns.1
  · intro hfit
    constructor
    · rw [openGraph, returns_bind]
      refine ⟨mapped_returns path bytes vectors aligned, fun g hmapped => ?_⟩
      rw [returns_bind]
      refine ⟨(mapped_eq_ok hmapped).validateLinks_returns.2 (hfit g hmapped), fun _ _ => ?_⟩
      exact returns_ok g
    · intro g hopen
      obtain ⟨hmapped, hgood⟩ := openGraph_eq_ok.1 hopen
      exact hgood.safe (mapped_eq_ok hmapped)

def noRoom : ByteSeq :=
  writeTo ⟨7, 1, 3, 2, 4, 0, 1, 0⟩ ++ (1 :: replicate 63 0) ++
    replicate 64 0 ++ replicate 64 0

theorem noRoom_faults :
    ¬ (openGraph "seg.hnsw" noRoom ⟨7, 1, 3⟩ true).Returns := by
  intro hreturns
  refine hreturns ?_
  decide +kernel

end HnswGraph

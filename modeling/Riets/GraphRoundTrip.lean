/-
Writing a graph file and opening it.

The writer puts the sections one after the other, the reader computes where they are;
both follow the layout of the header.  `GraphUnderConstruction.write_openGraph` says that
a graph whose lists are as the builder leaves them is read back as it was.
-/
import Riets.GraphSafety

open FixedSlots Fallible

theorem nextSection_eq_some {offset : ℕ} (h : offset + sectionAlignment ≤ usizeLimit) :
    ∃ section', nextSection offset = some section' ∧ section' < offset + sectionAlignment := by
  rw [nextSection]
  have hmod : offset % sectionAlignment < sectionAlignment := Nat.mod_lt _ (by decide)
  split_ifs with hzero
  · refine ⟨offset, rfl, ?_⟩
    omega
  · have hlt : offset + (sectionAlignment - offset % sectionAlignment) < offset + sectionAlignment := by
      omega
    exact ⟨_, if_pos (by omega), hlt⟩

variable {h : GraphHeader}

theorem GraphLayout.new_isSome (hnodes : h.nodeCount < 2 ^ 32)
    (hupper : h.maxLinksUpper ≤ maxLinksLimit) (hlevel0 : h.maxLinksLevel0 = h.maxLinksUpper * 2)
    (hslots : h.upperSlotCount < 2 ^ 32) : ∃ l, GraphLayout.new h = some l := by
  rw [maxLinksLimit] at hupper
  have hmul₀ : h.nodeCount * ((1 + h.maxLinksLevel0) * 4) < 2 ^ 32 * 1032 := by
    calc h.nodeCount * ((1 + h.maxLinksLevel0) * 4)
        ≤ h.nodeCount * 1031 := Nat.mul_le_mul_left _ (by omega)
      _ < 2 ^ 32 * 1032 := by omega
  have hmul₁ : h.upperSlotCount * ((1 + h.maxLinksUpper) * 4) < 2 ^ 32 * 1032 := by
    calc h.upperSlotCount * ((1 + h.maxLinksUpper) * 4)
        ≤ h.upperSlotCount * 1031 := Nat.mul_le_mul_left _ (by omega)
      _ < 2 ^ 32 * 1032 := by omega
  have hlimit : usizeLimit = 2 ^ 64 := rfl
  have halign : sectionAlignment = 64 := rfl
  have hheader : headerLength = 64 := rfl
  obtain ⟨starts, hstarts, hstarts'⟩ := @nextSection_eq_some (headerLength + h.nodeCount) (by omega)
  obtain ⟨level0, hlevel0, hlevel0'⟩ := @nextSection_eq_some (starts + h.nodeCount * 4) (by omega)
  obtain ⟨upper, hupper, hupper'⟩ :=
    @nextSection_eq_some (level0 + h.nodeCount * ((1 + h.maxLinksLevel0) * 4)) (by omega)
  have hadd {a b : ℕ} (hlt : a + b < usizeLimit) : checkedAdd a b = some (a + b) := if_pos hlt
  have hmul {a b : ℕ} (hlt : a * b < usizeLimit) : checkedMul a b = some (a * b) := if_pos hlt
  simp only [GraphLayout.new, Option.bind_eq_bind]
  rw [hadd (by omega), Option.bind_some, hstarts, Option.bind_some, hmul (by omega),
    Option.bind_some, hadd (by omega), Option.bind_some, hlevel0, Option.bind_some,
    hmul (by omega), Option.bind_some, hadd (by omega), Option.bind_some, hupper,
    Option.bind_some, hmul (by omega), Option.bind_some, hadd (by omega)]
  exact ⟨_, rfl⟩

theorem GraphHeader.length_writeTo (h : GraphHeader) : h.writeTo.length = headerLength := by
  simp [GraphHeader.writeTo, hnswMagic, headerLength, headerFixedLength]

structure GraphHeader.InRange (h : GraphHeader) : Prop where
  vectorFileId : h.vectorFileId < 256 ^ 8
  nodeCount : h.nodeCount < 256 ^ 4
  dims : h.dims < 256 ^ 4
  maxLinksUpper : h.maxLinksUpper < 256 ^ 2
  maxLinksLevel0 : h.maxLinksLevel0 < 256 ^ 2
  entryNode : h.entryNode < 256 ^ 4
  topLevel : h.topLevel < 256 ^ 1
  upperSlotCount : h.upperSlotCount < 256 ^ 4

theorem GraphHeader.validate_eq_none (hupper : 2 ≤ h.maxLinksUpper ∧ h.maxLinksUpper ≤ maxLinksLimit)
    (hlevel0 : h.maxLinksLevel0 = h.maxLinksUpper * 2) (hnodes : h.nodeCount ≠ 0)
    (hentry : h.entryNode < h.nodeCount) (htop : h.topLevel ≤ maxLevel) : h.validate = none := by
  rw [validate, if_neg (not_not.2 hupper), if_neg (not_not.2 hlevel0), if_neg hnodes,
    if_neg (not_le.2 hentry), if_neg (not_lt.2 htop)]

theorem GraphHeader.readFrom_writeTo (hrange : h.InRange) (hvalid : h.validate = none)
    (path : String) (rest : ByteSeq) : readFrom path (h.writeTo ++ rest) = .ok h := by
  have hlen : ¬ (h.writeTo ++ rest).length < headerLength := by
    rw [List.length_append, h.length_writeTo]
    omega
  -- what stands behind each field
  have h₀ : (h.writeTo ++ rest).drop 0 = hnswMagic ++ (leBytes 4 hnswVersion ++ (leBytes 4 0 ++
      (leBytes 8 h.vectorFileId ++ (leBytes 4 h.nodeCount ++ (leBytes 4 h.dims ++
        (leBytes 2 h.maxLinksUpper ++ (leBytes 2 h.maxLinksLevel0 ++ (leBytes 4 h.entryNode ++
          (leBytes 1 h.topLevel ++ ([0, 0, 0] ++ (leBytes 4 h.upperSlotCount ++
            (List.replicate (headerLength - headerFixedLength) 0 ++ rest)))))))))))) := by
    simp only [writeTo, List.append_assoc, List.drop_zero]
  have h₈ := drop_add h₀ rfl
  have h₁₂ := drop_add h₈ rfl
  have h₁₆ := drop_add h₁₂ rfl
  have h₂₄ := drop_add h₁₆ rfl
  have h₂₈ := drop_add h₂₄ rfl
  have h₃₂ := drop_add h₂₈ rfl
  have h₃₄ := drop_add h₃₂ rfl
  have h₃₆ := drop_add h₃₄ rfl
  have h₄₀ := drop_add h₃₆ rfl
  have h₄₁ := drop_add h₄₀ rfl
  have h₄₄ := drop_add h₄₁ rfl
  have hmagic : slice (h.writeTo ++ rest) 0 8 = .ok hnswMagic := by
    rw [slice_of_le (by omega) (by rw [headerLength] at hlen; omega)]
    rfl
  have hversion : readWord 4 (h.writeTo ++ rest) 8 = .ok hnswVersion :=
    readWord_of_drop (by omega) (by decide) h₈
  have hfields : fields (h.writeTo ++ rest) = .ok h := by
    have hid : readWord 8 (h.writeTo ++ rest) 16 = .ok h.vectorFileId :=
      readWord_of_drop (by omega) hrange.vectorFileId h₁₆
    have hcount : readWord 4 (h.writeTo ++ rest) 24 = .ok h.nodeCount :=
      readWord_of_drop (by omega) hrange.nodeCount h₂₄
    have hdims : readWord 4 (h.writeTo ++ rest) 28 = .ok h.dims :=
      readWord_of_drop (by omega) hrange.dims h₂₈
    have hupper : readWord 2 (h.writeTo ++ rest) 32 = .ok h.maxLinksUpper :=
      readWord_of_drop (by omega) hrange.maxLinksUpper h₃₂
    have hlevel0 : readWord 2 (h.writeTo ++ rest) 34 = .ok h.maxLinksLevel0 :=
      readWord_of_drop (by omega) hrange.maxLinksLevel0 h₃₄
    have hentry : readWord 4 (h.writeTo ++ rest) 36 = .ok h.entryNode :=
      readWord_of_drop (by omega) hrange.entryNode h₃₆
    have htop : readWord 1 (h.writeTo ++ rest) 40 = .ok h.topLevel :=
      readWord_of_drop (by omega) hrange.topLevel h₄₀
    have hslots : readWord 4 (h.writeTo ++ rest) 44 = .ok h.upperSlotCount :=
      readWord_of_drop (by omega) hrange.upperSlotCount h₄₄
    simp only [fields, hid, hcount, hdims, hupper, hlevel0, hentry, htop, hslots, ok_bind,
      pure_eq]
  rw [readFrom, if_neg hlen, hmagic, ok_bind, if_neg (not_not.2 rfl), hversion,
    ok_bind, if_neg (not_not.2 rfl), hfields, ok_bind, hvalid]

namespace GraphUnderConstruction

open List Option GraphHeader Fallible HnswGraph GraphLayout Nat

variable {g : GraphUnderConstruction} {vectors : VectorFile}

/-! ### The writer -/

theorem length_writeSlot {maxLinks : ℕ} {links : List ℕ} (h : links.length ≤ maxLinks) :
    (writeSlot maxLinks links).length = (1 + maxLinks) * 4 := by
  have hlinks : (links.flatMap (leBytes 4)).length = links.length * 4 :=
    length_flatMap_eq fun m _ => length_leBytes 4 m
  have hzeros : ((replicate (maxLinks - links.length) 0).flatMap (leBytes 4)).length =
      (maxLinks - links.length) * 4 := by
    rw [length_flatMap_eq fun m _ => length_leBytes 4 m, length_replicate]
  rw [writeSlot, length_append, length_append, length_leBytes, hlinks, hzeros]
  omega

theorem words_writeSlot {maxLinks offset : ℕ} {links : List ℕ} {bytes rest : ByteSeq}
    (h : bytes.drop offset = writeSlot maxLinks links ++ rest) (hlen : links.length < 256 ^ 4)
    (hlinks : ∀ m ∈ links, m < 256 ^ 4) :
    wordAt 4 bytes offset = links.length ∧
      words 4 links.length (bytes.drop (offset + 4)) = links := by
  rw [writeSlot, append_assoc, append_assoc] at h
  have hbehind := drop_add h (length_leBytes 4 links.length)
  rw [hbehind, words_flatMap hlinks]
  exact ⟨wordAt_of_drop hlen h, rfl⟩

theorem upperSlotStarts_eq {levels : List ℕ} {count : ℕ} (h : count + levels.sum < noUpperSlots) :
    ∃ starts, upperSlotStarts levels count = .ok (starts, count + levels.sum) ∧
      starts.length = levels.length ∧ ∀ n level, levels[n]? = some level →
        starts[n]? = some (if level = 0 then noUpperSlots else count + (levels.take n).sum) := by
  induction levels generalizing count with
  | nil => exact ⟨[], rfl, rfl, fun n level hn => by cases hn⟩
  | cons first levels ih =>
    rw [sum_cons, ← add_assoc] at h
    obtain ⟨starts, heq, hlen, hstarts⟩ := ih h
    refine ⟨(if first = 0 then noUpperSlots else count) :: starts, ?_, ?_, ?_⟩
    · rw [upperSlotStarts, sum_cons, ← add_assoc]
      by_cases hzero : first = 0
      · rw [hzero, add_zero] at heq
        rw [if_pos hzero, if_pos hzero, hzero, add_zero, heq]
        rfl
      · rw [if_neg hzero, if_neg hzero, if_pos (by omega), heq]
        rfl
    · rw [length_cons, length_cons, hlen]
    · intro n level hn
      cases n with
      | zero =>
        obtain rfl : first = level := some_inj.1 hn
        rfl
      | succ n =>
        rw [take_succ_cons, sum_cons, ← add_assoc]
        exact hstarts n level hn

structure Built (g : GraphUnderConstruction) (vectors : VectorFile) : Prop where
  fileId : vectors.fileId < 2 ^ 64
  dims : vectors.dims < 2 ^ 32
  len : vectors.len = g.nodeCount
  count : g.nodeCount < 2 ^ 32
  entry : g.entryNode < g.nodeCount
  upper : 2 ≤ g.maxLinksUpper ∧ g.maxLinksUpper ≤ maxLinksLimit
  level0 : g.maxLinksLevel0 = g.maxLinksUpper * 2
  lists : g.neighbourLists.map List.length = g.nodeLevels.map (· + 1)

/-- Its lists are within their bounds and name other nodes on their level. -/
def WellLinked (g : GraphUnderConstruction) : Prop :=
  ∀ n l links, g.neighbours? n l = some links → links.length ≤ g.maxLinksAt l ∧
    ∀ m ∈ links, m ≠ n ∧ ∃ level, g.nodeLevels[m]? = some level ∧ l ≤ level

def headerOf (g : GraphUnderConstruction) (vectors : VectorFile) (topLevel : ℕ) : GraphHeader :=
  ⟨vectors.fileId, g.nodeCount, vectors.dims, g.maxLinksUpper, g.maxLinksLevel0, g.entryNode, topLevel,
    g.nodeLevels.sum⟩

theorem Built.lists_length (h : g.Built vectors) {n level : ℕ} (hn : g.nodeLevels[n]? = some level) :
    ∃ lists, g.neighbourLists[n]? = some lists ∧ lists.length = level + 1 := by
  have hmap := congrArg (fun lengths => lengths[n]?) h.lists
  simp only [getElem?_map, hn, map_some] at hmap
  exact map_eq_some_iff.1 hmap

theorem Built.length_neighbourLists (h : g.Built vectors) : g.neighbourLists.length = g.nodeCount := by
  have hlen := congrArg length h.lists
  rwa [length_map, length_map] at hlen

def level0Lists (g : GraphUnderConstruction) : List (List ℕ) := g.neighbourLists.map (headD · [])

theorem Built.collect_level0 (h : g.Built vectors) :
    collect (g.neighbourLists.map (index · 0)) = .ok g.level0Lists := by
  rw [← collect_ok, level0Lists, List.map_map]
  congr 1
  refine map_congr_left fun lists hlists => ?_
  have hlen : lists.length ∈ g.nodeLevels.map (· + 1) := by
    rw [← h.lists]
    exact mem_map_of_mem hlists
  obtain ⟨level, -, hlevel⟩ := mem_map.1 hlen
  cases lists with
  | nil => cases hlevel
  | cons first lists => rfl

def upperLists (g : GraphUnderConstruction) : List (List ℕ) := g.neighbourLists.flatMap List.tail

theorem Built.tail_lengths (h : g.Built vectors) :
    g.neighbourLists.map (fun lists => lists.tail.length) = g.nodeLevels := by
  calc g.neighbourLists.map (fun lists => lists.tail.length)
      = (g.neighbourLists.map List.length).map (· - 1) := by
        rw [List.map_map]
        exact map_congr_left fun lists _ => length_tail
    _ = (g.nodeLevels.map (· + 1)).map (· - 1) := by rw [h.lists]
    _ = g.nodeLevels := by
        rw [List.map_map]
        exact map_id'' (fun level => Nat.add_sub_cancel level 1) _

theorem WellLinked.level0_bound (h : g.WellLinked) :
    ∀ links ∈ g.level0Lists, links.length ≤ g.maxLinksLevel0 := by
  intro links hlinks
  obtain ⟨lists, hlists, rfl⟩ := mem_map.1 hlinks
  obtain ⟨n, hn⟩ := mem_iff_getElem?.1 hlists
  cases lists with
  | nil => exact zero_le _
  | cons first lists =>
    refine (h n 0 first ?_).1
    rw [neighbours?, hn]
    rfl

theorem WellLinked.upper_bound (h : g.WellLinked) :
    ∀ links ∈ g.upperLists, links.length ≤ g.maxLinksUpper := by
  intro links hlinks
  obtain ⟨lists, hlists, hmem⟩ := mem_flatMap.1 hlinks
  obtain ⟨n, hn⟩ := mem_iff_getElem?.1 hlists
  obtain ⟨l, hl⟩ := mem_iff_getElem?.1 hmem
  refine (h n (l + 1) links ?_).1
  rw [neighbours?, hn, bind_some, ← getElem?_tail]
  exact hl

structure Assembled (g : GraphUnderConstruction) (header : GraphHeader) (l : GraphLayout)
    (starts : List ℕ) (bytes : ByteSeq) : Prop where
  header : ∃ rest, bytes = header.writeTo ++ rest
  levels : ∃ rest, bytes.drop l.nodeLevelsOffset = g.nodeLevels.flatMap (leBytes 1) ++ rest
  starts : ∃ rest, bytes.drop l.upperSlotStartsOffset = starts.flatMap (leBytes 4) ++ rest
  level0 : ∃ rest, bytes.drop l.level0ListsOffset =
    g.level0Lists.flatMap (writeSlot g.maxLinksLevel0) ++ rest
  upper : ∃ rest, bytes.drop l.upperListsOffset =
    g.upperLists.flatMap (writeSlot g.maxLinksUpper) ++ rest
  length : bytes.length = l.totalLength

theorem length_zeroPadding {offset stop : ℕ} (h : offset ≤ stop) :
    offset + (zeroPadding offset stop).length = stop := by
  rw [zeroPadding, length_replicate]
  omega

theorem Built.assembled (h : g.Built vectors) (hlinked : g.WellLinked) {topLevel : ℕ} {l : GraphLayout}
    {starts : List ℕ} (hfits : l.Fits (g.headerOf vectors topLevel)) (hstarts : starts.length = g.nodeCount) :
    g.Assembled (g.headerOf vectors topLevel) l starts
      (g.sections (g.headerOf vectors topLevel) l starts g.level0Lists) := by
  have hlevels : (g.nodeLevels.flatMap (leBytes 1)).length = g.nodeCount := by
    rw [length_flatMap_eq fun m _ => length_leBytes 1 m, mul_one]
    rfl
  have hstarts' : (starts.flatMap (leBytes 4)).length = g.nodeCount * 4 := by
    rw [length_flatMap_eq fun m _ => length_leBytes 4 m, hstarts]
  have hlevel0 : (g.level0Lists.flatMap (writeSlot g.maxLinksLevel0)).length =
      g.nodeCount * l.level0SlotLength := by
    rw [length_flatMap_eq fun links hlinks => length_writeSlot (hlinked.level0_bound links hlinks),
      hfits.slot0, level0Lists, length_map, h.length_neighbourLists]
    rfl
  have hupper : (g.upperLists.flatMap (writeSlot g.maxLinksUpper)).length =
      g.nodeLevels.sum * l.upperSlotLength := by
    rw [length_flatMap_eq fun links hlinks => length_writeSlot (hlinked.upper_bound links hlinks),
      hfits.slotUpper, upperLists, length_flatMap, h.tail_lengths]
    rfl
  have hpad₁ : l.nodeLevelsOffset + g.nodeCount +
      (zeroPadding (l.nodeLevelsOffset + g.nodeCount) l.upperSlotStartsOffset).length =
      l.upperSlotStartsOffset := length_zeroPadding hfits.starts
  have hpad₂ : l.upperSlotStartsOffset + g.nodeCount * 4 +
      (zeroPadding (l.upperSlotStartsOffset + g.nodeCount * 4) l.level0ListsOffset).length =
      l.level0ListsOffset := length_zeroPadding hfits.level0
  have hpad₃ : l.level0ListsOffset + g.nodeCount * l.level0SlotLength +
      (zeroPadding (l.level0ListsOffset + g.nodeCount * l.level0SlotLength) l.upperListsOffset).length =
      l.upperListsOffset := length_zeroPadding hfits.upper
  have hsections : g.sections (g.headerOf vectors topLevel) l starts g.level0Lists =
      (g.headerOf vectors topLevel).writeTo ++ (g.nodeLevels.flatMap (leBytes 1) ++
        (zeroPadding (l.nodeLevelsOffset + g.nodeCount) l.upperSlotStartsOffset ++
          (starts.flatMap (leBytes 4) ++
            (zeroPadding (l.upperSlotStartsOffset + g.nodeCount * 4) l.level0ListsOffset ++
              (g.level0Lists.flatMap (writeSlot g.maxLinksLevel0) ++
                (zeroPadding (l.level0ListsOffset + g.nodeCount * l.level0SlotLength)
                    l.upperListsOffset ++
                  (g.upperLists.flatMap (writeSlot g.maxLinksUpper) ++ []))))))) := by
    rw [sections, upperLists, flatMap_assoc, append_nil]
  -- section by section
  have h₀ := (drop_zero (l := g.sections (g.headerOf vectors topLevel) l starts g.level0Lists)).trans
    hsections
  have h₁ := drop_add h₀ (length_writeTo _)
  rw [zero_add, ← hfits.levels] at h₁
  have h₂ := drop_add (drop_add h₁ hlevels) rfl
  rw [hpad₁] at h₂
  have h₃ := drop_add (drop_add h₂ hstarts') rfl
  rw [hpad₂] at h₃
  have h₄ := drop_add (drop_add h₃ hlevel0) rfl
  rw [hpad₃] at h₄
  refine ⟨⟨_, hsections⟩, ⟨_, h₁⟩, ⟨_, h₂⟩, ⟨_, h₃⟩, ⟨_, h₄⟩, ?_⟩
  have htotal : l.upperListsOffset + g.nodeLevels.sum * l.upperSlotLength = l.totalLength := hfits.total
  have hlen := congrArg length hsections
  simp only [length_append, hlevels, hstarts', hlevel0, hupper, length_nil,
    length_writeTo] at hlen
  have hstart := hfits.levels
  omega

structure TopAt (g : GraphUnderConstruction) (topLevel : ℕ) : Prop where
  entry : g.nodeLevels[g.entryNode]? = some topLevel
  greatest : ∀ level ∈ g.nodeLevels, level ≤ topLevel
  limit : topLevel ≤ maxLevel
  slots : g.nodeLevels.sum < noUpperSlots

theorem TopAt.level_lt {topLevel : ℕ} (h : g.TopAt topLevel) :
    ∀ level ∈ g.nodeLevels, level < 256 ^ 1 := by
  intro level hlevel
  have hle := h.greatest level hlevel
  have hlimit := h.limit
  rw [maxLevel] at hlimit
  omega

theorem Built.write_eq (h : g.Built vectors) (hlinked : g.WellLinked) {topLevel : ℕ}
    (htop : g.TopAt topLevel) (tmpPath : String) :
    ∃ bytes l starts, g.write tmpPath vectors.fileId vectors.dims = .ok bytes ∧
      new (g.headerOf vectors topLevel) = some l ∧
      (∀ n level, g.nodeLevels[n]? = some level →
        starts[n]? = some (if level = 0 then noUpperSlots else (g.nodeLevels.take n).sum)) ∧
      g.Assembled (g.headerOf vectors topLevel) l starts bytes := by
  have hslots := htop.slots
  obtain ⟨starts, hstarts, hlen, hstart⟩ :=
    @upperSlotStarts_eq g.nodeLevels 0 (by rwa [zero_add])
  simp only [zero_add] at hstarts hstart
  have hupper := h.upper.2
  rw [maxLinksLimit] at hupper
  have hlevel0 := h.level0
  obtain ⟨l, hl⟩ : ∃ l, new (g.headerOf vectors topLevel) = some l := by
    refine new_isSome h.count h.upper.2 hlevel0 ?_
    show g.nodeLevels.sum < 2 ^ 32
    rw [noUpperSlots] at hslots
    omega
  have hassembled := h.assembled hlinked (new_fits hl) hlen
  have hheader : (⟨vectors.fileId, g.nodeCount % 2 ^ 32, vectors.dims, g.maxLinksUpper % 2 ^ 16,
      g.maxLinksLevel0 % 2 ^ 16, g.entryNode, topLevel, g.nodeLevels.sum⟩ : GraphHeader) =
      g.headerOf vectors topLevel := by
    rw [headerOf, mod_eq_of_lt h.count, mod_eq_of_lt (by omega), mod_eq_of_lt (by omega)]
  refine ⟨_, l, starts, ?_, hl, hstart, hassembled⟩
  rw [write, hstarts, ok_bind]
  simp only [if_neg (not_le.2 h.dims), index_of_some htop.entry, ok_bind]
  rw [hheader, hl, h.collect_level0]
  simp only [ok_bind, hassembled.length]
  rw [if_neg (not_not.2 rfl)]

/-! ### The reader -/

section Opened

variable {topLevel : ℕ} {l : GraphLayout} {starts : List ℕ} {bytes : ByteSeq}

def opened (g : GraphUnderConstruction) (vectors : VectorFile) (path : String) (topLevel : ℕ)
    (l : GraphLayout) (bytes : ByteSeq) : HnswGraph := ⟨bytes, path, g.headerOf vectors topLevel, l⟩

theorem Built.inRange (h : g.Built vectors) (htop : g.TopAt topLevel) :
    (g.headerOf vectors topLevel).InRange := by
  have hupper := h.upper.2
  rw [maxLinksLimit] at hupper
  have hlevel0 := h.level0
  have hcount := h.count
  have hentry := h.entry
  have hslots := htop.slots
  rw [noUpperSlots] at hslots
  have hid := h.fileId
  have hdims := h.dims
  refine ⟨?_, ?_, ?_, ?_, ?_, ?_, ?_, ?_⟩
  · show vectors.fileId < 256 ^ 8
    omega
  · show g.nodeCount < 256 ^ 4
    omega
  · show vectors.dims < 256 ^ 4
    omega
  · show g.maxLinksUpper < 256 ^ 2
    omega
  · show g.maxLinksLevel0 < 256 ^ 2
    omega
  · show g.entryNode < 256 ^ 4
    omega
  · exact htop.level_lt topLevel (mem_of_getElem? htop.entry)
  · show g.nodeLevels.sum < 256 ^ 4
    omega

theorem Built.validate_headerOf (h : g.Built vectors) (htop : g.TopAt topLevel) :
    (g.headerOf vectors topLevel).validate = none := by
  have hentry := h.entry
  have hnodes : g.nodeCount ≠ 0 := by omega
  exact validate_eq_none h.upper h.level0 hnodes hentry htop.limit

theorem Built.mapped_eq (h : g.Built vectors) (htop : g.TopAt topLevel) (path : String)
    (hl : new (g.headerOf vectors topLevel) = some l)
    (hbytes : g.Assembled (g.headerOf vectors topLevel) l starts bytes) :
    mapped path bytes vectors true = .ok (g.opened vectors path topLevel l bytes) := by
  obtain ⟨rest, hrest⟩ := hbytes.header
  have hread : readFrom path bytes = .ok (g.headerOf vectors topLevel) := by
    rw [hrest]
    exact readFrom_writeTo (h.inRange htop) (h.validate_headerOf htop) path rest
  have hid : (g.headerOf vectors topLevel).vectorFileId = vectors.fileId := rfl
  have hlen : (g.headerOf vectors topLevel).nodeCount = vectors.len := h.len.symm
  have hdims : (g.headerOf vectors topLevel).dims = vectors.dims := rfl
  rw [mapped, hread, ok_bind, if_neg (not_not.2 hid),
    if_neg (not_or.2 ⟨not_not.2 hlen, not_not.2 hdims⟩)]
  simp only [hl, hbytes.length]
  rw [if_neg (not_not.2 rfl)]
  rfl

variable (path : String)

variable {n level : ℕ}

theorem Assembled.levelOf (h : g.Assembled (g.headerOf vectors topLevel) l starts bytes)
    (htop : g.TopAt topLevel) (hn : g.nodeLevels[n]? = some level) :
    (g.opened vectors path topLevel l bytes).levelOf n = level := by
  obtain ⟨rest, hrest⟩ := h.levels
  have hword := wordAt_piece hrest hn (htop.level_lt level (mem_of_getElem? hn))
  rwa [mul_one] at hword

theorem Assembled.startOf (h : g.Assembled (g.headerOf vectors topLevel) l starts bytes)
    {start : ℕ} (hn : starts[n]? = some start) (hstart : start < 256 ^ 4) :
    (g.opened vectors path topLevel l bytes).startOf n = start := by
  obtain ⟨rest, hrest⟩ := h.starts
  exact wordAt_piece hrest hn hstart

theorem Assembled.slotsBefore (h : g.Assembled (g.headerOf vectors topLevel) l starts bytes)
    (htop : g.TopAt topLevel) (hn : n ≤ g.nodeCount) :
    (g.opened vectors path topLevel l bytes).slotsBefore n = (g.nodeLevels.take n).sum := by
  induction n with
  | zero => rfl
  | succ n ih =>
    obtain ⟨level, hlevel⟩ : ∃ level, g.nodeLevels[n]? = some level :=
      ⟨_, getElem?_eq_getElem hn⟩
    rw [HnswGraph.slotsBefore, ih (by omega), h.levelOf path htop hlevel, take_add_one, hlevel,
      sum_append_nat]
    rfl

variable {links : List ℕ}

theorem Built.level_of_neighbours (h : g.Built vectors) {l : ℕ}
    (hlinks : g.neighbours? n l = some links) : ∃ level, g.nodeLevels[n]? = some level ∧ l ≤ level := by
  obtain ⟨lists, hlists, hl⟩ := bind_eq_some_iff.1 hlinks
  have hn : n < g.nodeLevels.length := by
    have hlt := (List.getElem?_eq_some_iff.1 hlists).1
    rwa [h.length_neighbourLists] at hlt
  refine ⟨_, getElem?_eq_getElem hn, ?_⟩
  obtain ⟨lists', hlists', hlen⟩ := h.lists_length (getElem?_eq_getElem hn)
  rw [hlists] at hlists'
  cases hlists'
  have hlt := (List.getElem?_eq_some_iff.1 hl).1
  omega

theorem Built.getElem?_upperLists (h : g.Built vectors) {l : ℕ}
    (hlinks : g.neighbours? n (l + 1) = some links) :
    g.upperLists[(g.nodeLevels.take n).sum + l]? = some links := by
  obtain ⟨lists, hlists, hl⟩ := bind_eq_some_iff.1 hlinks
  have htail : (g.neighbourLists.map tail)[n]? = some lists.tail := by
    rw [getElem?_map, hlists, map_some]
  have hlink : lists.tail[l]? = some links := by rw [getElem?_tail, hl]
  have hflatten := getElem?_flatten htail hlink
  have hlengths : ((g.neighbourLists.map tail).take n).map length = g.nodeLevels.take n := by
    rw [← h.tail_lengths, ← map_take, ← map_take, List.map_map]
    rfl
  rw [hlengths] at hflatten
  rwa [upperLists, flatMap_def]

theorem Assembled.slot (h : g.Assembled (g.headerOf vectors topLevel) l starts bytes)
    (hbuilt : g.Built vectors) (hlinked : g.WellLinked) (hfits : l.Fits (g.headerOf vectors topLevel))
    (hlinks : g.neighbours? n level = some links)
    (hstart : level ≠ 0 → (g.opened vectors path topLevel l bytes).startOf n = (g.nodeLevels.take n).sum) :
    ∃ rest, bytes.drop ((g.opened vectors path topLevel l bytes).slotAt n level) =
      writeSlot (g.maxLinksAt level) links ++ rest := by
  cases level with
  | zero =>
    have hget : g.level0Lists[n]? = some links := by
      obtain ⟨lists, hlists, hl⟩ := bind_eq_some_iff.1 hlinks
      rw [level0Lists, getElem?_map, hlists, map_some, ← hl]
      cases lists with
      | nil => cases hl
      | cons first lists => rfl
    obtain ⟨rest, hrest⟩ := h.level0
    have hlen : ∀ links ∈ g.level0Lists, (writeSlot g.maxLinksLevel0 links).length = l.level0SlotLength := by
      intro links hmem
      rw [length_writeSlot (hlinked.level0_bound links hmem), hfits.slot0]
      rfl
    exact drop_piece hrest hlen hget
  | succ level =>
    obtain ⟨rest, hrest⟩ := h.upper
    have hlen : ∀ links ∈ g.upperLists, (writeSlot g.maxLinksUpper links).length = l.upperSlotLength := by
      intro links hmem
      rw [length_writeSlot (hlinked.upper_bound links hmem), hfits.slotUpper]
      rfl
    obtain ⟨rest', hrest'⟩ := drop_piece hrest hlen (hbuilt.getElem?_upperLists hlinks)
    refine ⟨rest', ?_⟩
    rw [slotAt, if_neg (succ_ne_zero level), hstart (succ_ne_zero level)]
    exact hrest'

theorem Assembled.list (h : g.Assembled (g.headerOf vectors topLevel) l starts bytes)
    (hbuilt : g.Built vectors) (hlinked : g.WellLinked) (hfits : l.Fits (g.headerOf vectors topLevel))
    (hlinks : g.neighbours? n level = some links)
    (hstart : level ≠ 0 → (g.opened vectors path topLevel l bytes).startOf n = (g.nodeLevels.take n).sum) :
    (g.opened vectors path topLevel l bytes).lengthOf n level = links.length ∧
      (g.opened vectors path topLevel l bytes).linksOf n level = links := by
  obtain ⟨rest, hrest⟩ := h.slot path hbuilt hlinked hfits hlinks hstart
  obtain ⟨hbound, hnodes⟩ := hlinked n level links hlinks
  have hupper := hbuilt.upper.2
  rw [maxLinksLimit] at hupper
  have hlevel0 := hbuilt.level0
  have hmax : g.maxLinksAt level ≤ 256 := by
    rw [maxLinksAt]
    split_ifs
    · omega
    · omega
  have hlinks' : ∀ m ∈ links, m < 256 ^ 4 := by
    intro m hm
    obtain ⟨-, level', hlevel', -⟩ := hnodes m hm
    have hlt : m < g.nodeCount := (List.getElem?_eq_some_iff.1 hlevel').1
    have hcount := hbuilt.count
    omega
  obtain ⟨hlength, hwords⟩ := words_writeSlot hrest (by omega) hlinks'
  refine ⟨hlength, ?_⟩
  rw [linksOf, lengthOf]
  have hlength' : wordAt 4 (g.opened vectors path topLevel l bytes).bytes
      ((g.opened vectors path topLevel l bytes).slotAt n level) = links.length := hlength
  rw [hlength']
  exact hwords

theorem Assembled.good (h : g.Assembled (g.headerOf vectors topLevel) l starts bytes)
    (hbuilt : g.Built vectors) (hlinked : g.WellLinked) (hfits : l.Fits (g.headerOf vectors topLevel))
    (htop : g.TopAt topLevel) (hstarts : ∀ n level, g.nodeLevels[n]? = some level →
      starts[n]? = some (if level = 0 then noUpperSlots else (g.nodeLevels.take n).sum)) :
    (g.opened vectors path topLevel l bytes).Good := by
  have hsum (n : ℕ) : (g.nodeLevels.take n).sum ≤ g.nodeLevels.sum := by
    conv_rhs => rw [← take_append_drop n g.nodeLevels, sum_append_nat]
    exact le_add_right _ _
  refine ⟨h.levelOf path htop htop.entry, fun n hn => ?_, ?_⟩
  · obtain ⟨level, hlevel⟩ : ∃ level, g.nodeLevels[n]? = some level := ⟨_, getElem?_eq_getElem hn⟩
    have hlevelOf := h.levelOf path htop hlevel
    have hbefore := h.slotsBefore path htop (le_of_lt hn)
    have hafter := h.slotsBefore path htop hn
    rw [HnswGraph.slotsBefore, hbefore, hlevelOf] at hafter
    have hslots := htop.slots
    have hle := hsum n
    have hstart : (g.opened vectors path topLevel l bytes).startOf n =
        if level = 0 then noUpperSlots else (g.nodeLevels.take n).sum := by
      refine h.startOf path (hstarts n level hlevel) ?_
      rw [noUpperSlots] at hslots ⊢
      split_ifs
      · omega
      · omega
    refine ⟨?_, ?_, ?_, fun k hk => ?_⟩
    · rw [hlevelOf]
      exact htop.greatest level (mem_of_getElem? hlevel)
    · rw [hlevelOf, hbefore, hstart]
    · rw [hlevelOf, hbefore, hafter]
      exact hsum (n + 1)
    · rw [hlevelOf] at hk
      obtain ⟨lists, hlists, hlen⟩ := hbuilt.lists_length hlevel
      obtain ⟨links, hlinks⟩ : ∃ links, lists[k]? = some links :=
        ⟨_, getElem?_eq_getElem (by omega)⟩
      have hget : g.neighbours? n k = some links := by
        rw [neighbours?, hlists]
        exact hlinks
      have hstart' : k ≠ 0 → (g.opened vectors path topLevel l bytes).startOf n =
          (g.nodeLevels.take n).sum := by
        intro hk₀
        rw [hstart, if_neg (by omega)]
      obtain ⟨hlength, hread⟩ := h.list path hbuilt hlinked hfits hget hstart'
      obtain ⟨hbound, hnodes⟩ := hlinked n k links hget
      constructor
      · rw [hlength]
        exact hbound
      · intro m hm
        rw [hread] at hm
        obtain ⟨hne, level', hlevel', hkm⟩ := hnodes m hm
        refine ⟨(List.getElem?_eq_some_iff.1 hlevel').1, hne, ?_⟩
        rwa [h.levelOf path htop hlevel']
  · have hall := h.slotsBefore path htop le_rfl
    rwa [nodeCount, take_length] at hall

end Opened

theorem Built.opens {topLevel : ℕ} (hbuilt : g.Built vectors) (htop : g.TopAt topLevel) (hlinked : g.WellLinked)
    (tmpPath path : String) : ∃ bytes, g.write tmpPath vectors.fileId vectors.dims = .ok bytes ∧
      ∃ graph, openGraph path bytes vectors true = .ok graph := by
  obtain ⟨bytes, l, starts, hwrite, hl, hstarts, hassembled⟩ := hbuilt.write_eq hlinked htop tmpPath
  exact ⟨bytes, hwrite, _, openGraph_eq_ok.2 ⟨hbuilt.mapped_eq htop path hl hassembled,
    hassembled.good path hbuilt hlinked (new_fits hl) htop hstarts⟩⟩

/-- A graph as the builder leaves it is written, and what opens is the same graph. -/
theorem write_openGraph {topLevel : ℕ} (hbuilt : g.Built vectors) (htop : g.TopAt topLevel)
    (hlinked : g.WellLinked) (tmpPath path : String) :
    ∃ bytes, g.write tmpPath vectors.fileId vectors.dims = .ok bytes ∧
      ∃ graph, openGraph path bytes vectors true = .ok graph ∧
        graph.header.entryNode = g.entryNode ∧ graph.nodeCount = g.nodeCount ∧
        (∀ n level, g.nodeLevels[n]? = some level → graph.nodeLevel n = .ok level) ∧
        ∀ n level links, g.neighbours? n level = some links → graph.neighbourList n level = .ok links := by
  obtain ⟨bytes, l, starts, hwrite, hl, hstarts, hassembled⟩ := hbuilt.write_eq hlinked htop tmpPath
  have hfits := new_fits hl
  have hmapped := hbuilt.mapped_eq htop path hl hassembled
  have hgood := hassembled.good path hbuilt hlinked hfits htop hstarts
  have hok := mapped_eq_ok hmapped
  refine ⟨bytes, hwrite, g.opened vectors path topLevel l bytes,
    openGraph_eq_ok.2 ⟨hmapped, hgood⟩, rfl, rfl, fun n level hn => ?_,
    fun n level links hlinks => ?_⟩
  · have hlt : n < g.nodeCount := (List.getElem?_eq_some_iff.1 hn).1
    rw [hok.nodeLevel hlt, hassembled.levelOf path htop hn]
  · obtain ⟨level', hlevel', hle⟩ := hbuilt.level_of_neighbours hlinks
    have hlt : n < g.nodeCount := (List.getElem?_eq_some_iff.1 hlevel').1
    have hlevelOf := hassembled.levelOf path htop hlevel'
    have hread := (hgood.list hok hlt (hle.trans_eq hlevelOf.symm)).1
    have hstart : level ≠ 0 → (g.opened vectors path topLevel l bytes).startOf n =
        (g.nodeLevels.take n).sum := by
      intro hlevel
      have hstart := (hgood.nodes n hlt).start
      rwa [hlevelOf, if_neg (by omega), hassembled.slotsBefore path htop (le_of_lt hlt)] at hstart
    rw [hread, (hassembled.list path hbuilt hlinked hfits hlinks hstart).2]

def pair : GraphUnderConstruction := ⟨2, 4, 1, [0, 1], [[[1]], [[0], []]]⟩

theorem pair_built {id dims : ℕ} (hid : id < 2 ^ 64) (hdims : dims < 2 ^ 32) : pair.Built ⟨id, 2, dims⟩ :=
  ⟨hid, hdims, rfl, by decide, by decide, by decide, rfl, rfl⟩

theorem pair_topAt : pair.TopAt 1 := ⟨rfl, by decide, by decide, by decide⟩

theorem pair_wellLinked : pair.WellLinked := by
  intro n level links hlinks
  obtain ⟨lists, hlists, hl⟩ := bind_eq_some_iff.1 hlinks
  obtain _ | _ | n := n
  · obtain rfl : [[1]] = lists := some_inj.1 hlists
    obtain _ | level := level
    · obtain rfl : [1] = links := some_inj.1 hl
      refine ⟨by decide, fun m hm => ?_⟩
      rw [mem_singleton.1 hm]
      exact ⟨by decide, 1, rfl, by decide⟩
    · cases hl
  · obtain rfl : [[0], []] = lists := some_inj.1 hlists
    obtain _ | _ | level := level
    · obtain rfl : [0] = links := some_inj.1 hl
      refine ⟨by decide, fun m hm => ?_⟩
      rw [mem_singleton.1 hm]
      exact ⟨by decide, 0, rfl, by decide⟩
    · obtain rfl : [] = links := some_inj.1 hl
      exact ⟨by decide, fun m hm => by cases hm⟩
    · cases hl
  · cases hlists

theorem write_openGraph_pair :
    ∃ bytes, pair.write "seg.hnsw.tmp" 7 3 = .ok bytes ∧
      ∃ graph, openGraph "seg.hnsw" bytes ⟨7, 2, 3⟩ true = .ok graph ∧
        graph.header.entryNode = 1 ∧ graph.nodeCount = 2 ∧
        (∀ n level, pair.nodeLevels[n]? = some level → graph.nodeLevel n = .ok level) ∧
        ∀ n level links, pair.neighbours? n level = some links →
          graph.neighbourList n level = .ok links :=
  write_openGraph (pair_built (by decide) (by decide)) pair_topAt pair_wellLinked "seg.hnsw.tmp" "seg.hnsw"

end GraphUnderConstruction

/-
The file of a vector graph.

Behind a header of 64 bytes stand the highest level of each node, the first upper slot of
each node, one slot for the list of each node on level 0 and one for each list on the
levels above; each section begins at a multiple of 64.

A vector file is its id and its numbers of rows and dimensions.  Offsets are machine
words of 64 bits; a read past the end of the file or a sum that overflows is a fault.
-/
import Riets.FixedSlots
import Riets.GraphBuilder

open FixedSlots List

def sectionAlignment : ℕ := 64

def hnswMagic : ByteSeq := [67, 76, 72, 78, 83, 87, 48, 50]

def hnswVersion : ℕ := 2

def maxLinksLimit : ℕ := 128

def maxLevel : ℕ := 16

def noUpperSlots : ℕ := 2 ^ 32 - 1

def headerFixedLength : ℕ := 8 + 4 + 4 + 8 + 4 + 4 + 2 + 2 + 4 + 1 + 3 + 4

def headerLength : ℕ := 64

def usizeLimit : ℕ := 2 ^ 64

def corrupt (path message : String) : String := "hnsw file " ++ path ++ ": " ++ message

structure VectorFile where
  fileId : ℕ
  len : ℕ
  dims : ℕ
  deriving DecidableEq

structure GraphHeader where
  vectorFileId : ℕ
  nodeCount : ℕ
  dims : ℕ
  maxLinksUpper : ℕ
  maxLinksLevel0 : ℕ
  entryNode : ℕ
  topLevel : ℕ
  upperSlotCount : ℕ
  deriving DecidableEq

namespace GraphHeader

def writeTo (h : GraphHeader) : ByteSeq :=
  hnswMagic ++ leBytes 4 hnswVersion ++ leBytes 4 0 ++ leBytes 8 h.vectorFileId ++
    leBytes 4 h.nodeCount ++ leBytes 4 h.dims ++ leBytes 2 h.maxLinksUpper ++
    leBytes 2 h.maxLinksLevel0 ++ leBytes 4 h.entryNode ++ (leBytes 1 h.topLevel ++ [0, 0, 0]) ++
    leBytes 4 h.upperSlotCount ++ replicate (headerLength - headerFixedLength) 0

/-- `validate`, with the message of the check that fails. -/
def validate (h : GraphHeader) : Option String :=
  if ¬(2 ≤ h.maxLinksUpper ∧ h.maxLinksUpper ≤ maxLinksLimit) then
    some ("max_links_upper " ++ toString h.maxLinksUpper ++ " outside 2..=" ++ toString maxLinksLimit)
  else if h.maxLinksLevel0 ≠ h.maxLinksUpper * 2 then
    some ("max_links_level0 " ++ toString h.maxLinksLevel0 ++ " is not twice max_links_upper " ++
      toString h.maxLinksUpper)
  else if h.nodeCount = 0 then some "graph has no nodes"
  else if h.nodeCount ≤ h.entryNode then
    some ("entry node " ++ toString h.entryNode ++ " outside " ++ toString h.nodeCount ++ " nodes")
  else if maxLevel < h.topLevel then
    some ("top level " ++ toString h.topLevel ++ " above " ++ toString maxLevel)
  else none

def fields (bytes : ByteSeq) : Fallible GraphHeader := do
  let vectorFileId ← readWord 8 bytes 16
  let nodeCount ← readWord 4 bytes 24
  let dims ← readWord 4 bytes 28
  let maxLinksUpper ← readWord 2 bytes 32
  let maxLinksLevel0 ← readWord 2 bytes 34
  let entryNode ← readWord 4 bytes 36
  let topLevel ← readWord 1 bytes 40
  let upperSlotCount ← readWord 4 bytes 44
  return ⟨vectorFileId, nodeCount, dims, maxLinksUpper, maxLinksLevel0, entryNode, topLevel,
    upperSlotCount⟩

def readFrom (path : String) (bytes : ByteSeq) : Fallible GraphHeader :=
  if bytes.length < headerLength then .err (corrupt path "shorter than its header")
  else do
    let magic ← Fallible.slice bytes 0 8
    if magic ≠ hnswMagic then .err (corrupt path "bad magic")
    else do
      let version ← readWord 4 bytes 8
      if version ≠ hnswVersion then
        .err (corrupt path ("unsupported version " ++ toString version))
      else do
        let header ← fields bytes
        match header.validate with
        | some message => .err (corrupt path message)
        | none => .ok header

end GraphHeader

structure GraphLayout where
  nodeLevelsOffset : ℕ
  upperSlotStartsOffset : ℕ
  level0ListsOffset : ℕ
  upperListsOffset : ℕ
  totalLength : ℕ
  level0SlotLength : ℕ
  upperSlotLength : ℕ
  deriving DecidableEq

def checkedAdd (a b : ℕ) : Option ℕ := if a + b < usizeLimit then some (a + b) else none

def checkedMul (a b : ℕ) : Option ℕ := if a * b < usizeLimit then some (a * b) else none

def nextSection (offset : ℕ) : Option ℕ :=
  if offset % sectionAlignment = 0 then some offset
  else checkedAdd offset (sectionAlignment - offset % sectionAlignment)

namespace GraphLayout

def new (h : GraphHeader) : Option GraphLayout := do
  let level0SlotLength := (1 + h.maxLinksLevel0) * 4
  let upperSlotLength := (1 + h.maxLinksUpper) * 4
  let nodeLevelsOffset := headerLength
  let levelsEnd ← checkedAdd nodeLevelsOffset h.nodeCount
  let upperSlotStartsOffset ← nextSection levelsEnd
  let startsLength ← checkedMul h.nodeCount 4
  let startsEnd ← checkedAdd upperSlotStartsOffset startsLength
  let level0ListsOffset ← nextSection startsEnd
  let level0Length ← checkedMul h.nodeCount level0SlotLength
  let level0End ← checkedAdd level0ListsOffset level0Length
  let upperListsOffset ← nextSection level0End
  let upperLength ← checkedMul h.upperSlotCount upperSlotLength
  let totalLength ← checkedAdd upperListsOffset upperLength
  some
    { nodeLevelsOffset, upperSlotStartsOffset, level0ListsOffset, upperListsOffset, totalLength,
      level0SlotLength, upperSlotLength }

def slotOffset (l : GraphLayout) (node level upperSlotStart : ℕ) : Fallible ℕ :=
  if level = 0 then
    let before := node * l.level0SlotLength
    if before < usizeLimit then Fallible.add usizeLimit l.level0ListsOffset before else .fault
  else do
    let slot ← Fallible.add usizeLimit upperSlotStart (level - 1)
    let before := slot * l.upperSlotLength
    if before < usizeLimit then Fallible.add usizeLimit l.upperListsOffset before else .fault

end GraphLayout

/-! ### The graph -/

/-- `HnswGraph`: the mapped bytes with the header and where the sections are. -/
structure HnswGraph where
  bytes : ByteSeq
  path : String
  header : GraphHeader
  layout : GraphLayout
  deriving DecidableEq

namespace HnswGraph

variable (g : HnswGraph)

def nodeCount : ℕ := g.header.nodeCount

def nodeLevel (node : ℕ) : Fallible ℕ := do
  let offset ← Fallible.add usizeLimit g.layout.nodeLevelsOffset node
  readWord 1 g.bytes offset

def upperSlotStart (node : ℕ) : Fallible ℕ := do
  let offset ← Fallible.add usizeLimit g.layout.upperSlotStartsOffset (node * 4)
  readWord 4 g.bytes offset

def maxLinksAt (level : ℕ) : ℕ :=
  if level = 0 then g.header.maxLinksLevel0 else g.header.maxLinksUpper

def neighbourList (node level : ℕ) : Fallible (List ℕ) := do
  let start ← g.upperSlotStart node
  let offset ← g.layout.slotOffset node level start
  let stored ← readWord 4 g.bytes offset
  let length := min stored (g.maxLinksAt level)
  let first ← Fallible.add usizeLimit offset 4
  let past ← Fallible.add usizeLimit first (length * 4)
  let links ← Fallible.slice g.bytes first past
  return words 4 length links

def checkLink (node level linked : ℕ) : Fallible Unit :=
  let invalid := corrupt g.path ("node " ++ toString node ++ " links to invalid node " ++
    toString linked ++ " on level " ++ toString level)
  if g.nodeCount ≤ linked ∨ linked = node then .err invalid
  else do
    let linkedLevel ← g.nodeLevel linked
    if linkedLevel < level then .err invalid else .ok ()

def checkList (node slotStart level : ℕ) : Fallible Unit := do
  let offset ← g.layout.slotOffset node level slotStart
  let length ← readWord 4 g.bytes offset
  if g.maxLinksAt level < length then
    .err (corrupt g.path ("node " ++ toString node ++ " has " ++ toString length ++ " links"))
  else do
    let links ← g.neighbourList node level
    each (g.checkLink node level) links

def checkSlotStart (node level slotStart nextUpperSlot : ℕ) : Fallible ℕ :=
  if level = 0 then
    if slotStart ≠ noUpperSlots then
      .err (corrupt g.path ("level-0 node " ++ toString node ++ " owns upper slots"))
    else .ok nextUpperSlot
  else if slotStart ≠ nextUpperSlot then
    .err (corrupt g.path ("bad upper slot start for node " ++ toString node))
  else Fallible.add usizeLimit nextUpperSlot level

def checkNode (nextUpperSlot node : ℕ) : Fallible ℕ := do
  let level ← g.nodeLevel node
  if g.header.topLevel < level then
    .err (corrupt g.path ("node " ++ toString node ++ " above the top level"))
  else do
    let slotStart ← g.upperSlotStart node
    let next ← g.checkSlotStart node level slotStart nextUpperSlot
    each (g.checkList node slotStart) (range (level + 1))
    return next

def validateLinks : Fallible Unit := do
  let entryLevel ← g.nodeLevel g.header.entryNode
  if entryLevel ≠ g.header.topLevel then
    .err (corrupt g.path "entry node is not on the top level")
  else do
    let nextUpperSlot ← (range g.nodeCount).foldlM g.checkNode 0
    if nextUpperSlot ≠ g.header.upperSlotCount then
      .err (corrupt g.path "upper slot count does not match node levels")
    else .ok ()

/-- The first part of `open`: the header and the layout, checked against the vector file and the
length of the mapping. -/
def mapped (path : String) (bytes : ByteSeq) (vectors : VectorFile) (aligned : Bool) :
    Fallible HnswGraph := do
  let header ← GraphHeader.readFrom path bytes
  if header.vectorFileId ≠ vectors.fileId then
    .err (corrupt path "built from a different vector file")
  else if header.nodeCount ≠ vectors.len ∨ header.dims ≠ vectors.dims then
    .err (corrupt path (toString header.nodeCount ++ " nodes of " ++ toString header.dims ++
      " dims, vector file has " ++ toString vectors.len ++ " rows of " ++ toString vectors.dims ++
      " dims"))
  else
    match GraphLayout.new header with
    | none => .err (corrupt path "size overflows usize")
    | some layout =>
      if layout.totalLength ≠ bytes.length then
        .err (corrupt path ("length " ++ toString bytes.length ++ " does not match its header"))
      else if !aligned then .err (corrupt path "mapping is not aligned")
      else .ok ⟨bytes, path, header, layout⟩

/-- `HnswGraph::open` on the bytes of a file, mapped at an address that is a multiple of 4 or not. -/
def openGraph (path : String) (bytes : ByteSeq) (vectors : VectorFile) (aligned : Bool) :
    Fallible HnswGraph := do
  let g ← mapped path bytes vectors aligned
  g.validateLinks
  return g

end HnswGraph

namespace GraphUnderConstruction

def zeroPadding (offset stop : ℕ) : ByteSeq := replicate (stop - offset) 0

def writeSlot (maxLinks : ℕ) (links : List ℕ) : ByteSeq :=
  leBytes 4 links.length ++ links.flatMap (leBytes 4) ++
    (replicate (maxLinks - links.length) 0).flatMap (leBytes 4)

def upperSlotStarts : List ℕ → ℕ → Fallible (List ℕ × ℕ)
  | [], count => .ok ([], count)
  | level :: levels, count =>
    if level = 0 then do
      let (starts, total) ← upperSlotStarts levels count
      return (noUpperSlots :: starts, total)
    else if count + level < noUpperSlots then do
      let (starts, total) ← upperSlotStarts levels (count + level)
      return (count :: starts, total)
    else .err "too many upper level slots"

/-- The bytes of the sections, with the upper slot starts and the lists of level 0. -/
def sections (g : GraphUnderConstruction) (header : GraphHeader) (layout : GraphLayout)
    (starts : List ℕ) (level0Lists : List (List ℕ)) : ByteSeq :=
  header.writeTo ++
    (g.nodeLevels.flatMap (leBytes 1) ++
      (zeroPadding (layout.nodeLevelsOffset + g.nodeCount) layout.upperSlotStartsOffset ++
        (starts.flatMap (leBytes 4) ++
          (zeroPadding (layout.upperSlotStartsOffset + g.nodeCount * 4) layout.level0ListsOffset ++
            (level0Lists.flatMap (writeSlot g.maxLinksLevel0) ++
              (zeroPadding (layout.level0ListsOffset + g.nodeCount * layout.level0SlotLength)
                  layout.upperListsOffset ++
                g.neighbourLists.flatMap fun lists =>
                  lists.tail.flatMap (writeSlot g.maxLinksUpper)))))))

/-- `write`: the bytes of the file, assembled at `tmpPath`. -/
def write (g : GraphUnderConstruction) (tmpPath : String) (vectorFileId dims : ℕ) :
    Fallible ByteSeq := do
  let (starts, upperSlotCount) ← upperSlotStarts g.nodeLevels 0
  if 2 ^ 32 ≤ dims then .err "dims exceed u32"
  else do
    let topLevel ← Fallible.index g.nodeLevels g.entryNode
    let header : GraphHeader :=
      ⟨vectorFileId, g.nodeCount % 2 ^ 32, dims, g.maxLinksUpper % 2 ^ 16,
        g.maxLinksLevel0 % 2 ^ 16, g.entryNode, topLevel, upperSlotCount⟩
    match GraphLayout.new header with
    | none => .err "graph file size overflows usize"
    | some layout => do
      let level0Lists ← Fallible.collect (g.neighbourLists.map (Fallible.index · 0))
      let bytes := g.sections header layout starts level0Lists
      if bytes.length ≠ layout.totalLength then
        .err ("graph file " ++ tmpPath ++ " assembled to " ++ toString bytes.length ++
          " bytes, expected " ++ toString layout.totalLength)
      else .ok bytes

end GraphUnderConstruction

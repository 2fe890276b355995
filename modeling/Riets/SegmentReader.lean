/-
The reader of segment files.

A segment file is a header, the posting bytes, five sections and a footer that says
where the sections are.  Every number in a file is untrusted, so each slice and each
sum of the reader is written with the bounds it has in the source.
-/
import Riets.Varint
import Riets.RecordFormat

open Fallible Cursor Keyed

/-! ### Term dictionaries -/

/-- An opened fst: a lookup, all its keys, and its keys from one on. -/
structure Fst where
  get : ByteSeq → Option ℕ
  stream : List (ByteSeq × ℕ)
  streamFrom : ByteSeq → List (ByteSeq × ℕ)

/-- The parsers of the fst and roaring crates, and `from_utf8_lossy`. -/
structure SegmentCodec where
  fst : ByteSeq → Except String Fst
  bitmap : ByteSeq → Except String (Finset DocId)
  lossy : ByteSeq → String

structure TermMeta where
  postingsOffset : ℕ
  postingsLen : ℕ
  docFreq : ℕ
  maxWeight : ℕ
  deriving DecidableEq

instance : Inhabited TermMeta := ⟨⟨0, 0, 0, 0⟩⟩

def termMetaLen : ℕ := 8 + 4 + 4 + 2

structure TermDict where
  map : Option Fst
  metas : List TermMeta

namespace TermDict

def empty : TermDict := ⟨none, []⟩

def fromParts (codec : SegmentCodec) (bytes : ByteSeq) (metas : List TermMeta) : Fallible TermDict :=
  if metas = [] then .ok empty
  else
    match codec.fst bytes with
    | .ok map => .ok ⟨some map, metas⟩
    | .error e => .err e

def get (dict : TermDict) (term : String) : Option TermMeta := do
  let map ← dict.map
  let ord ← map.get (utf8 term)
  dict.metas[ord]?

/-- The keys with their metas; an ord outside the array has an empty one. -/
def withMetas (codec : SegmentCodec) (dict : TermDict) (keys : List (ByteSeq × ℕ)) :
    List (String × TermMeta) :=
  keys.map fun e => (codec.lossy e.1, (dict.metas[e.2]?).getD default)

def entries (codec : SegmentCodec) (dict : TermDict) : List (String × TermMeta) :=
  match dict.map with
  | none => []
  | some map => dict.withMetas codec map.stream

def startingWith (codec : SegmentCodec) (dict : TermDict) (start : String) : List (String × TermMeta) :=
  match dict.map with
  | none => []
  | some map => dict.withMetas codec
      ((map.streamFrom (utf8 start)).takeWhile fun e => utf8 start <+: e.1)

end TermDict

/-! ### Lengths -/

inductive FieldLengths where
  /-- `u32::MAX` where the document has no such field. -/
  | dense (first : DocId) (lens : List ℕ)
  | sparse (map : SortedMap DocId ℕ)

structure DocLengths where
  fields : List (XPathId × FieldLengths)

namespace FieldLengths

def build (docs : List (DocId × ℕ)) : Fallible FieldLengths :=
  let first := ((docs.map Prod.fst).min?).getD 0
  let last := ((docs.map Prod.fst).max?).getD 0
  let span := min (last - first + 1) (2 ^ 64 - 1)
  if span ≤ min (docs.length * 4) (2 ^ 64 - 1) then do
    let lens ← docs.foldlM (fun lens e => do
      let index ← sub e.1 first
      setAt lens index e.2) (List.replicate span u32Max)
    return dense first lens
  else return sparse (SortedMap.empty.extend (fun _ len => len) docs)

def get (lengths : FieldLengths) (docId : DocId) : Option ℕ :=
  match lengths with
  | dense first lens => if docId < first then none else (lens[docId - first]?).filter fun len => len ≠ u32Max
  | sparse map => map.get? docId

def iter (lengths : FieldLengths) : Fallible (List (DocId × ℕ)) :=
  match lengths with
  | dense first lens =>
    collect ((lens.zipIdx.filter fun e => e.1 ≠ u32Max).map fun e => do
      let docId ← add (2 ^ 64) first e.2
      return (docId, e.1))
  | sparse map => return map.entries

end FieldLengths

namespace DocLengths

def byField (entries : List (DocId × XPathId × ℕ)) : SortedMap XPathId (List (DocId × ℕ)) :=
  SortedMap.empty.extend (fun docs e => docs.getD [] ++ [e])
    (entries.map fun e => (e.2.1, (e.1, e.2.2)))

def fromEntries (entries : List (DocId × XPathId × ℕ)) : Fallible DocLengths := do
  let fields ← collect ((byField entries).entries.map fun e => do
    let lengths ← FieldLengths.build e.2
    return (e.1, lengths))
  return ⟨fields⟩

def get (lengths : DocLengths) (docId : DocId) (xpath : XPathId) : Option ℕ :=
  (lengths.fields.find? fun e => e.1 = xpath).bind fun e => e.2.get docId

def iter (lengths : DocLengths) : Fallible (List (LengthKey × ℕ)) := do
  let fields ← collect (lengths.fields.map fun e => do
    let docs ← e.2.iter
    return docs.map fun d => (toLex (d.1, e.1), d.2))
  return fields.flatten

end DocLengths

def NumericKind.fromByte (byte : ℕ) : Option NumericKind :=
  if byte = 0 then some .int else if byte = 1 then some .float else none

def Bkd.fromPacked (kind : NumericKind) (points : List (BitVec 64 × DocId)) : Fallible Bkd :=
  if h : Sorted (fun p : BitVec 64 × DocId => p.1.toNat) points then .ok ⟨kind, points, h⟩
  else .err "bkd points must be sorted by packed value"

def DocValues.fromPacked (kind : NumericKind) (entries : List (DocId × BitVec 64)) : Fallible DocValues :=
  if h : Sorted Prod.fst entries then .ok ⟨kind, entries, h⟩
  else .err "doc values must be sorted by doc id"

structure StoredNumericField where
  bkd : Bkd
  docValues : DocValues

/-- `Bkd::range` with the slice it takes. -/
def Bkd.rangeSlice (b : Bkd) (lo hi : Option NumericBound) : Fallible (List DocId) :=
  let start := match lo with
    | some lo =>
      if lo.inclusive then partitionPoint (fun p => p.1 < pack lo.value) b.points
      else partitionPoint (fun p => p.1 ≤ pack lo.value) b.points
    | none => 0
  let stop := match hi with
    | some hi =>
      if hi.inclusive then partitionPoint (fun p => p.1 ≤ pack hi.value) b.points
      else partitionPoint (fun p => p.1 < pack hi.value) b.points
    | none => b.points.length
  if start ≥ stop then return []
  else do
    let points ← slice b.points start stop
    return sortDedup (points.map Prod.snd)

/-! ### Header and footer -/

def segmentMagic : ByteSeq := [66, 65, 78, 65, 78, 65, 95, 52]

def segmentVersion : ℕ := 12

def headerLen : ℕ := 8 + 4

def footerLen : ℕ := 8 + 8 + 8 + 8 + 8 + 8 + 4 + 8 + 8 + 8 + 8 + 8 + 8

@[ext] structure SegmentFooter where
  docLengthsOffset : ℕ
  docLengthsLen : ℕ
  dictionaryOffset : ℕ
  dictionaryLen : ℕ
  numericFieldsOffset : ℕ
  numericFieldsLen : ℕ
  arrayRowIndexOffset : ℕ
  arrayRowIndexLen : ℕ
  termCount : ℕ
  minDocId : DocId
  maxDocId : DocId
  boolFieldsOffset : ℕ
  boolFieldsLen : ℕ
  deriving DecidableEq

/-- `read_u32_at`, `read_u64_at`. -/
def readUIntAt (w : ℕ) (bytes : ByteSeq) (offset : ℕ) : Fallible ℕ := do
  let stop ← add (2 ^ 64) offset w
  let piece ← slice bytes offset stop
  return leNat piece

def validateHeader (bytes : ByteSeq) : Fallible Unit :=
  if bytes.length < 12 + footerLen then .err "segment too small"
  else do
    let magic ← slice bytes 0 8
    if magic ≠ segmentMagic then .err "bad segment magic"
    else do
      let version ← readUIntAt 4 bytes 8
      check "unsupported segment version" (version = segmentVersion)

def readFooter (bytes : ByteSeq) : Fallible SegmentFooter := do
  let start ← sub bytes.length footerLen
  let field (w k : ℕ) : Fallible ℕ := do
    let offset ← add (2 ^ 64) start k
    readUIntAt w bytes offset
  return {
    docLengthsOffset := ← field 8 0
    docLengthsLen := ← field 8 8
    dictionaryOffset := ← field 8 16
    dictionaryLen := ← field 8 24
    numericFieldsOffset := ← field 8 32
    numericFieldsLen := ← field 8 40
    termCount := ← field 4 48
    minDocId := ← field 8 52
    maxDocId := ← field 8 60
    boolFieldsOffset := ← field 8 84
    boolFieldsLen := ← field 8 92
    arrayRowIndexOffset := ← field 8 68
    arrayRowIndexLen := ← field 8 76 }

def validateStart (offset : ℕ) : Option String → Fallible Unit
  | some early => check early (headerLen ≤ offset)
  | none => .ok ()

def validateSection (bytes : ByteSeq) (offset len : ℕ) (overflow : String) (early : Option String)
    (outside : String) : Fallible Unit := do
  check overflow (offset + len < 2 ^ 64)
  validateStart offset early
  let limit ← sub bytes.length footerLen
  check outside (offset + len ≤ limit)

def validateFooter (bytes : ByteSeq) (footer : SegmentFooter) : Fallible Unit := do
  validateSection bytes footer.dictionaryOffset footer.dictionaryLen "dictionary offset overflow"
    (some "dictionary starts before segment body") "dictionary outside segment bounds"
  validateSection bytes footer.numericFieldsOffset footer.numericFieldsLen
    "numeric fields offset overflow" (some "numeric fields start before segment body")
    "numeric fields outside segment bounds"
  validateSection bytes footer.boolFieldsOffset footer.boolFieldsLen "bool fields offset overflow" none
    "bool fields outside segment bounds"
  validateSection bytes footer.arrayRowIndexOffset footer.arrayRowIndexLen
    "array row index offset overflow" none "array row index outside segment bounds"
  check "empty dictionary has invalid length" ¬(footer.termCount = 0 ∧ footer.dictionaryLen ≠ 4)

/-! ### Sections -/

def readSection (bytes : ByteSeq) (limit : Fallible ℕ) (offset len : ℕ) (overflow outside : String) :
    Fallible ByteSeq := do
  check overflow (offset + len < 2 ^ 64)
  let limit ← limit
  check outside (offset + len ≤ limit)
  slice bytes offset (offset + len)

def runReader {α : Type} (r : CursorReader α) (bytes : ByteSeq) : Fallible α := do
  let (a, _) ← r (start bytes)
  return a

def readPair : CursorReader (ℕ × ℕ) := do
  let a ← readUInt 8
  let b ← readUInt 8
  return (a, b)

def lengthEntry : CursorReader (DocId × XPathId × ℕ) := do
  let docId ← readUInt 8
  let xpath ← readUInt 4
  let len ← readUInt 4
  return (docId, xpath, len)

def lengthEntries : CursorReader (List (DocId × XPathId × ℕ)) := do
  let count ← readUInt 4
  times count lengthEntry

def readDocLengths (bytes : ByteSeq) (footer : SegmentFooter) : Fallible DocLengths := do
  let bytes ← readSection bytes (sub bytes.length footerLen) footer.docLengthsOffset footer.docLengthsLen
    "doc lengths offset overflow" "doc lengths outside segment bounds"
  let entries ← runReader lengthEntries bytes
  DocLengths.fromEntries entries

def termMeta : CursorReader TermMeta := do
  let postingsOffset ← readUInt 8
  let postingsLen ← readUInt 4
  let docFreq ← readUInt 4
  let maxWeight ← readUInt 2
  return ⟨postingsOffset, postingsLen, docFreq, maxWeight⟩

/-- One field of the dictionary; a count of 32 bits times the length of a meta does
not saturate. -/
def dictionaryField (codec : SegmentCodec) : CursorReader (XPathId × TermDict) := do
  let xpath ← readUInt 4
  let fieldTerms ← readUInt 4
  let fstLen ← readUInt 8
  let fstBytes ← take fstLen
  let left ← remaining
  lift (check "dictionary term count exceeds section size" (fieldTerms * termMetaLen ≤ left))
  let metas ← times fieldTerms termMeta
  let dict ← lift (TermDict.fromParts codec fstBytes metas)
  return (xpath, dict)

def dictionaryFields (codec : SegmentCodec) (len : ℕ) : CursorReader (List (XPathId × TermDict)) := do
  let fieldCount ← readUInt 4
  lift (check "dictionary field count exceeds section size" (fieldCount * 16 ≤ len))
  times fieldCount (dictionaryField codec)

def byXPath {α : Type} (fields : List (XPathId × α)) : SortedMap XPathId α :=
  SortedMap.empty.extend (fun _ a => a) fields

def readTermDictionary (codec : SegmentCodec) (bytes : ByteSeq) (footer : SegmentFooter) :
    Fallible (SortedMap XPathId TermDict) := do
  let bytes ← readSection bytes (sub bytes.length footerLen) footer.dictionaryOffset footer.dictionaryLen
    "dictionary offset overflow" "dictionary outside segment bounds"
  let fields ← runReader (dictionaryFields codec footer.dictionaryLen) bytes
  check "dictionary term count mismatch"
    ((fields.map fun f => f.2.metas.length).sum = footer.termCount)
  return byXPath fields

def numericField : CursorReader (XPathId × StoredNumericField) := do
  let xpath ← readUInt 4
  let byte ← readUInt 1
  let kind ← lift (ofOption "unknown numeric field kind" (NumericKind.fromByte byte))
  let pointCount ← readUInt 4
  let points ← times pointCount readPair
  let entryCount ← readUInt 4
  let entries ← times entryCount readPair
  let bkd ← lift (Bkd.fromPacked kind (points.map fun p => (BitVec.ofNat 64 p.1, p.2)))
  let docValues ← lift (DocValues.fromPacked kind (entries.map fun e => (e.1, BitVec.ofNat 64 e.2)))
  return (xpath, ⟨bkd, docValues⟩)

def numericFieldList : CursorReader (List (XPathId × StoredNumericField)) := do
  let xpathCount ← readUInt 4
  times xpathCount numericField

def readNumericFields (bytes : ByteSeq) (footer : SegmentFooter) :
    Fallible (SortedMap XPathId StoredNumericField) := do
  let bytes ← readSection bytes (sub bytes.length footerLen) footer.numericFieldsOffset
    footer.numericFieldsLen "numeric fields offset overflow" "numeric fields outside segment bounds"
  let fields ← runReader numericFieldList bytes
  return byXPath fields

def bitmapField (codec : SegmentCodec) : CursorReader (Finset DocId) := do
  let len ← readUInt 8
  let bytes ← take len
  lift (match codec.bitmap bytes with
    | .ok ids => .ok ids
    | .error e => .err e)

def boolField (codec : SegmentCodec) : CursorReader (XPathId × BoolField) := do
  let xpath ← readUInt 4
  let trueIds ← bitmapField codec
  let falseIds ← bitmapField codec
  return (xpath, ⟨trueIds, falseIds⟩)

def boolFieldList (codec : SegmentCodec) : CursorReader (List (XPathId × BoolField)) := do
  let count ← readUInt 4
  times count (boolField codec)

def readBoolPoints (codec : SegmentCodec) (bytes : ByteSeq) (footer : SegmentFooter) :
    Fallible (SortedMap XPathId BoolField) := do
  let bytes ← readSection bytes (sub bytes.length footerLen) footer.boolFieldsOffset footer.boolFieldsLen
    "bool fields offset overflow" "bool fields outside segment bounds"
  let fields ← runReader (boolFieldList codec) bytes
  return byXPath fields

def rowsFrom (base : ArrayRowId) : ℕ → ℕ → ArrayRowIndex → CursorReader ArrayRowIndex
  | 0, _, idx => return idx
  | n + 1, i, idx => do
    let (doc, parent) ← readPair
    let row ← lift (add (2 ^ 64) base i)
    rowsFrom base n (i + 1) (idx.pushRow row doc (if parent ≠ noParentRow then some parent else none))

def rowTable : CursorReader ArrayRowIndex := do
  let base ← readUInt 8
  let count ← readUInt 4
  rowsFrom base count 0 ⟨base, [], [], ArrayRowIndex.empty.length_eq⟩

def readArrayRowIndex (bytes : ByteSeq) (footer : SegmentFooter) : Fallible ArrayRowIndex := do
  let bytes ← readSection bytes (.ok bytes.length) footer.arrayRowIndexOffset footer.arrayRowIndexLen
    "array row index offset overflow" "array row index outside segment bounds"
  runReader rowTable bytes

/-! ### Segments -/

/-- A file in memory; no slice is longer than `isize::MAX`. -/
structure Mmap where
  bytes : ByteSeq
  length_lt : bytes.length < 2 ^ 63

structure DiskSegment where
  mmap : ByteSeq
  dictionary : SortedMap XPathId TermDict
  docLengths : DocLengths
  fieldStats : SortedMap XPathId FieldStats
  numericFields : SortedMap XPathId StoredNumericField
  boolFields : SortedMap XPathId BoolField
  docIdRange : Option (DocId × DocId)
  arrayRowIndex : ArrayRowIndex

/-- A posting list as it was decoded; nothing is known of its order. -/
structure DecodedList where
  items : List Posting
  maxWeight : ℕ
  deriving DecidableEq

instance : Inhabited DecodedList := ⟨⟨[], 0⟩⟩

/-- The positions behind position `last`. -/
def readPositions : ℕ → ℕ → VarReader (List ℕ)
  | 0, _ => return []
  | n + 1, last => do
    let delta ← readVarFitting 32 "varint does not fit into u32"
    let position ← StateT.lift (add (2 ^ 32) last delta)
    let positions ← readPositions n position
    return position :: positions

def readPosting (last : DocId) : VarReader Posting := do
  let delta ← readVar
  let docId ← StateT.lift (add (2 ^ 64) last delta)
  let weight ← readVarFitting 16 "varint does not fit into u16"
  let count ← readVarFitting 32 "varint does not fit into u32"
  let positions ← readPositions count 0
  return ⟨docId, positions, weight⟩

def readPostingListInto : ℕ → DocId → List Posting → ByteSeq → Fallible (List Posting × Option String)
  | 0, _, out, _ => .ok (out, none)
  | n + 1, last, out, bytes =>
    match readPosting last bytes with
    | .ok (posting, rest) => readPostingListInto n posting.docId (out ++ [posting]) rest
    | .err message => .ok (out, some message)
    | .fault => .fault

namespace DiskSegment

def «open» (codec : SegmentCodec) (bytes : ByteSeq) : Fallible DiskSegment := do
  validateHeader bytes
  let footer ← readFooter bytes
  validateFooter bytes footer
  let docLengths ← readDocLengths bytes footer
  let lengths ← docLengths.iter
  let dictionary ← readTermDictionary codec bytes footer
  let numericFields ← readNumericFields bytes footer
  let boolFields ← readBoolPoints codec bytes footer
  let arrayRowIndex ← readArrayRowIndex bytes footer
  return {
    mmap := bytes
    dictionary := dictionary
    docLengths := docLengths
    fieldStats := Segment.buildFieldStats lengths
    numericFields := numericFields
    boolFields := boolFields
    docIdRange :=
      if footer.termCount = 0 ∧ numericFields.size = 0 then none
      else some (footer.minDocId, footer.maxDocId)
    arrayRowIndex := arrayRowIndex }

variable (s : DiskSegment)

/-- The posting bytes of a term; none when they lie outside the file. -/
def postingBytes (m : TermMeta) : Fallible (Option ByteSeq) :=
  if 2 ^ 64 ≤ m.postingsOffset + m.postingsLen then return none
  else if m.postingsOffset + m.postingsLen > s.mmap.length then return none
  else do
    let bytes ← slice s.mmap m.postingsOffset (m.postingsOffset + m.postingsLen)
    return some bytes

def readPostings (m : TermMeta) : Fallible DecodedList := do
  match ← s.postingBytes m with
  | none => return default
  | some bytes =>
    match ← readPostingListInto m.docFreq 0 [] bytes with
    | (items, none) => return ⟨items, m.maxWeight⟩
    | (_, some _) => return default

def readPostingsInto (out : List Posting) (m : TermMeta) : Fallible (List Posting) := do
  match ← s.postingBytes m with
  | none => return out
  | some bytes =>
    let (items, _) ← readPostingListInto m.docFreq 0 out bytes
    return items

def meta? (xpath : XPathId) (term : String) : Option TermMeta :=
  (s.dictionary.get? xpath).bind fun dict => dict.get term

def lookup (term : String) (xpath : XPathId) : Fallible DecodedList :=
  match s.meta? xpath term with
  | some m => s.readPostings m
  | none => return default

def docFreq (term : String) (xpath : XPathId) : ℕ := ((s.meta? xpath term).map TermMeta.docFreq).getD 0

def iterTerms (codec : SegmentCodec) : Fallible (List (TermKey × DecodedList)) :=
  collect (s.dictionary.entries.flatMap fun field =>
    (field.2.entries codec).map fun e => do
      let postings ← s.readPostings e.2
      return (⟨field.1, e.1⟩, postings))

def terms (codec : SegmentCodec) (xpath : XPathId) : List String :=
  ((s.dictionary.get? xpath).map fun dict => (dict.entries codec).map Prod.fst).getD []

def maxPatternTerms : ℕ := 128

/-- The terms in the most documents, at most as many as a pattern may have. -/
def patternTerms (found : List (String × TermMeta)) : List (String × TermMeta) :=
  (found.mergeSort fun a b => decide (a.2.docFreq > b.2.docFreq ∨
    (a.2.docFreq = b.2.docFreq ∧ a.1 ≤ b.1))).take maxPatternTerms

def lookupPrefix (codec : SegmentCodec) (start : String) (xpath : XPathId) : Fallible PostingList :=
  match s.dictionary.get? xpath with
  | none => return default
  | some dict => do
    let postings ← (patternTerms (dict.startingWith codec start)).foldlM
      (fun out e => s.readPostingsInto out e.2) []
    return PostingList.fromItems postings

def docLen (docId : DocId) (xpath : XPathId) : Option ℕ := s.docLengths.get docId xpath

def docCount (xpath : XPathId) : ℕ := ((s.fieldStats.get? xpath).map FieldStats.docCount).getD 0

def totalDocLen (xpath : XPathId) : ℕ := ((s.fieldStats.get? xpath).map FieldStats.totalDocLen).getD 0

def numericRange (xpath : XPathId) (lo hi : Option NumericBound) : Fallible PostingList := do
  let docs ← match s.numericFields.get? xpath with
    | some field => field.bkd.rangeSlice lo hi
    | none => .ok []
  return Segment.idPostings docs

def numericValue (xpath : XPathId) (docId : DocId) : Option NumericValue :=
  (s.numericFields.get? xpath).bind fun field => field.docValues.get docId

def boolTrueIds (xpath : XPathId) : Finset DocId :=
  ((s.boolFields.get? xpath).map BoolField.trueIds).getD ∅

def boolFalseIds (xpath : XPathId) : Finset DocId :=
  ((s.boolFields.get? xpath).map BoolField.falseIds).getD ∅

def docOfRow (row : ArrayRowId) : Option DocId := s.arrayRowIndex.docOf row

def parentOfRow (row : ArrayRowId) : Option ArrayRowId := s.arrayRowIndex.parentOf row

end DiskSegment

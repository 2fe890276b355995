/-
The writer of segment files.

The postings of all terms come first, each list where its meta says; the terms of a
field become one fst.  Numbers have a fixed width and are cut to it; inside postings,
ids and positions are differences to the one before and have variable length.
-/
import Riets.SegmentReader

open Fallible

structure SegmentEncoder where
  fst : List (ByteSeq × ℕ) → Except String ByteSeq
  bitmap : Finset DocId → ByteSeq

def NumericKind.toByte : NumericKind → ℕ
  | .int => 0
  | .float => 1

def encodePositions : ℕ → List ℕ → Fallible ByteSeq
  | _, [] => return []
  | last, position :: positions => do
    let delta ← sub position last
    let rest ← encodePositions position positions
    return pushVar delta ++ rest

/-- The postings behind document `last`. -/
def encodePostings : DocId → List Posting → Fallible ByteSeq
  | _, [] => return []
  | last, posting :: postings => do
    let delta ← sub posting.docId last
    let positions ← encodePositions 0 posting.positions
    let rest ← encodePostings posting.docId postings
    return pushVar delta ++ (pushVar posting.weight ++
      (pushVar (posting.positions.length % 2 ^ 32) ++ (positions ++ rest)))

def encodePostingList (list : PostingList) : Fallible ByteSeq := encodePostings 0 list.items

/-! ### Dictionaries -/

/-- The dictionary of one field as it is written: the bytes of its fst and the metas in
the order of the terms. -/
structure FieldDict where
  fstBytes : ByteSeq
  metas : List TermMeta

/-- The ord of a term is its place; the fst is opened once it is built. -/
def FieldDict.build (codec : SegmentCodec) (encoder : SegmentEncoder) (terms : List (String × TermMeta)) :
    Fallible FieldDict :=
  if terms = [] then .ok ⟨[], []⟩
  else
    match encoder.fst (terms.map fun e => utf8 e.1).zipIdx with
    | .error e => .err e
    | .ok bytes =>
      match codec.fst bytes with
      | .error e => .err e
      | .ok _ => .ok ⟨bytes, terms.map Prod.snd⟩

structure FieldWriter where
  fields : List (XPathId × FieldDict)
  current : Option XPathId
  entries : List (String × TermMeta)
  termCount : ℕ

namespace FieldWriter

def new : FieldWriter := ⟨[], none, [], 0⟩

variable (codec : SegmentCodec) (encoder : SegmentEncoder)

/-- Builds the dictionary of the field that was collected, if there is one. -/
def closeField (w : FieldWriter) : Fallible FieldWriter :=
  match w.current with
  | none => return w
  | some xpath => do
    let dict ← FieldDict.build codec encoder w.entries
    return { w with fields := w.fields ++ [(xpath, dict)], current := none, entries := [] }

def enterField (w : FieldWriter) (xpath : XPathId) : Fallible FieldWriter :=
  if w.current ≠ some xpath then do
    let w ← w.closeField codec encoder
    return { w with current := some xpath }
  else return w

/-- Writes the postings of a term behind `out` and notes where they are. -/
def push (out : ByteSeq) (w : FieldWriter) (key : TermKey) (postings : PostingList) :
    Fallible (ByteSeq × FieldWriter) := do
  let w ← w.enterField codec encoder key.xpath
  let blob ← encodePostingList postings
  let termCount ← add (2 ^ 32) w.termCount 1
  return (out ++ blob, { w with
    entries := w.entries ++ [(key.term, {
      postingsOffset := out.length
      postingsLen := blob.length % 2 ^ 32
      docFreq := postings.items.length % 2 ^ 32
      maxWeight := postings.maxWeight })]
    termCount := termCount })

def finish (w : FieldWriter) : Fallible (List (XPathId × FieldDict) × ℕ) := do
  let w ← w.closeField codec encoder
  return (w.fields, w.termCount)

/-- The postings of terms in ascending order, behind `out`. -/
def pushAll : List (TermKey × PostingList) → ByteSeq → FieldWriter → Fallible (ByteSeq × FieldWriter)
  | [], out, w => return (out, w)
  | e :: terms, out, w => do
    let (out, w) ← w.push codec encoder out e.1 e.2
    pushAll terms out w

end FieldWriter

/-! ### Sections -/

def writeHeader : ByteSeq := segmentMagic ++ leBytes 4 segmentVersion

def writeLength (e : LengthKey × ℕ) : ByteSeq :=
  leBytes 8 (ofLex e.1).1 ++ (leBytes 4 (ofLex e.1).2 ++ leBytes 4 e.2)

def writeDocLengths (docLengths : SortedMap LengthKey ℕ) : ByteSeq :=
  leBytes 4 docLengths.size ++ docLengths.entries.flatMap writeLength

def writeMeta (m : TermMeta) : ByteSeq :=
  leBytes 8 m.postingsOffset ++ (leBytes 4 m.postingsLen ++ (leBytes 4 m.docFreq ++ leBytes 2 m.maxWeight))

def writeDictionaryField (f : XPathId × FieldDict) : ByteSeq :=
  leBytes 4 f.1 ++ (leBytes 4 f.2.metas.length ++ (leBytes 8 f.2.fstBytes.length ++
    (f.2.fstBytes ++ f.2.metas.flatMap writeMeta)))

def writeDictionary (fields : List (XPathId × FieldDict)) : ByteSeq :=
  leBytes 4 fields.length ++ fields.flatMap writeDictionaryField

def writePair (p : ℕ × ℕ) : ByteSeq := leBytes 8 p.1 ++ leBytes 8 p.2

def writeNumericField (e : XPathId × NumericField) : ByteSeq :=
  leBytes 4 e.1 ++ (leBytes 1 e.2.bkd.kind.toByte ++
    (leBytes 4 e.2.bkd.points.length ++ (e.2.bkd.points.flatMap (fun p => writePair (p.1.toNat, p.2)) ++
      (leBytes 4 e.2.docValues.entries.length ++
        e.2.docValues.entries.flatMap (fun v => writePair (v.1, v.2.toNat))))))

def writeNumericFields (fields : NumericFields) : ByteSeq :=
  leBytes 4 fields.fields.size ++ fields.fields.entries.flatMap writeNumericField

def writeBitmap (encoder : SegmentEncoder) (ids : Finset DocId) : ByteSeq :=
  leBytes 8 (encoder.bitmap ids).length ++ encoder.bitmap ids

def writeBoolField (encoder : SegmentEncoder) (e : XPathId × BoolField) : ByteSeq :=
  leBytes 4 e.1 ++ (writeBitmap encoder e.2.trueIds ++ writeBitmap encoder e.2.falseIds)

def writeBoolFields (encoder : SegmentEncoder) (fields : SortedMap XPathId BoolField) : ByteSeq :=
  leBytes 4 fields.size ++ fields.entries.flatMap (writeBoolField encoder)

def writeArrayRowIndex (idx : ArrayRowIndex) : ByteSeq :=
  leBytes 8 idx.base ++ (leBytes 4 idx.len ++ (idx.rowToDoc.zip idx.parentRow).flatMap writePair)

def writeFooter (footer : SegmentFooter) : ByteSeq :=
  leBytes 8 footer.docLengthsOffset ++ (leBytes 8 footer.docLengthsLen ++
  (leBytes 8 footer.dictionaryOffset ++ (leBytes 8 footer.dictionaryLen ++
  (leBytes 8 footer.numericFieldsOffset ++ (leBytes 8 footer.numericFieldsLen ++
  (leBytes 4 footer.termCount ++ (leBytes 8 footer.minDocId ++ (leBytes 8 footer.maxDocId ++
  (leBytes 8 footer.arrayRowIndexOffset ++ (leBytes 8 footer.arrayRowIndexLen ++
  (leBytes 8 footer.boolFieldsOffset ++ leBytes 8 footer.boolFieldsLen)))))))))))

/-- The sections and the footer behind the postings `out`. -/
def writeSections (encoder : SegmentEncoder) (s : Segment) (out : ByteSeq)
    (fields : List (XPathId × FieldDict)) (termCount : ℕ) : ByteSeq :=
  let docLengthsOffset := out.length
  let out := out ++ writeDocLengths s.docLengths
  let docLengthsEnd := out.length
  let dictionaryOffset := out.length
  let out := out ++ writeDictionary fields
  let dictionaryEnd := out.length
  let numericFieldsOffset := out.length
  let out := out ++ writeNumericFields s.numericFields
  let numericFieldsEnd := out.length
  let docIdRange := s.docIdRange.getD (0, 0)
  let arrayRowIndexOffset := out.length
  let out := out ++ writeArrayRowIndex s.arrayRowIndex
  let arrayRowIndexEnd := out.length
  let boolFieldsOffset := out.length
  let out := out ++ writeBoolFields encoder s.boolFields
  let boolFieldsEnd := out.length
  out ++ writeFooter {
    docLengthsOffset := docLengthsOffset
    docLengthsLen := docLengthsEnd - docLengthsOffset
    dictionaryOffset := dictionaryOffset
    dictionaryLen := dictionaryEnd - dictionaryOffset
    numericFieldsOffset := numericFieldsOffset
    numericFieldsLen := numericFieldsEnd - numericFieldsOffset
    arrayRowIndexOffset := arrayRowIndexOffset
    arrayRowIndexLen := arrayRowIndexEnd - arrayRowIndexOffset
    boolFieldsOffset := boolFieldsOffset
    boolFieldsLen := boolFieldsEnd - boolFieldsOffset
    termCount := termCount
    minDocId := docIdRange.1
    maxDocId := docIdRange.2 }

def writeSegmentTo (codec : SegmentCodec) (encoder : SegmentEncoder) (s : Segment) : Fallible ByteSeq := do
  let (out, w) ← FieldWriter.pushAll codec encoder s.terms.entries writeHeader FieldWriter.new
  let (fields, termCount) ← w.finish codec encoder
  return writeSections encoder s out fields termCount

/-
The file of the vectors of one field of a segment.

Behind a header with the id of the model stand the ids of the documents, an int8 code for
each component and the components themselves; each section begins at a multiple of 64.

Components are f32 numbers, given by their bits.  The arithmetic on them decides the
codes and the range they are clipped at and nothing else; it is a parameter.
-/
import Riets.GraphFile
import Riets.RecordFormat

namespace VectorFormat

open FixedSlots GraphUnderConstruction Fallible

def magic : ByteSeq := [67, 76, 86, 69, 67, 84, 79, 82]

def version : ℕ := 2

def originalF32 : ℕ := 1

def quantInt8 : ℕ := 1

def maxModelIdLen : ℕ := 255

def headerFixedLen : ℕ := 8 + 4 + 4 + 8 + 4 + 1 + 1 + 2 + 4 + 4 + 8

def sampleComponents : ℕ := 2 ^ 20

def corrupt (path message : String) : String := "vector file " ++ path ++ ": " ++ message

def roundUpToSection (value : ℕ) : Option ℕ :=
  (checkedAdd value (sectionAlignment - 1)).map fun v => v / sectionAlignment * sectionAlignment

structure Layout where
  ids : ℕ
  codes : ℕ
  originals : ℕ
  total : ℕ

def Layout.new (dims modelIdLen count : ℕ) : Option Layout := do
  let ids ← roundUpToSection (← checkedAdd headerFixedLen modelIdLen)
  let codes ← roundUpToSection (← checkedAdd ids (← checkedMul count 8))
  let originals ← roundUpToSection (← checkedAdd codes (← checkedMul count dims))
  let total ← checkedAdd originals (← checkedMul (← checkedMul count dims) 4)
  some { ids, codes, originals, total }

abbrev F32 := BitVec 32

namespace F32

def isFinite (v : F32) : Bool := v.toNat / 2 ^ 23 % 256 ≠ 255

def abs (v : F32) : F32 := v &&& 0x7FFFFFFF

def one : F32 := 0x3F800000

end F32

structure Arithmetic where
  /-- `((len - 1) as f64 * RANGE_QUANTILE).round()`. -/
  rank : ℕ → ℕ
  rank_lt : ∀ len, 0 < len → rank len < len
  /-- The code of a component in the range of an `absmax`. -/
  code : F32 → F32 → UInt8

namespace QuantRange

def fromAbsmax (absmax : F32) : Option F32 :=
  if absmax.isFinite ∧ 0 < absmax.toNat ∧ absmax.toNat < 2 ^ 31 then some absmax else none

def learn (ops : Arithmetic) (sample : List F32) : Fallible F32 := do
  let values := (sample.filter F32.isFinite).map F32.abs
  if values = [] then return F32.one
  else do
    let value ← Fallible.index (values.insertionSort fun a b => a.toNat ≤ b.toNat) (ops.rank values.length)
    return (fromAbsmax value).getD F32.one

end QuantRange

/-! ### Writing -/

abbrev Row := DocId × List F32

structure VectorFileWriter where
  modelId : String
  dims : ℕ
  ids : ByteSeq
  originals : ByteSeq
  count : ℕ
  lastDoc : Option DocId
  sample : List F32
  seed : UInt64

namespace VectorFileWriter

def create (modelId : String) (dims : ℕ) (seed : UInt64) : Fallible VectorFileWriter :=
  if dims = 0 ∨ 2 ^ 32 ≤ dims then .err ("invalid vector dimension " ++ toString dims)
  else if (utf8 modelId).length = 0 ∨ maxModelIdLen < (utf8 modelId).length then
    .err ("model id must be 1..=" ++ toString maxModelIdLen ++ " bytes, got " ++
      toString (utf8 modelId).length)
  else .ok ⟨modelId, dims, [], [], 0, none, [], seed⟩

variable (w : VectorFileWriter)

def sampleRowsCap : ℕ := max (sampleComponents / w.dims) 1

def sampleRow (vector : List F32) : List F32 :=
  let held := w.sample.length / w.dims
  if held < w.sampleRowsCap then w.sample ++ vector
  else
    let seen := w.count + 1
    let slot := (fmix64 (w.seed ^^^ UInt64.ofNat seen) % UInt64.ofNat seen).toNat
    if slot < w.sampleRowsCap then
      w.sample.take (slot * w.dims) ++ vector ++ w.sample.drop (slot * w.dims + w.dims)
    else w.sample

def rowBytes (vector : List F32) : ByteSeq := vector.flatMap fun v => leBytes 4 v.toNat

def push (docId : DocId) (vector : List F32) : Fallible VectorFileWriter :=
  if vector.length ≠ w.dims then
    .err ("vector for doc " ++ toString docId ++ " has " ++ toString vector.length ++
      " dims, expected " ++ toString w.dims)
  else
    match w.lastDoc.filter (docId ≤ ·) with
    | some last =>
      .err ("doc ids must be strictly increasing: " ++ toString docId ++ " after " ++ toString last)
    | none =>
      if vector.any fun v => !v.isFinite then
        .err ("vector for doc " ++ toString docId ++ " has a NaN or infinite component")
      else .ok
        { w with
          ids := w.ids ++ leBytes 8 docId
          originals := w.originals ++ rowBytes vector
          sample := w.sampleRow vector
          lastDoc := some docId
          count := w.count + 1 }

def header (fileId : UInt64) (absmax : F32) : ByteSeq :=
  magic ++ leBytes 4 version ++ leBytes 4 0 ++ leBytes 8 fileId.toNat ++ leBytes 4 w.dims ++
    leBytes 1 originalF32 ++ leBytes 1 quantInt8 ++ leBytes 2 (utf8 w.modelId).length ++
    leBytes 4 absmax.toNat ++ leBytes 4 0 ++ leBytes 8 w.count

/-- The codes of the components, read back from the rows written so far. -/
def codes (ops : Arithmetic) (absmax : F32) : ByteSeq :=
  (words 4 (w.count * w.dims) w.originals).map fun n => ops.code absmax (BitVec.ofNat 32 n)

def assembled (ops : Arithmetic) (fileId : UInt64) (absmax : F32) (l : Layout) : ByteSeq :=
  let idEnd := headerFixedLen + (utf8 w.modelId).length
  w.header fileId absmax ++ (utf8 w.modelId ++
    (zeroPadding idEnd l.ids ++ (w.ids ++
      (zeroPadding (l.ids + w.count * 8) l.codes ++ (w.codes ops absmax ++
        (zeroPadding (l.codes + w.count * w.dims) l.originals ++ w.originals))))))

/-- `finish`: the bytes of the file. -/
def finish (ops : Arithmetic) (path : String) (fileId : UInt64) : Fallible ByteSeq :=
  match Layout.new w.dims (utf8 w.modelId).length w.count with
  | none => .err "vector file size overflows usize"
  | some layout => do
    let absmax ← QuantRange.learn ops w.sample
    let bytes := w.assembled ops fileId absmax layout
    if bytes.length ≠ layout.total then
      .err ("vector file " ++ path ++ ".tmp assembled to " ++ toString bytes.length ++
        " bytes, expected " ++ toString layout.total)
    else .ok bytes

end VectorFileWriter

/-- A file of these rows: `create`, `push` of each row and `finish`. -/
def writeRows (ops : Arithmetic) (path modelId : String) (dims : ℕ) (rows : List Row)
    (seed fileId : UInt64) : Fallible ByteSeq := do
  let writer ← VectorFileWriter.create modelId dims seed
  let writer ← rows.foldlM (fun w row => w.push row.1 row.2) writer
  writer.finish ops path fileId

/-! ### Reading -/

structure VectorFile where
  bytes : ByteSeq
  path : String
  fileId : ℕ
  modelId : String
  dims : ℕ
  range : F32
  count : ℕ
  layout : Layout

namespace VectorFile

variable (f : VectorFile)

def docIds : List DocId := words 8 f.count (f.bytes.drop f.layout.ids)

def position (docId : DocId) : Option ℕ := Keyed.binarySearch id docId f.docIds

/-- The components of a row; the source asserts that the row is there. -/
def original (index : ℕ) : Fallible (List F32) :=
  if index < f.count then do
    let start := f.layout.originals + index * f.dims * 4
    let bytes ← slice f.bytes start (start + f.dims * 4)
    return (words 4 f.dims bytes).map (BitVec.ofNat 32)
  else .fault

/-- `VectorFile::open` on the bytes of a file, mapped at an aligned address or not. -/
def openFile (path : String) (bytes : ByteSeq) (aligned : Bool) : Fallible VectorFile :=
  if bytes.length < headerFixedLen then .err (corrupt path "shorter than its header")
  else do
    let first ← slice bytes 0 8
    Fallible.check (corrupt path "bad magic") (first = magic)
    let v ← readWord 4 bytes 8
    Fallible.check (corrupt path ("unsupported version " ++ toString v)) (v = version)
    let fileId ← readWord 8 bytes 16
    let dims ← readWord 4 bytes 24
    Fallible.check (corrupt path "zero dimensions") (dims ≠ 0)
    let original ← readWord 1 bytes 28
    let quant ← readWord 1 bytes 29
    Fallible.check (corrupt path ("unsupported encoding " ++ toString original ++ "/" ++ toString quant))
      (original = originalF32 ∧ quant = quantInt8)
    let idLen ← readWord 2 bytes 30
    let absmax ← readWord 4 bytes 32
    let range ← ofOption (corrupt path "invalid quantization range")
      (QuantRange.fromAbsmax (BitVec.ofNat 32 absmax))
    let count ← readWord 8 bytes 40
    Fallible.check (corrupt path "truncated header") (headerFixedLen + idLen ≤ bytes.length)
    let idBytes ← slice bytes headerFixedLen (headerFixedLen + idLen)
    let modelId ← ofOption (corrupt path "model id is not UTF-8") (ofUtf8 idBytes)
    let layout ← ofOption (corrupt path "size overflows usize") (Layout.new dims idLen count)
    Fallible.check (corrupt path ("length " ++ toString bytes.length ++ " does not match " ++
      toString count ++ " rows of " ++ toString dims ++ " dims")) (layout.total = bytes.length)
    Fallible.check (corrupt path "mapping is not aligned") (aligned = true)
    let file : VectorFile := ⟨bytes, path, fileId, modelId, dims, range, count, layout⟩
    Fallible.check (corrupt path "doc ids are not strictly increasing")
      (∀ p ∈ file.docIds.zip file.docIds.tail, p.1 < p.2)
    return file

def Matches (modelId : String) (dims : ℕ) : Prop := f.modelId = modelId ∧ f.dims = dims

instance (modelId : String) (dims : ℕ) : Decidable (f.Matches modelId dims) := instDecidableAnd

end VectorFile

open VectorFileWriter

def nextDoc (inputs : List VectorFile) (cursors : List ℕ) : Option DocId :=
  ((inputs.zip cursors).filterMap fun p => p.1.docIds[p.2]?).min?

/-- Every cursor that stands at a document moves on; its row is the one of the last of them. -/
def advance (doc : DocId) : List VectorFile → List ℕ → Option (VectorFile × ℕ) × List ℕ
  | file :: files, cursor :: cursors =>
    let (source, moved) := advance doc files cursors
    if file.docIds[cursor]? = some doc then (source <|> some (file, cursor), (cursor + 1) :: moved)
    else (source, cursor :: moved)
  | _, _ => (none, [])

def mergeLoop (inputs : List VectorFile) (deleted : DeleteSet) :
    ℕ → List ℕ → VectorFileWriter → Fallible VectorFileWriter
  | 0, _, _ => .fault
  | rounds + 1, cursors, writer =>
    match nextDoc inputs cursors with
    | none => .ok writer
    | some doc =>
      match advance doc inputs cursors with
      | (none, _) => .fault
      | (some (file, index), moved) =>
        if doc ∈ deleted then mergeLoop inputs deleted rounds moved writer
        else do
          let vector ← file.original index
          let writer ← writer.push doc vector
          mergeLoop inputs deleted rounds moved writer

def mergeVectorFiles (ops : Arithmetic) (inputs : List VectorFile) (deleted : DeleteSet)
    (output : String) (seed fileId : UInt64) : Fallible ByteSeq :=
  match inputs with
  | [] => .err "merge_vector_files needs at least one input"
  | first :: _ =>
    match inputs.find? fun f => ¬f.Matches first.modelId first.dims with
    | some other =>
      .err ("cannot merge " ++ other.path ++ " (" ++ other.modelId ++ ", " ++ toString other.dims ++
        " dims) with " ++ first.path ++ " (" ++ first.modelId ++ ", " ++ toString first.dims ++ " dims)")
    | none => do
      let writer ← create first.modelId first.dims seed
      let writer ← mergeLoop inputs deleted ((inputs.map VectorFile.count).sum + 1)
        (inputs.map fun _ => 0) writer
      writer.finish ops output fileId

end VectorFormat

/-
The byte format of the document store.

A segment is eight magic bytes followed by records; a record is an operation
byte and a document, or the external id and the version of a deleted document.
Lengths are four bytes, ids eight, little-endian, and a longer length is cut to
four bytes as the code casts it.
-/
import Riets.Bytes
import Riets.SearchDatabase

open List

def utf8 (s : String) : ByteSeq := s.toUTF8.data.toList

def ofUtf8 (bytes : ByteSeq) : Option String := String.fromUTF8? ⟨bytes.toArray⟩

theorem ofUtf8_utf8 (s : String) : ofUtf8 (utf8 s) = some s := by
  have hbytes : (⟨(utf8 s).toArray⟩ : ByteArray) = s.toUTF8 := by
    rw [utf8, Array.toArray_toList]
  rw [ofUtf8, hbytes, String.fromUTF8?, String.toUTF8_eq_toByteArray, dif_pos s.isValidUTF8]
  rfl

theorem utf8_of_ofUtf8 {bytes : ByteSeq} {s : String} (h : ofUtf8 bytes = some s) : utf8 s = bytes := by
  rw [ofUtf8, String.fromUTF8?] at h
  split_ifs at h with hvalid
  rw [← Option.some_inj.mp h]
  rfl

theorem utf8_injective {s t : String} (h : utf8 s = utf8 t) : s = t := by
  have := congrArg ofUtf8 h
  rw [ofUtf8_utf8, ofUtf8_utf8] at this
  exact Option.some_inj.1 this

/-! ### Writing -/

def writeBytes (value : ByteSeq) : ByteSeq := leBytes 4 value.length ++ value

def writeString (value : String) : ByteSeq := writeBytes (utf8 value)

def Format.toByte : Format → UInt8
  | .json => 1

def Format.ofByte (b : UInt8) : Option Format := if b = 1 then some .json else none

def writeDocument (doc : StoredDocument) : ByteSeq :=
  writeString doc.externalId ++ (leBytes 8 doc.internalId ++ ([doc.format.toByte] ++
    writeBytes doc.source))

inductive StoreRecord where
  | put (doc : StoredDocument)
  | delete (externalId : String) (internalId : DocId)
  deriving DecidableEq

namespace StoreRecord

def externalId : StoreRecord → String
  | .put doc => doc.externalId
  | .delete x _ => x

/-- `OP_PUT` and `OP_DELETE` with what follows them. -/
def encode : StoreRecord → ByteSeq
  | .put doc => 1 :: writeDocument doc
  | .delete x id => 2 :: (writeString x ++ leBytes 8 id)

end StoreRecord

/-! ### Reading -/

def readU8 : ByteReader UInt8 := fun
  | [] => .error .unexpectedEof
  | b :: rest => .ok (b, rest)

def readU32 : ByteReader ℕ := leNat <$> readExact 4

def readU64 : ByteReader ℕ := leNat <$> readExact 8

def readSized : ByteReader ByteSeq := do
  let len ← readU32
  readExact len

def orInvalid {α : Type} : Option α → ByteReader α
  | some a => pure a
  | none => throw .invalidData

def readString : ByteReader String := do
  let bytes ← readSized
  orInvalid (ofUtf8 bytes)

def readDocument : ByteReader StoredDocument := do
  let externalId ← readString
  let internalId ← readU64
  let b ← readU8
  let format ← orInvalid (Format.ofByte b)
  let source ← readSized
  pure ⟨externalId, internalId, format, source⟩

def readDelete : ByteReader StoreRecord := do
  let externalId ← readString
  let internalId ← readU64
  pure (.delete externalId internalId)

def readOp (op : UInt8) : ByteReader StoreRecord :=
  if op = 1 then StoreRecord.put <$> readDocument
  else if op = 2 then readDelete
  else throw .invalidData

/-- One round of the loop of `scan_segment`. -/
def readRecord : ByteReader StoreRecord := do
  let op ← readU8
  readOp op

/-! ### Reading back what was written -/

/-- The lengths and ids of a document fit their fields: the log in front of the
store takes no entry above 1 GiB. -/
structure StoredDocument.Fits (doc : StoredDocument) : Prop where
  internalId : doc.internalId < 2 ^ 64
  length : (writeDocument doc).length < 2 ^ 32

def StoreRecord.Fits : StoreRecord → Prop
  | .put doc => doc.Fits
  | .delete x id => (utf8 x).length < 2 ^ 32 ∧ id < 2 ^ 64

@[simp] theorem length_writeBytes (value : ByteSeq) :
    (writeBytes value).length = 4 + value.length := by
  rw [writeBytes, length_append, length_leBytes]

theorem length_writeDocument (doc : StoredDocument) :
    (writeDocument doc).length = 17 + (utf8 doc.externalId).length + doc.source.length := by
  simp only [writeDocument, writeString, length_append, length_writeBytes, length_leBytes,
    length_singleton]
  omega

theorem decodes_u8 (b : UInt8) : Decodes readU8 [b] b where
  whole _ := rfl
  torn piece hpre hne := by
    cases piece with
    | nil => rfl
    | cons c cs =>
      rw [cons_prefix_cons, prefix_nil] at hpre
      exact absurd (by rw [hpre.1, hpre.2]) hne

theorem decodes_u32 {n : ℕ} (h : n < 2 ^ 32) : Decodes readU32 (leBytes 4 n) n := by
  have := (Decodes.exact (length_leBytes 4 n)).map leNat
  rwa [leNat_leBytes_of_lt (by omega)] at this

theorem decodes_u64 {n : ℕ} (h : n < 2 ^ 64) : Decodes readU64 (leBytes 8 n) n := by
  have := (Decodes.exact (length_leBytes 8 n)).map leNat
  rwa [leNat_leBytes_of_lt (by omega)] at this

theorem decodes_sized {value : ByteSeq} (h : value.length < 2 ^ 32) :
    Decodes readSized (writeBytes value) value :=
  (decodes_u32 h).bind (Decodes.exact rfl)

theorem decodes_orInvalid {α : Type} {o : Option α} {a : α} (h : o = some a) :
    Decodes (orInvalid o) [] a := by
  rw [h]
  exact Decodes.pure a

theorem decodes_string {value : String} (h : (utf8 value).length < 2 ^ 32) :
    Decodes readString (writeString value) value := by
  have := (decodes_sized h).bind (f := fun bytes => orInvalid (ofUtf8 bytes))
    (decodes_orInvalid (ofUtf8_utf8 value))
  rwa [append_nil] at this

theorem Format.ofByte_toByte (f : Format) : Format.ofByte f.toByte = some f := by
  cases f
  rfl

theorem decodes_document {doc : StoredDocument} (h : doc.Fits) :
    Decodes readDocument (writeDocument doc) doc := by
  have hlen := h.length
  rw [length_writeDocument] at hlen
  have hsource := (decodes_sized (show doc.source.length < 2 ^ 32 by omega)).bind_pure fun source =>
    (⟨doc.externalId, doc.internalId, doc.format, source⟩ : StoredDocument)
  refine (decodes_string (by omega)).bind ((decodes_u64 h.internalId).bind
    ((decodes_u8 doc.format.toByte).bind ?_))
  exact (decodes_orInvalid (Format.ofByte_toByte doc.format)).bind hsource

theorem decodes_record {record : StoreRecord} (h : record.Fits) :
    Decodes readRecord record.encode record := by
  cases record with
  | put doc => exact (decodes_u8 1).bind (f := readOp) ((decodes_document h).map StoreRecord.put)
  | delete x id =>
    refine (decodes_u8 2).bind (f := readOp) (?_ : Decodes readDelete _ _)
    exact (decodes_string h.1).bind ((decodes_u64 h.2).bind_pure (StoreRecord.delete x))

/-! ### Scanning a segment -/

/-- A record with the offset it starts at and the number of bytes it takes. -/
structure PlacedRecord where
  start : ℕ
  len : ℕ
  record : StoreRecord
  deriving DecidableEq

/-- How a scan ends: at the end of the file, inside a record that starts at the
given offset, or on bytes that are no record. -/
inductive ScanEnd where
  | clean
  | torn (start : ℕ)
  | invalid
  deriving DecidableEq

/-- The loop of `scan_segment` from the offset `pos`.  A record takes at least
one byte, so the number of bytes is fuel enough. -/
def scanRecords : ℕ → ℕ → ByteSeq → List PlacedRecord × ScanEnd
  | 0, _, _ => ([], .clean)
  | _ + 1, _, [] => ([], .clean)
  | fuel + 1, pos, bytes =>
    match readRecord bytes with
    | .ok (record, rest) =>
      let len := bytes.length - rest.length
      let next := scanRecords fuel (pos + len) rest
      (⟨pos, len, record⟩ :: next.1, next.2)
    | .error .unexpectedEof => ([], .torn pos)
    | .error .invalidData => ([], .invalid)

def scan (pos : ℕ) (bytes : ByteSeq) : List PlacedRecord × ScanEnd :=
  scanRecords bytes.length pos bytes

def encodeAll (records : List StoreRecord) : ByteSeq := records.flatMap StoreRecord.encode

def place (pos : ℕ) : List StoreRecord → List PlacedRecord
  | [] => []
  | r :: rs => ⟨pos, r.encode.length, r⟩ :: place (pos + r.encode.length) rs

@[simp] theorem encodeAll_nil : encodeAll [] = [] := rfl

@[simp] theorem encodeAll_cons (r : StoreRecord) (rs : List StoreRecord) :
    encodeAll (r :: rs) = r.encode ++ encodeAll rs := rfl

@[simp] theorem encodeAll_append (rs rs' : List StoreRecord) :
    encodeAll (rs ++ rs') = encodeAll rs ++ encodeAll rs' := flatMap_append

theorem place_append (pos : ℕ) (rs rs' : List StoreRecord) :
    place pos (rs ++ rs') = place pos rs ++ place (pos + (encodeAll rs).length) rs' := by
  induction rs generalizing pos with
  | nil => rfl
  | cons r rs ih =>
    rw [cons_append, place, place, ih, encodeAll_cons, length_append, Nat.add_assoc]
    rfl

theorem StoreRecord.encode_ne_nil (r : StoreRecord) : r.encode ≠ [] := by
  cases r <;> exact cons_ne_nil _ _

theorem StoreRecord.one_le_length (r : StoreRecord) : 1 ≤ r.encode.length :=
  length_pos_iff.2 r.encode_ne_nil

theorem scanRecords_append {rs : List StoreRecord} (hfits : ∀ r ∈ rs, r.Fits) (fuel pos : ℕ)
    (rest : ByteSeq) (hfuel : (encodeAll rs ++ rest).length ≤ fuel) :
    ∃ fuel', rest.length ≤ fuel' ∧
      scanRecords fuel pos (encodeAll rs ++ rest) =
        (place pos rs ++ (scanRecords fuel' (pos + (encodeAll rs).length) rest).1,
          (scanRecords fuel' (pos + (encodeAll rs).length) rest).2) := by
  induction rs generalizing fuel pos with
  | nil => exact ⟨fuel, hfuel, rfl⟩
  | cons r rs ih =>
    have hone := r.one_le_length
    simp only [encodeAll_cons, append_assoc, length_append] at hfuel ⊢
    obtain ⟨fuel, rfl⟩ : ∃ n, fuel = n + 1 := ⟨fuel - 1, by omega⟩
    obtain ⟨fuel', hle, heq⟩ := ih (fun r' h => hfits r' (mem_cons_of_mem r h)) fuel
      (pos + r.encode.length) (by rw [length_append]; omega)
    have hread := (decodes_record (hfits r mem_cons_self)).whole (encodeAll rs ++ rest)
    refine ⟨fuel', hle, ?_⟩
    obtain ⟨b, bs, hbytes⟩ : ∃ b bs, r.encode ++ (encodeAll rs ++ rest) = b :: bs := by
      cases hr : r.encode with
      | nil => exact absurd hr r.encode_ne_nil
      | cons b bs => exact ⟨b, _, rfl⟩
    rw [hbytes] at hread ⊢
    rw [scanRecords, hread]
    · have hpos : (b :: bs).length - (encodeAll rs ++ rest).length = r.encode.length := by
        rw [← hbytes, length_append, Nat.add_sub_cancel_right]
      simp only [hpos, heq, place, cons_append, Nat.add_assoc]
    · simp

theorem scan_encodeAll {rs : List StoreRecord} (hfits : ∀ r ∈ rs, r.Fits) (pos : ℕ) :
    scan pos (encodeAll rs) = (place pos rs, .clean) := by
  obtain ⟨fuel', -, heq⟩ := scanRecords_append hfits _ pos [] (le_of_eq (by rw [append_nil]))
  rw [append_nil] at heq
  rw [scan, heq]
  cases fuel' <;> simp [scanRecords]

theorem scan_torn {rs : List StoreRecord} (hfits : ∀ r ∈ rs, r.Fits) {r : StoreRecord}
    (hr : r.Fits) {piece : ByteSeq} (hpiece : piece <+: r.encode) (hne : piece ≠ r.encode)
    (hnil : piece ≠ []) (pos : ℕ) :
    scan pos (encodeAll rs ++ piece) = (place pos rs, .torn (pos + (encodeAll rs).length)) := by
  obtain ⟨fuel', hle, heq⟩ := scanRecords_append hfits _ pos piece le_rfl
  rw [scan, heq]
  have hlen := length_pos_iff.2 hnil
  obtain ⟨fuel', rfl⟩ : ∃ n, fuel' = n + 1 := ⟨fuel' - 1, by omega⟩
  obtain ⟨b, bs, rfl⟩ := exists_cons_of_ne_nil hnil
  rw [scanRecords, (decodes_record hr).torn _ hpiece hne]
  · simp
  · simp

/-
What is written is read back, section by section.
-/
import Riets.SegmentWriter
import Riets.SegmentSafety

open Fallible Cursor List

/-- The numbers of a posting have the width the source gives them, and its positions
ascend. -/
structure Posting.Fits (p : Posting) : Prop where
  docId_lt : p.docId < 2 ^ 64
  weight_lt : p.weight < 2 ^ 16
  count_lt : p.positions.length < 2 ^ 32
  ascending : p.positions.Pairwise (· ≤ ·)
  positions_lt : ∀ q ∈ p.positions, q < 2 ^ 32

instance (p : Posting) : Decidable p.Fits :=
  decidable_of_iff (p.docId < 2 ^ 64 ∧ p.weight < 2 ^ 16 ∧ p.positions.length < 2 ^ 32 ∧
      p.positions.Pairwise (· ≤ ·) ∧ ∀ q ∈ p.positions, q < 2 ^ 32)
    ⟨fun ⟨hdoc, hweight, hcount, hasc, hlt⟩ => ⟨hdoc, hweight, hcount, hasc, hlt⟩, fun h =>
      ⟨h.docId_lt, h.weight_lt, h.count_lt, h.ascending, h.positions_lt⟩⟩

variable {last : ℕ}

theorem readPositions_encode {positions : List ℕ} (hlast : ∀ q ∈ positions, last ≤ q)
    (hasc : positions.Pairwise (· ≤ ·)) (hlt : ∀ q ∈ positions, q < 2 ^ 32) :
    ∃ bytes, encodePositions last positions = .ok bytes ∧
      ∀ rest, readPositions positions.length last (bytes ++ rest) = .ok (positions, rest) := by
  induction positions generalizing last with
  | nil => exact ⟨[], rfl, fun _ => rfl⟩
  | cons position positions ih =>
    obtain ⟨hhead, htail⟩ := pairwise_cons.mp hasc
    obtain ⟨bytes, hbytes, hread⟩ := ih hhead htail fun q hq => hlt q (mem_cons_of_mem _ hq)
    have hle : last ≤ position := hlast position mem_cons_self
    have hposition : position < 2 ^ 32 := hlt position mem_cons_self
    refine ⟨pushVar (position - last) ++ bytes, ?_, fun rest => ?_⟩
    · rw [encodePositions, sub_of_le hle, ok_bind, hbytes, ok_bind, pure_eq]
    · have hsum : last + (position - last) = position := by omega
      have hdelta : position - last < 2 ^ 32 := by omega
      rw [length_cons, readPositions, append_assoc, varBind_apply,
        readVarFitting_pushVar (by decide) hdelta, ok_bind, varBind_apply, varLift_apply,
        add_of_lt (by omega), hsum, ok_bind, ok_bind, varBind_apply, hread, ok_bind]
      rfl

theorem readPosting_encode {p : Posting} (hfits : p.Fits) (hlast : last ≤ p.docId) :
    ∃ positions, encodePositions 0 p.positions = .ok positions ∧
      ∀ rest, readPosting last (pushVar (p.docId - last) ++ (pushVar p.weight ++
        (pushVar (p.positions.length % 2 ^ 32) ++ (positions ++ rest)))) = .ok (p, rest) := by
  obtain ⟨positions, hpositions, hread⟩ := readPositions_encode (fun q _ => Nat.zero_le q)
    hfits.ascending hfits.positions_lt
  refine ⟨positions, hpositions, fun rest => ?_⟩
  have hsum : last + (p.docId - last) = p.docId := Nat.add_sub_cancel' hlast
  have hdelta : p.docId - last < 2 ^ 64 := (Nat.sub_le _ _).trans_lt hfits.docId_lt
  have hadd : last + (p.docId - last) < 2 ^ 64 := hsum.trans_lt hfits.docId_lt
  rw [readPosting, varBind_apply, readVar_pushVar hdelta, ok_bind, varBind_apply, varLift_apply,
    add_of_lt hadd, hsum, ok_bind, ok_bind, varBind_apply,
    readVarFitting_pushVar (by decide) hfits.weight_lt, ok_bind, varBind_apply,
    Nat.mod_eq_of_lt hfits.count_lt, readVarFitting_pushVar (by decide) hfits.count_lt, ok_bind,
    varBind_apply, hread, ok_bind]
  rfl

theorem readPostings_encode {postings : List Posting} (hlast : ∀ p ∈ postings, last ≤ p.docId)
    (hasc : Keyed.Ascending Posting.docId postings) (hfits : ∀ p ∈ postings, p.Fits) :
    ∃ bytes, encodePostings last postings = .ok bytes ∧
      ∀ out, readPostingListInto postings.length last out bytes = .ok (out ++ postings, none) := by
  induction postings generalizing last with
  | nil => exact ⟨[], rfl, fun out => by rw [append_nil]; rfl⟩
  | cons p postings ih =>
    obtain ⟨hhead, htail⟩ := pairwise_cons.mp hasc
    obtain ⟨rest, hrest, hread⟩ := ih (fun q hq => (hhead q hq).le) htail
      fun q hq => hfits q (mem_cons_of_mem p hq)
    have hle := hlast p mem_cons_self
    obtain ⟨positions, hpositions, hposting⟩ := readPosting_encode (hfits p mem_cons_self) hle
    refine ⟨pushVar (p.docId - last) ++ (pushVar p.weight ++
      (pushVar (p.positions.length % 2 ^ 32) ++ (positions ++ rest))), ?_, fun out => ?_⟩
    · rw [encodePostings, sub_of_le hle, ok_bind, hpositions, ok_bind, hrest, ok_bind, pure_eq]
    · rw [length_cons, readPostingListInto, hposting]
      simp only
      rw [hread, append_assoc, singleton_append]

theorem readPostingListInto_encode {list : PostingList} (hfits : ∀ p ∈ list.items, p.Fits) :
    ∃ bytes, encodePostingList list = .ok bytes ∧
      readPostingListInto list.items.length 0 [] bytes = .ok (list.items, none) := by
  obtain ⟨bytes, hbytes, hread⟩ := readPostings_encode (fun p _ => Nat.zero_le p.docId)
    list.ascending hfits
  exact ⟨bytes, hbytes, hread []⟩

/-! ### Lengths, numbers and booleans -/

theorem reads_readPair {p : ℕ × ℕ} (h : p.1 < 2 ^ 64 ∧ p.2 < 2 ^ 64) : Reads readPair (writePair p) p :=
  (Reads.readUInt (w := 8) h.1).bind ((Reads.readUInt (w := 8) h.2).bind_pure fun b => (p.1, b))

def lengthTriple (e : LengthKey × ℕ) : DocId × XPathId × ℕ := ((ofLex e.1).1, (ofLex e.1).2, e.2)

theorem reads_lengthEntry {e : LengthKey × ℕ} (hdoc : (ofLex e.1).1 < 2 ^ 64) (hx : (ofLex e.1).2 < 2 ^ 32)
    (hlen : e.2 < 2 ^ 32) : Reads lengthEntry (writeLength e) (lengthTriple e) :=
  (Reads.readUInt (w := 8) hdoc).bind ((Reads.readUInt (w := 4) hx).bind
    ((Reads.readUInt (w := 4) hlen).bind_pure fun len => ((ofLex e.1).1, (ofLex e.1).2, len)))

theorem reads_lengthEntries {docLengths : SortedMap LengthKey ℕ} (hsize : docLengths.size < 2 ^ 32)
    (h : ∀ e ∈ docLengths.entries, (ofLex e.1).1 < 2 ^ 64 ∧ (ofLex e.1).2 < 2 ^ 32 ∧ e.2 < 2 ^ 32) :
    Reads lengthEntries (writeDocLengths docLengths) (docLengths.entries.map lengthTriple) :=
  Reads.counted hsize fun e he => reads_lengthEntry (h e he).1 (h e he).2.1 (h e he).2.2

structure NumericField.Fits (f : NumericField) : Prop where
  count_lt : f.bkd.points.length < 2 ^ 32
  docId_lt : ∀ p ∈ f.bkd.points, p.2 < 2 ^ 64

theorem fromByte_toByte (kind : NumericKind) : NumericKind.fromByte kind.toByte = some kind := by
  cases kind with
  | int => rfl
  | float => rfl

theorem reads_numericField {e : XPathId × NumericField} (hx : e.1 < 2 ^ 32) (h : e.2.Fits) :
    Reads numericField (writeNumericField e) (e.1, ⟨e.2.bkd, e.2.docValues⟩) := by
  have hbyte : e.2.bkd.kind.toByte < 256 ^ 1 := by
    cases e.2.bkd.kind with
    | int => decide
    | float => decide
  have hentries : e.2.docValues.entries.length < 2 ^ 32 := by
    rw [← e.2.agree.length_eq, length_map]
    exact h.count_lt
  have hpoint : ∀ p ∈ e.2.bkd.points, Reads readPair (writePair (p.1.toNat, p.2)) (p.1.toNat, p.2) :=
    fun p hp => reads_readPair ⟨p.1.isLt, h.docId_lt p hp⟩
  have hentry : ∀ v ∈ e.2.docValues.entries, Reads readPair (writePair (v.1, v.2.toNat)) (v.1, v.2.toNat) :=
    fun v hv => reads_readPair ⟨h.docId_lt (v.2, v.1) (NumericField.swap_mem_points.mpr hv), v.2.isLt⟩
  have hkind : ofOption "unknown numeric field kind" (NumericKind.fromByte e.2.bkd.kind.toByte) =
      .ok e.2.bkd.kind := by
    rw [fromByte_toByte]
    rfl
  have hbkd : Bkd.fromPacked e.2.bkd.kind ((e.2.bkd.points.map fun p => (p.1.toNat, p.2)).map
      fun p => (BitVec.ofNat 64 p.1, p.2)) = .ok e.2.bkd := by
    have hpoints : (e.2.bkd.points.map fun p => (p.1.toNat, p.2)).map
        (fun p => (BitVec.ofNat 64 p.1, p.2)) = e.2.bkd.points := by
      rw [map_map]
      exact (map_congr_left fun p _ => by simp).trans (map_id _)
    rw [hpoints, Bkd.fromPacked, dif_pos e.2.bkd.sorted]
  have hdocValues : DocValues.fromPacked e.2.bkd.kind ((e.2.docValues.entries.map
      fun v => (v.1, v.2.toNat)).map fun v => (v.1, BitVec.ofNat 64 v.2)) = .ok e.2.docValues := by
    have hvalues : (e.2.docValues.entries.map fun v => (v.1, v.2.toNat)).map
        (fun v => (v.1, BitVec.ofNat 64 v.2)) = e.2.docValues.entries := by
      rw [map_map]
      exact (map_congr_left fun v _ => by simp).trans (map_id _)
    rw [hvalues, DocValues.fromPacked, dif_pos e.2.docValues.sorted, e.2.kind_eq]
  exact (Reads.readUInt (w := 4) hx).bind ((Reads.readUInt hbyte).bind
    (Reads.lift_bind hkind ((Reads.readUInt (w := 4) h.count_lt).bind
      ((Reads.times hpoint).bind ((Reads.readUInt (w := 4) hentries).bind
        ((Reads.times hentry).bind_nil (Reads.lift_bind hbkd (Reads.lift_bind hdocValues (Reads.pure _)))))))))

theorem reads_numericFieldList {fields : NumericFields} (hsize : fields.fields.size < 2 ^ 32)
    (h : ∀ e ∈ fields.fields.entries, e.1 < 2 ^ 32 ∧ e.2.Fits) :
    Reads numericFieldList (writeNumericFields fields)
      (fields.fields.entries.map fun e => (e.1, ⟨e.2.bkd, e.2.docValues⟩)) :=
  Reads.counted hsize fun e he => reads_numericField (h e he).1 (h e he).2

variable {codec : SegmentCodec}

theorem reads_bitmapField {encoder : SegmentEncoder} {ids : Finset DocId}
    (hparse : codec.bitmap (encoder.bitmap ids) = .ok ids) (hlen : (encoder.bitmap ids).length < 2 ^ 64) :
    Reads (bitmapField codec) (writeBitmap encoder ids) ids := by
  refine (Reads.readUInt (w := 8) hlen).bind ((Reads.take (encoder.bitmap ids)).bind_nil ?_)
  rw [hparse]
  exact Reads.pure ids

theorem reads_boolFieldList {encoder : SegmentEncoder}
    {fields : SortedMap XPathId BoolField} (hsize : fields.size < 2 ^ 32)
    (hx : ∀ e ∈ fields.entries, e.1 < 2 ^ 32)
    (hread : ∀ e ∈ fields.entries, Reads (bitmapField codec) (writeBitmap encoder e.2.trueIds) e.2.trueIds ∧
      Reads (bitmapField codec) (writeBitmap encoder e.2.falseIds) e.2.falseIds) :
    Reads (boolFieldList codec) (writeBoolFields encoder fields) fields.entries := by
  have hfields := Reads.counted (r := boolField codec) (e := writeBoolField encoder) (f := id) (w := 4) hsize
    fun e he => (Reads.readUInt (w := 4) (hx e he)).bind ((hread e he).1.bind
      ((hread e he).2.bind_pure fun falseIds => (e.1, (⟨e.2.trueIds, falseIds⟩ : BoolField))))
  rwa [map_id] at hfields

theorem pushRow_parent (idx : ArrayRowIndex) (row : ArrayRowId) (doc : DocId) (parent : ArrayRowId) :
    (idx.pushRow row doc (if parent ≠ noParentRow then some parent else none)).parentRow =
      idx.parentRow ++ [parent] := by
  by_cases h : parent = noParentRow
  · rw [if_neg (not_not.mpr h), h]
    rfl
  · rw [if_pos h]
    rfl

variable {i : ℕ}

theorem reads_rowsFrom {base : ℕ} (rows : List (ℕ × ℕ)) {idx whole : ArrayRowIndex} (hi : idx.len = i)
    (hbase : idx.base = base) (hwhole : whole.base = base) (hdocs : whole.rowToDoc = idx.rowToDoc ++ rows.map Prod.fst)
    (hparents : whole.parentRow = idx.parentRow ++ rows.map Prod.snd)
    (hfits : ∀ row ∈ rows, row.1 < 2 ^ 64 ∧ row.2 < 2 ^ 64) (hids : base + whole.len ≤ 2 ^ 64) :
    Reads (rowsFrom base rows.length i idx) (rows.flatMap writePair) whole := by
  induction rows generalizing i idx with
  | nil =>
    have heq : idx = whole := by
      cases idx
      cases whole
      simp_all
    rw [heq]
    exact Reads.pure whole
  | cons row rows ih =>
    have hlen : whole.len = i + (rows.length + 1) := by
      rw [ArrayRowIndex.len, hdocs, length_append, length_map, length_cons, ← hi]
      rfl
    have hadd : add (2 ^ 64) base i = .ok (base + i) := add_of_lt (by omega)
    have hrow := hfits row mem_cons_self
    refine (reads_readPair hrow).bind (Reads.lift_bind hadd ?_)
    refine ih ?_ ?_ ?_ ?_ fun r hr => hfits r (mem_cons_of_mem row hr)
    · rw [← hi, ArrayRowIndex.len, ArrayRowIndex.pushRow, length_append]
      rfl
    · -- the first row of an empty table sets its base, to the one it has
      rw [ArrayRowIndex.pushRow]
      simp only
      split_ifs with hempty
      · rw [← hi, ArrayRowIndex.len, isEmpty_iff.mp hempty, length_nil, Nat.add_zero]
      · exact hbase
    · rw [hdocs, ArrayRowIndex.pushRow, append_assoc, singleton_append, map_cons]
    · rw [hparents, pushRow_parent, map_cons, append_assoc, singleton_append]

theorem reads_rowTable {idx : ArrayRowIndex} (hbase : idx.base < 2 ^ 64) (hcount : idx.len < 2 ^ 32)
    (hids : idx.base + idx.len ≤ 2 ^ 64) (hdocs : ∀ d ∈ idx.rowToDoc, d < 2 ^ 64)
    (hparents : ∀ p ∈ idx.parentRow, p < 2 ^ 64) : Reads rowTable (writeArrayRowIndex idx) idx := by
  have hlen : (idx.rowToDoc.zip idx.parentRow).length = idx.len := ArrayRowIndex.length_zip idx
  refine (Reads.readUInt (w := 8) hbase).bind ((Reads.readUInt (w := 4) hcount).bind ?_)
  rw [← hlen]
  refine reads_rowsFrom _ rfl rfl rfl ?_ ?_ (fun row hrow => ?_) hids
  · rw [map_fst_zip idx.length_eq.ge]
    rfl
  · rw [map_snd_zip idx.length_eq.le]
    rfl
  · obtain ⟨hd, hp⟩ := of_mem_zip hrow
    exact ⟨hdocs _ hd, hparents _ hp⟩

/-! ### Dictionaries -/

structure TermMeta.Fits (m : TermMeta) : Prop where
  offset_lt : m.postingsOffset < 2 ^ 64
  len_lt : m.postingsLen < 2 ^ 32
  docFreq_lt : m.docFreq < 2 ^ 32
  maxWeight_lt : m.maxWeight < 2 ^ 16

theorem reads_termMeta {m : TermMeta} (h : m.Fits) : Reads termMeta (writeMeta m) m :=
  (Reads.readUInt (w := 8) h.offset_lt).bind ((Reads.readUInt (w := 4) h.len_lt).bind
    ((Reads.readUInt (w := 4) h.docFreq_lt).bind ((Reads.readUInt (w := 2) h.maxWeight_lt).bind_pure
      fun weight => (⟨m.postingsOffset, m.postingsLen, m.docFreq, weight⟩ : TermMeta))))

theorem length_writeMeta (m : TermMeta) : (writeMeta m).length = termMetaLen := by
  simp [writeMeta, termMetaLen]

theorem length_writeMetas (metas : List TermMeta) :
    (metas.flatMap writeMeta).length = metas.length * termMetaLen := by
  induction metas with
  | nil => simp
  | cons m metas ih =>
    rw [flatMap_cons, length_append, ih, length_writeMeta, length_cons, Nat.succ_mul, Nat.add_comm]

structure FieldDict.Opens (codec : SegmentCodec) (dict : FieldDict) (map : Fst) : Prop where
  parse : codec.fst dict.fstBytes = .ok map
  metas_ne : dict.metas ≠ []
  count_lt : dict.metas.length < 2 ^ 32
  metas_fit : ∀ m ∈ dict.metas, m.Fits

theorem reads_dictionaryField {x : XPathId} {dict : FieldDict} {map : Fst}
    (hx : x < 2 ^ 32) (hlen : dict.fstBytes.length < 2 ^ 64) (h : dict.Opens codec map) :
    Reads (dictionaryField codec) (writeDictionaryField (x, dict)) (x, ⟨some map, dict.metas⟩) := by
  have hparts : TermDict.fromParts codec dict.fstBytes dict.metas = .ok ⟨some map, dict.metas⟩ := by
    rw [TermDict.fromParts, if_neg h.metas_ne, h.parse]
  have hmetas := Reads.times (f := id) fun m hm => reads_termMeta (h.metas_fit m hm)
  rw [map_id] at hmetas
  have hlast : Reads (lift (TermDict.fromParts codec dict.fstBytes dict.metas) >>=
      fun dict => Pure.pure (x, dict)) [] (x, ⟨some map, dict.metas⟩) := Reads.lift_bind hparts (Reads.pure _)
  exact (Reads.readUInt (w := 4) hx).bind ((Reads.readUInt (w := 4) h.count_lt).bind
    ((Reads.readUInt (w := 8) hlen).bind ((Reads.take dict.fstBytes).bind
      (Reads.check_remaining (hmetas.bind_nil hlast) (length_writeMetas dict.metas).ge _))))

theorem length_writeDictionaryField (f : XPathId × FieldDict) : 16 ≤ (writeDictionaryField f).length := by
  simp only [writeDictionaryField, length_append, length_leBytes]
  omega

theorem length_writeDictionary (fields : List (XPathId × FieldDict)) :
    fields.length * 16 ≤ (writeDictionary fields).length := by
  rw [writeDictionary, length_append]
  have hfields : fields.length * 16 ≤ (fields.flatMap writeDictionaryField).length := by
    induction fields with
    | nil => simp
    | cons f fields ih =>
      rw [flatMap_cons, length_append, length_cons]
      have := length_writeDictionaryField f
      omega
  omega

theorem reads_dictionaryFields {fields : List (XPathId × FieldDict)}
    {map : XPathId × FieldDict → Fst} (hcount : fields.length < 2 ^ 32)
    (h : ∀ f ∈ fields, f.1 < 2 ^ 32 ∧ f.2.fstBytes.length < 2 ^ 64 ∧ f.2.Opens codec (map f)) :
    Reads (dictionaryFields codec (writeDictionary fields).length) (writeDictionary fields)
      (fields.map fun f => (f.1, ⟨some (map f), f.2.metas⟩)) := by
  have hcheck : check "dictionary field count exceeds section size"
      (fields.length * 16 ≤ (writeDictionary fields).length) = .ok () :=
    if_pos (length_writeDictionary fields)
  exact (Reads.readUInt (w := 4) hcount).bind (Reads.lift_bind hcheck (Reads.times fun f hf =>
    reads_dictionaryField (h f hf).1 (h f hf).2.1 (h f hf).2.2))

/-! ### Footers -/

theorem numberAt_body (w : ℕ) (body bytes : ByteSeq) (k : ℕ) :
    numberAt w (body ++ bytes) (body.length + k) = numberAt w bytes k := by
  rw [numberAt, numberAt, drop_append, Nat.add_sub_cancel_left,
    drop_eq_nil_of_le (Nat.le_add_right _ _), nil_append]

variable {w n : ℕ}

theorem numberAt_here (h : n < 256 ^ w) (rest : ByteSeq) :
    numberAt w (leBytes w n ++ rest) 0 = n := by
  rw [numberAt, drop_zero, take_append_of_le_length (length_leBytes w n).ge,
    take_of_length_le (length_leBytes w n).le, leNat_leBytes_of_lt h]

theorem numberAt_skip {v m k : ℕ} {rest : ByteSeq} (h : numberAt w rest k = n) :
    numberAt w (leBytes v m ++ rest) (v + k) = n := by
  have hbody := numberAt_body w (leBytes v m) rest k
  rw [length_leBytes] at hbody
  rw [hbody, h]

structure SegmentFooter.Fits (f : SegmentFooter) : Prop where
  docLengths : f.docLengthsOffset < 2 ^ 64 ∧ f.docLengthsLen < 2 ^ 64
  dictionary : f.dictionaryOffset < 2 ^ 64 ∧ f.dictionaryLen < 2 ^ 64
  numericFields : f.numericFieldsOffset < 2 ^ 64 ∧ f.numericFieldsLen < 2 ^ 64
  arrayRowIndex : f.arrayRowIndexOffset < 2 ^ 64 ∧ f.arrayRowIndexLen < 2 ^ 64
  boolFields : f.boolFieldsOffset < 2 ^ 64 ∧ f.boolFieldsLen < 2 ^ 64
  termCount : f.termCount < 2 ^ 32
  range : f.minDocId < 2 ^ 64 ∧ f.maxDocId < 2 ^ 64

def footerNumbers (f : SegmentFooter) : List (ℕ × ℕ) :=
  [(8, f.docLengthsOffset), (8, f.docLengthsLen), (8, f.dictionaryOffset), (8, f.dictionaryLen),
    (8, f.numericFieldsOffset), (8, f.numericFieldsLen), (4, f.termCount), (8, f.minDocId), (8, f.maxDocId),
    (8, f.arrayRowIndexOffset), (8, f.arrayRowIndexLen), (8, f.boolFieldsOffset), (8, f.boolFieldsLen)]

theorem writeFooter_eq (f : SegmentFooter) :
    writeFooter f = (footerNumbers f).flatMap fun e => leBytes e.1 e.2 := by
  simp only [writeFooter, footerNumbers, flatMap_cons, flatMap_nil, append_nil]

theorem length_writeFooter (f : SegmentFooter) : (writeFooter f).length = footerLen := by
  simp [writeFooter, footerLen]

theorem numberAt_numbers {l : List (ℕ × ℕ)} (hi : l[i]? = some (w, n)) (hn : n < 256 ^ w) :
    numberAt w (l.flatMap fun e => leBytes e.1 e.2) ((l.take i).map Prod.fst).sum = n := by
  induction l generalizing i with
  | nil => cases hi
  | cons e l ih =>
    rw [flatMap_cons]
    cases i with
    | zero =>
      cases hi
      exact numberAt_here hn _
    | succ i =>
      rw [take_succ_cons, map_cons, sum_cons]
      exact numberAt_skip (ih hi)

theorem readFooter_writeFooter {body : ByteSeq} {f : SegmentFooter} (h : f.Fits)
    (hlt : (body ++ writeFooter f).length < 2 ^ 63) : readFooter (body ++ writeFooter f) = .ok f := by
  have hlen : (body ++ writeFooter f).length = body.length + footerLen := by
    rw [length_append, length_writeFooter]
  have hnumber : ∀ {w n : ℕ} (i k : ℕ), (footerNumbers f)[i]? = some (w, n) → n < 256 ^ w →
      (((footerNumbers f).take i).map Prod.fst).sum = k → numberAt w (writeFooter f) k = n := by
    intro w n i k hi hn hk
    rw [writeFooter_eq, ← hk]
    exact numberAt_numbers hi hn
  rw [readFooter_eq (hlen ▸ Nat.le_add_left _ _) hlt, hlen, Nat.add_sub_cancel]
  simp only [numberAt_body]
  refine congrArg ok (SegmentFooter.ext ?_ ?_ ?_ ?_ ?_ ?_ ?_ ?_ ?_ ?_ ?_ ?_ ?_)
  · exact hnumber 0 0 rfl h.docLengths.1 (by simp [footerNumbers])
  · exact hnumber 1 8 rfl h.docLengths.2 (by simp [footerNumbers])
  · exact hnumber 2 16 rfl h.dictionary.1 (by simp [footerNumbers])
  · exact hnumber 3 24 rfl h.dictionary.2 (by simp [footerNumbers])
  · exact hnumber 4 32 rfl h.numericFields.1 (by simp [footerNumbers])
  · exact hnumber 5 40 rfl h.numericFields.2 (by simp [footerNumbers])
  · exact hnumber 9 68 rfl h.arrayRowIndex.1 (by simp [footerNumbers])
  · exact hnumber 10 76 rfl h.arrayRowIndex.2 (by simp [footerNumbers])
  · exact hnumber 6 48 rfl h.termCount (by simp [footerNumbers])
  · exact hnumber 7 52 rfl h.range.1 (by simp [footerNumbers])
  · exact hnumber 8 60 rfl h.range.2 (by simp [footerNumbers])
  · exact hnumber 11 84 rfl h.boolFields.1 (by simp [footerNumbers])
  · exact hnumber 12 92 rfl h.boolFields.2 (by simp [footerNumbers])

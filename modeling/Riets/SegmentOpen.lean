/-
A segment file that was written is opened.

`Segment.Fits` says that the counts and ids of a segment have the widths of the file.
-/
import Riets.SegmentTerms
import Mathlib.Algebra.Order.BigOperators.Group.List

open Fallible Cursor List SortedMap

structure Segment.Fits (s : Segment) : Prop where
  lists : ∀ e ∈ s.terms.entries, e.2.Fits
  termXPaths : ∀ e ∈ s.terms.entries, e.1.xpath < 2 ^ 32
  termCount : s.terms.size < 2 ^ 32
  lengthCount : s.docLengths.size < 2 ^ 32
  lengths : ∀ e ∈ s.docLengths.entries, (ofLex e.1).1 < 2 ^ 64 ∧ (ofLex e.1).2 < 2 ^ 32 ∧ e.2 < 2 ^ 32
  numericCount : s.numericFields.fields.size < 2 ^ 32
  numerics : ∀ e ∈ s.numericFields.fields.entries, e.1 < 2 ^ 32 ∧ e.2.Fits
  boolCount : s.boolFields.size < 2 ^ 32
  bools : ∀ e ∈ s.boolFields.entries, e.1 < 2 ^ 32 ∧ (∀ d ∈ e.2.trueIds, d < 2 ^ 64) ∧
    ∀ d ∈ e.2.falseIds, d < 2 ^ 64
  rowBase : s.arrayRowIndex.base < 2 ^ 64
  rowCount : s.arrayRowIndex.len < 2 ^ 32
  rowIds : s.arrayRowIndex.base + s.arrayRowIndex.len ≤ 2 ^ 64
  rowDocs : ∀ d ∈ s.arrayRowIndex.rowToDoc, d < 2 ^ 64
  rowParents : ∀ p ∈ s.arrayRowIndex.parentRow, p < 2 ^ 64
  docRange : (s.docIdRange.getD (0, 0)).1 < 2 ^ 64 ∧ (s.docIdRange.getD (0, 0)).2 < 2 ^ 64

theorem Segment.Fits.triples {s : Segment} (h : s.Fits) :
    (∀ e ∈ s.docLengths.entries.map lengthTriple, e.1 < 2 ^ 64) ∧
      (s.docLengths.entries.map lengthTriple).length < 2 ^ 60 := by
  rw [forall_mem_map, length_map]
  exact ⟨fun e he => (h.lengths e he).1, h.lengthCount.trans (by decide)⟩

theorem sectionBytes_between (before bytes behind : ByteSeq) :
    sectionBytes (before ++ bytes ++ behind) before.length bytes.length = bytes := by
  rw [append_assoc, sectionBytes_middle]

theorem validateSection_ok {bytes : ByteSeq} (hfooter : footerLen ≤ bytes.length)
    (hlt : bytes.length < 2 ^ 63) {offset len : ℕ} (hstart : headerLen ≤ offset)
    (hin : offset + len ≤ bytes.length - footerLen) (overflow : String) (early : Option String)
    (outside : String) : validateSection bytes offset len overflow early outside = .ok () := by
  have hover : check overflow (offset + len < 2 ^ 64) = .ok () := if_pos (by omega)
  have hearly : validateStart offset early = .ok () := by
    cases early with
    | none => rfl
    | some message => exact if_pos hstart
  rw [validateSection, hover, ok_bind, hearly, ok_bind, sub_of_le hfooter, ok_bind, check, if_pos hin]

theorem runReader_whole {α : Type} {r : CursorReader α} {bytes : ByteSeq} {a : α} (h : Reads r bytes a)
    (hlt : bytes.length < 2 ^ 63) : runReader r bytes = .ok a := by
  rw [runReader, h.whole hlt]
  rfl

theorem byXPath_entries {α : Type} (fields : SortedMap XPathId α) : byXPath fields.entries = fields :=
  extend_entries fields

/-! ### The file -/

def footerOf (s : Segment) (out lengths dictionary numbers rows bools : ByteSeq) (termCount : ℕ) : SegmentFooter where
  docLengthsOffset := out.length
  docLengthsLen := lengths.length
  dictionaryOffset := (out ++ lengths).length
  dictionaryLen := dictionary.length
  numericFieldsOffset := (out ++ lengths ++ dictionary).length
  numericFieldsLen := numbers.length
  arrayRowIndexOffset := (out ++ lengths ++ dictionary ++ numbers).length
  arrayRowIndexLen := rows.length
  termCount := termCount
  minDocId := (s.docIdRange.getD (0, 0)).1
  maxDocId := (s.docIdRange.getD (0, 0)).2
  boolFieldsOffset := (out ++ lengths ++ dictionary ++ numbers ++ rows).length
  boolFieldsLen := bools.length

theorem writeSections_eq (encoder : SegmentEncoder) (s : Segment) (out : ByteSeq)
    (fields : List (XPathId × FieldDict)) (termCount : ℕ) :
    writeSections encoder s out fields termCount =
      out ++ writeDocLengths s.docLengths ++ writeDictionary fields ++ writeNumericFields s.numericFields ++
        writeArrayRowIndex s.arrayRowIndex ++ writeBoolFields encoder s.boolFields ++
        writeFooter (footerOf s out (writeDocLengths s.docLengths) (writeDictionary fields)
          (writeNumericFields s.numericFields) (writeArrayRowIndex s.arrayRowIndex)
          (writeBoolFields encoder s.boolFields) termCount) := by
  simp only [writeSections, footerOf, length_append, Nat.add_sub_cancel_left]

structure Written (s : Segment) (bytes out lengths dictionary numbers rows bools : ByteSeq) (termCount : ℕ) :
    Prop where
  bytes_eq : bytes = out ++ lengths ++ dictionary ++ numbers ++ rows ++ bools ++
    writeFooter (footerOf s out lengths dictionary numbers rows bools termCount)
  length_lt : bytes.length < 2 ^ 63
  header : writeHeader <+: out
  termCount_lt : termCount < 2 ^ 32
  range : (s.docIdRange.getD (0, 0)).1 < 2 ^ 64 ∧ (s.docIdRange.getD (0, 0)).2 < 2 ^ 64
  empty : termCount = 0 → dictionary.length = 4

namespace Written

open List

variable {s : Segment} {bytes out lengths dictionary numbers rows bools : ByteSeq} {termCount : ℕ}

section

variable (h : Written s bytes out lengths dictionary numbers rows bools termCount)
include h

theorem length_eq :
    bytes.length = out.length + lengths.length + dictionary.length + numbers.length + rows.length +
      bools.length + 100 := by
  rw [h.bytes_eq]
  simp only [length_append, length_writeFooter]
  rfl

theorem length_out :
    12 ≤ out.length := h.header.length_le

theorem footer_fits :
    (footerOf s out lengths dictionary numbers rows bools termCount).Fits := by
  have hlen := h.length_eq
  have hlt := h.length_lt
  refine ⟨?_, ?_, ?_, ?_, ?_, h.termCount_lt, h.range⟩
  · simp only [footerOf]
    omega
  · simp only [footerOf, length_append]
    omega
  · simp only [footerOf, length_append]
    omega
  · simp only [footerOf, length_append]
    omega
  · simp only [footerOf, length_append]
    omega

theorem readFooter_eq :
    readFooter bytes = .ok (footerOf s out lengths dictionary numbers rows bools termCount) := by
  have hlt := h.length_lt
  rw [h.bytes_eq] at hlt ⊢
  exact readFooter_writeFooter h.footer_fits hlt

theorem validateHeader_eq :
    validateHeader bytes = .ok () := by
  have hlen := h.length_eq
  have hout := h.length_out
  have hlt := h.length_lt
  obtain ⟨body, hbody⟩ := h.header
  obtain ⟨behind, hbytes⟩ : ∃ behind, bytes = segmentMagic ++ (leBytes 4 segmentVersion ++ behind) := by
    refine ⟨body ++ (lengths ++ dictionary ++ numbers ++ rows ++ bools ++
      writeFooter (footerOf s out lengths dictionary numbers rows bools termCount)), ?_⟩
    rw [h.bytes_eq, ← hbody, writeHeader]
    simp only [append_assoc]
  have hmagic : slice bytes 0 8 = .ok segmentMagic := by
    rw [slice_of_le (by decide) (by omega), hbytes]
    rfl
  have hversion : readUIntAt 4 bytes 8 = .ok segmentVersion := by
    rw [readUIntAt_ok (by omega) hlt, hbytes]
    have hskip := numberAt_body 4 segmentMagic (leBytes 4 segmentVersion ++ behind) 0
    rw [numberAt_here (by decide)] at hskip
    exact congrArg ok hskip
  rw [validateHeader, if_neg (by rw [show footerLen = 100 from rfl]; omega), hmagic, ok_bind,
    if_neg (not_not.mpr rfl), hversion, ok_bind, check, if_pos rfl]

theorem validateFooter_eq :
    validateFooter bytes (footerOf s out lengths dictionary numbers rows bools termCount) = .ok () := by
  have hlen := h.length_eq
  have hout := h.length_out
  have hlt := h.length_lt
  have hfooter : footerLen ≤ bytes.length := by
    rw [show footerLen = 100 from rfl]
    omega
  have hvalid : ∀ (offset len : ℕ) (overflow : String) (early : Option String) (outside : String),
      12 ≤ offset → offset + len + 100 ≤ bytes.length →
        validateSection bytes offset len overflow early outside = .ok () := by
    intro offset len overflow early outside hstart hin
    refine validateSection_ok hfooter hlt hstart ?_ _ _ _
    rw [show footerLen = 100 from rfl]
    omega
  have hempty : ¬ (termCount = 0 ∧ dictionary.length ≠ 4) := fun hne => hne.2 (h.empty hne.1)
  simp only [validateFooter, footerOf]
  rw [hvalid _ _ _ _ _ (by simp only [length_append]; omega) (by simp only [length_append]; omega),
    ok_bind, hvalid _ _ _ _ _ (by simp only [length_append]; omega) (by simp only [length_append]; omega),
    ok_bind, hvalid _ _ _ _ _ (by simp only [length_append]; omega) (by simp only [length_append]; omega),
    ok_bind, hvalid _ _ _ _ _ (by simp only [length_append]; omega) (by simp only [length_append]; omega),
    ok_bind]
  exact if_pos hempty

theorem readSection_eq
    (before body behind : ByteSeq) (hsplit : bytes = before ++ body ++ behind)
    (hbehind : footerLen ≤ behind.length) (overflow outside : String) :
    readSection bytes (sub bytes.length footerLen) before.length body.length overflow outside = .ok body ∧
      readSection bytes (.ok bytes.length) before.length body.length overflow outside = .ok body := by
  have hlt := h.length_lt
  have hlen := congrArg length hsplit
  simp only [length_append] at hlen
  rw [sub_of_le (by omega)]
  constructor
  · rw [readSection_ok hlt (Nat.sub_le _ _) (by omega), hsplit, sectionBytes_between]
  · rw [readSection_ok hlt le_rfl (by omega), hsplit, sectionBytes_between]

end

end Written

/-! ### The dictionary -/

theorem exists_of_mem_right {α β : Type} {R : α → β → Prop} {as : List α} {bs : List β}
    (h : Forall₂ R as bs) {b : β} (hb : b ∈ bs) : ∃ a ∈ as, R a b := by
  induction h with
  | nil => cases hb
  | @cons a b' as bs hr _ ih =>
    rcases mem_cons.mp hb with rfl | hb
    · exact ⟨a, mem_cons_self, hr⟩
    · obtain ⟨a', ha', hr'⟩ := ih hb
      exact ⟨a', mem_cons_of_mem a ha', hr'⟩

theorem length_groupTerms (groups : List TermGroup) :
    (groupTerms groups).length = (groups.map fun g => g.2.length).sum := by
  induction groups with
  | nil => rfl
  | cons g groups ih =>
    rw [groupTerms, flatMap_cons, length_append, length_map, map_cons, sum_cons, ← ih, groupTerms]

namespace Grouped

open List

variable {codec : SegmentCodec} {encoder : SegmentEncoder} {out : ByteSeq}
  {terms : List (TermKey × PostingList)} {fields : List (XPathId × FieldDict)} {groups : List TermGroup}

section

variable (h : Grouped codec out terms fields groups)
include h

theorem describes {g : TermGroup} (hg : g ∈ groups)
    {e : String × TermMeta} (he : e ∈ g.2) :
    ∃ t ∈ terms, t.1 = ⟨g.1, e.1⟩ ∧ Describes out e.2 t.2 :=
  exists_of_mem_right h.lists (mem_flatMap.mpr ⟨g, hg, mem_map.mpr ⟨e, he, rfl⟩⟩)

theorem group_of_mem {f : XPathId × FieldDict} (hf : f ∈ fields) :
    ∃ g ∈ groups, f.1 = g.1 ∧ f.2.Holds codec g.2 := by
  obtain ⟨g, hg, hR⟩ := exists_of_mem_right h.fields_hold.flip hf
  exact ⟨g, hg, hR⟩

theorem length_terms :
    (fields.map fun f => f.2.metas.length).sum = terms.length := by
  have hlen : terms.length = (groupTerms groups).length := Forall₂.length_eq h.lists
  rw [hlen, length_groupTerms]
  have hfields := h.fields_hold
  clear h hlen
  induction hfields with
  | nil => rfl
  | cons hd _ ih => rw [map_cons, map_cons, sum_cons, sum_cons, ih, hd.2.metas_eq, length_map]

theorem length_fields_le : fields.length ≤ terms.length := by
  have hone : ∀ f ∈ fields, 1 ≤ f.2.metas.length := by
    intro f hf
    obtain ⟨g, hg, -, hholds⟩ := h.group_of_mem hf
    rw [hholds.metas_eq, length_map]
    exact length_pos_iff.mpr (h.groups_ne g hg)
  rw [← h.length_terms]
  clear h
  induction fields with
  | nil => exact Nat.zero_le _
  | cons f fields ih =>
    have hhead := hone f mem_cons_self
    have htail := ih fun f' hf' => hone f' (mem_cons_of_mem f hf')
    rw [length_cons, map_cons, sum_cons]
    omega

theorem opens (hlt : out.length < 2 ^ 63)
    (hfits : ∀ e ∈ terms, e.2.Fits) (hxpaths : ∀ e ∈ terms, e.1.xpath < 2 ^ 32) (hcount : terms.length < 2 ^ 32)
    {f : XPathId × FieldDict} (hf : f ∈ fields) : f.1 < 2 ^ 32 ∧ f.2.Opens codec (f.2.fst codec) := by
  obtain ⟨g, hg, hx, hholds⟩ := h.group_of_mem hf
  have hne := h.groups_ne g hg
  constructor
  · obtain ⟨e, he⟩ := exists_mem_of_ne_nil _ hne
    obtain ⟨t, ht, hkey, -⟩ := h.describes hg he
    have hlt := hxpaths t ht
    rw [hkey] at hlt
    rw [hx]
    exact hlt
  · refine ⟨hholds.parse, ?_, ?_, ?_⟩
    · rw [hholds.metas_eq]
      exact fun hnil => hne (map_eq_nil_iff.mp hnil)
    · have hsum : f.2.metas.length ≤ (fields.map fun f => f.2.metas.length).sum :=
        le_sum_of_mem (mem_map_of_mem hf)
      rw [h.length_terms] at hsum
      omega
    · intro m hm
      rw [hholds.metas_eq] at hm
      obtain ⟨e, he, rfl⟩ := mem_map.mp hm
      obtain ⟨t, ht, -, hdescribes⟩ := h.describes hg he
      have hinside := hdescribes.inside
      refine ⟨by omega, hdescribes.len_lt, ?_, ?_⟩
      · rw [hdescribes.docFreq_eq]
        exact hdescribes.docFreq_lt
      · rw [hdescribes.maxWeight_eq]
        exact (hfits t ht).maxWeight_lt

end

end Grouped

theorem length_fst_le {fields : List (XPathId × FieldDict)} {f : XPathId × FieldDict} (hf : f ∈ fields) :
    f.2.fstBytes.length ≤ (writeDictionary fields).length := by
  obtain ⟨before, behind, rfl⟩ := append_of_mem hf
  simp only [writeDictionary, writeDictionaryField, flatMap_append, flatMap_cons, length_append]
  omega

theorem entries_byXPath {α : Type} {fields : List (XPathId × α)} (hasc : Keyed.Ascending Prod.fst fields) :
    (byXPath fields).entries = fields :=
  congrArg entries (extend_entries ⟨fields, hasc⟩)

structure DiskSegment.Opened (codec : SegmentCodec) (d : DiskSegment) (s : Segment) (groups : List TermGroup) :
    Prop where
  terms : d.HasTerms codec s.terms.entries groups
  fields : ∃ fields, d.dictionary.entries = readBack codec fields ∧
    Forall₂ (fun f g => f.1 = g.1 ∧ f.2.Holds codec g.2) fields groups
  lengths : ∀ (doc : ℕ) (x : XPathId), d.docLengths.get doc x =
    (FieldLengths.lastLen (DocLengths.docsOf (s.docLengths.entries.map lengthTriple) x) doc).filter fun len =>
      !(decide (FieldLengths.Dense (DocLengths.docsOf (s.docLengths.entries.map lengthTriple) x)) &&
        len = u32Max)
  stats : ∃ list, d.docLengths.iter = .ok list ∧ d.fieldStats = Segment.buildFieldStats list
  numbers : d.numericFields = s.numericFields.fields.map fun f => ⟨f.bkd, f.docValues⟩
  bools : d.boolFields = s.boolFields
  rows : d.arrayRowIndex = s.arrayRowIndex

section

variable {codec : SegmentCodec} {encoder : SegmentEncoder} (laws : RoundTrips codec encoder) {s : Segment}

include laws

theorem writeSegmentTo_spec (h : s.Fits)
    (hlt : ∀ bytes, writeSegmentTo codec encoder s = .ok bytes → bytes.length < 2 ^ 63) :
    ∃ bytes out fields groups, writeSegmentTo codec encoder s = .ok bytes ∧
      Grouped codec out s.terms.entries fields groups ∧
      Written s bytes out (writeDocLengths s.docLengths) (writeDictionary fields)
        (writeNumericFields s.numericFields) (writeArrayRowIndex s.arrayRowIndex)
        (writeBoolFields encoder s.boolFields) s.terms.entries.length := by
  obtain ⟨blobs, w, hpush, hpushed⟩ := @FieldWriter.pushAll_spec writeHeader [] codec encoder laws FieldWriter.new _
    (.inl ⟨rfl, rfl⟩) s.terms.ascending h.lists h.termCount
  rw [nil_append] at hpushed
  obtain ⟨fields, groups, hfinish, hgrouped⟩ := FieldWriter.finish_spec laws hpushed s.terms.ascending
  have hwrite : writeSegmentTo codec encoder s =
      .ok (writeSections encoder s (writeHeader ++ blobs) fields s.terms.entries.length) := by
    rw [writeSegmentTo, hpush, ok_bind]
    simp only
    rw [hfinish, ok_bind, pure_eq]
  refine ⟨_, writeHeader ++ blobs, fields, groups, hwrite, hgrouped, writeSections_eq _ _ _ _ _,
    hlt _ hwrite, prefix_append _ _, h.termCount, h.docRange, ?_⟩
  intro hzero
  have hle := hgrouped.length_fields_le
  rw [hzero] at hle
  rw [length_eq_zero_iff.mp (Nat.le_zero.mp hle)]
  rfl

end

/-! ### What is read back -/

/-- The sections of the segment `s`, with the dictionary `fields` and a footer. -/
abbrev SectionsOf (encoder : SegmentEncoder) (s : Segment) (bytes out : ByteSeq)
    (fields : List (XPathId × FieldDict)) : Prop :=
  Written s bytes out (writeDocLengths s.docLengths) (writeDictionary fields)
    (writeNumericFields s.numericFields) (writeArrayRowIndex s.arrayRowIndex)
    (writeBoolFields encoder s.boolFields) s.terms.entries.length

abbrev footerFor (encoder : SegmentEncoder) (s : Segment) (out : ByteSeq)
    (fields : List (XPathId × FieldDict)) : SegmentFooter :=
  footerOf s out (writeDocLengths s.docLengths) (writeDictionary fields)
    (writeNumericFields s.numericFields) (writeArrayRowIndex s.arrayRowIndex)
    (writeBoolFields encoder s.boolFields) s.terms.entries.length

section

variable {codec : SegmentCodec} {encoder : SegmentEncoder} {s : Segment} {bytes out : ByteSeq}
  {fields : List (XPathId × FieldDict)} {groups : List TermGroup}

section

variable (hw : SectionsOf encoder s bytes out fields)
include hw

theorem readDocLengths_written (h : s.Fits) : readDocLengths bytes (footerFor encoder s out fields) =
    DocLengths.fromEntries (s.docLengths.entries.map lengthTriple) := by
  have hshort := hw.length_lt
  have hlength := hw.length_eq
  have hsection := (hw.readSection_eq out (writeDocLengths s.docLengths)
    (writeDictionary fields ++ writeNumericFields s.numericFields ++
      writeArrayRowIndex s.arrayRowIndex ++ writeBoolFields encoder s.boolFields ++
      writeFooter (footerFor encoder s out fields)) (by rw [hw.bytes_eq]; simp only [append_assoc])
    (by simp only [length_append, length_writeFooter]; omega)
    "doc lengths offset overflow" "doc lengths outside segment bounds").1
  rw [readDocLengths]
  simp only [footerOf]
  rw [hsection, ok_bind, runReader_whole (reads_lengthEntries h.lengthCount h.lengths) (by omega), ok_bind]

theorem readTermDictionary_written (h : s.Fits)
    (hgrouped : Grouped codec out s.terms.entries fields groups) :
    readTermDictionary codec bytes (footerFor encoder s out fields) = .ok (byXPath (readBack codec fields)) := by
  have hshort := hw.length_lt
  have hlength := hw.length_eq
  have hsection := (hw.readSection_eq (out ++ writeDocLengths s.docLengths) (writeDictionary fields)
    (writeNumericFields s.numericFields ++ writeArrayRowIndex s.arrayRowIndex ++
      writeBoolFields encoder s.boolFields ++ writeFooter (footerFor encoder s out fields))
    (by rw [hw.bytes_eq]; simp only [append_assoc])
    (by simp only [length_append, length_writeFooter]; omega)
    "dictionary offset overflow" "dictionary outside segment bounds").1
  have hfields : ∀ f ∈ fields, f.1 < 2 ^ 32 ∧ f.2.fstBytes.length < 2 ^ 64 ∧
      f.2.Opens codec (f.2.fst codec) := by
    intro f hf
    have hle := length_fst_le hf
    obtain ⟨hx, hopens⟩ := hgrouped.opens (by omega) h.lists h.termXPaths h.termCount hf
    exact ⟨hx, by omega, hopens⟩
  have hcount : fields.length < 2 ^ 32 := lt_of_le_of_lt hgrouped.length_fields_le h.termCount
  have hreads := reads_dictionaryFields hcount hfields
  have hsum : ((readBack codec fields).map fun f => f.2.metas.length).sum = s.terms.entries.length := by
    rw [readBack, map_map]
    exact hgrouped.length_terms
  have hcheck : check "dictionary term count mismatch"
      (((readBack codec fields).map fun f => f.2.metas.length).sum = s.terms.entries.length) = .ok () :=
    if_pos hsum
  rw [readTermDictionary]
  simp only [footerOf]
  rw [hsection, ok_bind, runReader_whole hreads (by omega), ok_bind]
  exact congrArg (fun o : Fallible Unit => o >>= fun _ => ok (byXPath (readBack codec fields))) hcheck

theorem readNumericFields_written (h : s.Fits) :
    readNumericFields bytes (footerFor encoder s out fields) =
      .ok (s.numericFields.fields.map fun f => ⟨f.bkd, f.docValues⟩) := by
  have hshort := hw.length_lt
  have hlength := hw.length_eq
  have hsection := (hw.readSection_eq
    (out ++ writeDocLengths s.docLengths ++ writeDictionary fields) (writeNumericFields s.numericFields)
    (writeArrayRowIndex s.arrayRowIndex ++ writeBoolFields encoder s.boolFields ++
      writeFooter (footerFor encoder s out fields)) (by rw [hw.bytes_eq]; simp only [append_assoc])
    (by simp only [length_append, length_writeFooter]; omega)
    "numeric fields offset overflow" "numeric fields outside segment bounds").1
  rw [readNumericFields]
  simp only [footerOf]
  rw [hsection, ok_bind, runReader_whole (reads_numericFieldList h.numericCount h.numerics) (by omega), ok_bind]
  exact congrArg ok (byXPath_entries
    (s.numericFields.fields.map fun f => (⟨f.bkd, f.docValues⟩ : StoredNumericField)))

theorem readArrayRowIndex_written (h : s.Fits) :
    readArrayRowIndex bytes (footerFor encoder s out fields) = .ok s.arrayRowIndex := by
  have hshort := hw.length_lt
  have hlength := hw.length_eq
  have hsection := (hw.readSection_eq
    (out ++ writeDocLengths s.docLengths ++ writeDictionary fields ++ writeNumericFields s.numericFields)
    (writeArrayRowIndex s.arrayRowIndex)
    (writeBoolFields encoder s.boolFields ++ writeFooter (footerFor encoder s out fields))
    (by rw [hw.bytes_eq]; simp only [append_assoc])
    (by simp only [length_append, length_writeFooter]; omega)
    "array row index offset overflow" "array row index outside segment bounds").2
  rw [readArrayRowIndex]
  simp only [footerOf]
  rw [hsection, ok_bind]
  exact runReader_whole (reads_rowTable h.rowBase h.rowCount h.rowIds h.rowDocs h.rowParents) (by omega)

end

theorem length_bitmap_le {bools : SortedMap XPathId BoolField} {e : XPathId × BoolField} (he : e ∈ bools.entries) :
    (encoder.bitmap e.2.trueIds).length ≤ (writeBoolFields encoder bools).length ∧
      (encoder.bitmap e.2.falseIds).length ≤ (writeBoolFields encoder bools).length := by
  obtain ⟨before, behind, hsplit⟩ := append_of_mem he
  rw [writeBoolFields, hsplit]
  simp only [writeBoolField, writeBitmap, flatMap_append, flatMap_cons, length_append]
  omega

theorem readBoolPoints_written (laws : RoundTrips codec encoder) (hw : SectionsOf encoder s bytes out fields)
    (h : s.Fits) : readBoolPoints codec bytes (footerFor encoder s out fields) = .ok s.boolFields := by
  have hshort := hw.length_lt
  have hlength := hw.length_eq
  have hsection := (hw.readSection_eq _ _ _ hw.bytes_eq (by rw [length_writeFooter])
    "bool fields offset overflow" "bool fields outside segment bounds").1
  have hfields := reads_boolFieldList h.boolCount
    (fun e he => (h.bools e he).1) (fun e he => by
      obtain ⟨-, htrue, hfalse⟩ := h.bools e he
      obtain ⟨htrue', hfalse'⟩ := @length_bitmap_le encoder _ _ he
      exact ⟨reads_bitmapField (laws.bitmap _ htrue) (by omega),
        reads_bitmapField (laws.bitmap _ hfalse) (by omega)⟩)
  rw [readBoolPoints]
  simp only [footerOf]
  rw [hsection, ok_bind, runReader_whole hfields (by omega), ok_bind]
  exact congrArg ok (byXPath_entries s.boolFields)

theorem open_written (laws : RoundTrips codec encoder) (h : s.Fits)
    (hlt : ∀ bytes, writeSegmentTo codec encoder s = .ok bytes → bytes.length < 2 ^ 63) :
    ∃ bytes d groups, writeSegmentTo codec encoder s = .ok bytes ∧ DiskSegment.open codec bytes = .ok d ∧
      d.Opened codec s groups := by
  obtain ⟨bytes, out, fields, groups, hwrite, hgrouped, hw⟩ := writeSegmentTo_spec laws h hlt
  obtain ⟨lengths, list, hlengths, hiter, hget⟩ := DocLengths.fromEntries_spec h.triples.1 h.triples.2
  have hopen : ∃ d, DiskSegment.open codec bytes = .ok d ∧ d.mmap = bytes ∧
      d.dictionary = byXPath (readBack codec fields) ∧ d.docLengths = lengths ∧
      d.fieldStats = Segment.buildFieldStats list ∧
      d.numericFields = s.numericFields.fields.map (fun f => ⟨f.bkd, f.docValues⟩) ∧
      d.boolFields = s.boolFields ∧ d.arrayRowIndex = s.arrayRowIndex := by
    rw [DiskSegment.open, hw.validateHeader_eq, ok_bind, hw.readFooter_eq, ok_bind, hw.validateFooter_eq,
      ok_bind, readDocLengths_written hw h, hlengths, ok_bind, hiter, ok_bind, readTermDictionary_written hw h hgrouped, ok_bind,
      readNumericFields_written hw h, ok_bind, readBoolPoints_written laws hw h, ok_bind,
      readArrayRowIndex_written hw h, ok_bind]
    exact ⟨_, rfl, rfl, rfl, rfl, rfl, rfl, rfl, rfl⟩
  obtain ⟨d, hd, hmmap, hdict, hlens, hstats, hnumbers, hbools, hrows⟩ := hopen
  have hanswers := hgrouped.answers laws
  have hentries : d.dictionary.entries = readBack codec fields := by
    rw [hdict, entries_byXPath (hanswers.ascending hgrouped.ascending)]
  refine ⟨bytes, d, groups, hwrite, hd, ?_, ⟨fields, hentries, hgrouped.fields_hold⟩, ?_, ?_, hnumbers,
    hbools, hrows⟩
  · refine ⟨?_, hgrouped.ascending, ?_, ?_, h.lists⟩
    · rw [hentries]
      exact hanswers
    · rw [hmmap, hw.bytes_eq]
      simp only [append_assoc]
      exact hgrouped.lists.append _
    · rw [hmmap]
      exact hw.length_lt
  · intro doc x
    rw [hlens]
    exact hget doc x
  · rw [hlens]
    exact ⟨list, hiter, hstats⟩

end

/-
A segment file answers as the record that opening it builds.

An index works with `Segment.openWritten`, what writing and opening leave of a segment: the
statistics come from the lengths, and the id range is the footer's, or none in a file without
terms and numbers.  In the file stand bytes: they open, and what is read from them is what that
record gives.
-/
import Riets.FieldLengths
import Riets.WildcardDisk

open Fallible List SortedMap

namespace DiskSegment

structure ReadsAs (codec : SegmentCodec) (d : DiskSegment) (s : Segment) : Prop where
  lookup : ∀ term x, d.lookup term x = .ok ⟨(s.lookup term x).items, (s.lookup term x).maxWeight⟩
  docFreq : ∀ term x, d.docFreq term x = s.docFreq term x
  iterTerms : d.iterTerms codec = .ok (s.terms.entries.map fun e => (e.1, ⟨e.2.items, e.2.maxWeight⟩))
  terms : ∀ x, d.terms codec x = (s.terms.entries.filter fun e => e.1.xpath = x).map fun e => e.1.term
  lookupPrefix : ∀ start x, d.lookupPrefix codec start x = .ok (s.lookupPrefix start x)
  lookupWildcard : ∀ pattern x, d.lookupWildcard codec pattern x = .ok (s.lookupWildcard pattern x)
  docLen : ∀ doc x, d.docLen doc x = s.docLen doc x
  docCount : ∀ x, d.docCount x = s.docCount x
  totalDocLen : ∀ x, d.totalDocLen x = s.totalDocLen x
  numericRange : ∀ x lo hi, d.numericRange x lo hi = .ok (s.numericRange x lo hi)
  numericValue : ∀ x doc, d.numericValue x doc = s.numericValue x doc
  boolTrueIds : ∀ x, d.boolTrueIds x = s.boolTrueIds x
  boolFalseIds : ∀ x, d.boolFalseIds x = s.boolFalseIds x
  docIdRange : d.docIdRange = s.docIdRange
  docOfRow : ∀ row, d.docOfRow row = s.docOfRow row
  parentOfRow : ∀ row, d.parentOfRow row = s.parentOfRow row

theorem readPostings_eq {d : DiskSegment} (hlt : d.mmap.length < 2 ^ 63) {m : TermMeta} {list : PostingList}
    (h : Describes d.mmap m list) (hfits : list.Fits) : d.readPostings m = .ok ⟨list.items, list.maxWeight⟩ := by
  obtain ⟨bytes, hblob, hread⟩ := h.blob hfits
  rw [readPostings, postingBytes_eq hlt, ok_bind, hblob]
  simp only
  rw [h.docFreq_eq, hread, ok_bind, h.maxWeight_eq]
  rfl

namespace Opened

variable {codec : SegmentCodec} {encoder : SegmentEncoder} {d : DiskSegment} {s : Segment}
  {groups : List TermGroup}

theorem meta_cases (laws : RoundTrips codec encoder) (h : d.Opened codec s groups) (term : String) (x : XPathId) :
    (d.meta? x term = none ∧ s.terms.get? ⟨x, term⟩ = none) ∨ ∃ m list,
      d.meta? x term = some m ∧ s.terms.get? ⟨x, term⟩ = some list ∧ Describes d.mmap m list ∧ list.Fits := by
  rcases h.field_cases laws x with ⟨hnone, hfilter⟩ | ⟨dict, terms, hget, hholds, -, hterms⟩
  · left
    rw [meta?, hnone]
    refine ⟨rfl, Option.eq_none_iff_forall_ne_some.mpr fun list hlist => ?_⟩
    exact filter_eq_nil_iff.mp hfilter _ (mem_entries.mpr hlist) (decide_eq_true rfl)
  · rw [meta?, hget, Option.bind_some, (hholds.answers laws).get]
    cases hfind : terms.find? fun e => e.1 = term with
    | none =>
      refine .inl ⟨rfl, Option.eq_none_iff_forall_ne_some.mpr fun list hlist => ?_⟩
      obtain ⟨m, hm, -, hterm, -⟩ := exists_of_mem_right hterms.flip
        (mem_filter.mpr ⟨mem_entries.mpr hlist, decide_eq_true rfl⟩)
      exact find?_eq_none.mp hfind m hm (decide_eq_true hterm.symm)
    | some m =>
      obtain ⟨e, he, hx, hterm, hdescribes, hfits⟩ := exists_of_mem_right hterms (mem_of_find?_eq_some hfind)
      have hname : m.1 = term := by simpa using find?_some hfind
      have hkey : e.1 = ⟨x, term⟩ := by
        rw [← hx, ← hname, ← hterm]
        rfl
      exact .inr ⟨m.2, e.2, rfl, mem_entries.mp (hkey ▸ (mem_filter.mp he).1), hdescribes, hfits⟩

theorem terms_eq (laws : RoundTrips codec encoder) (h : d.Opened codec s groups) (x : XPathId) :
    d.terms codec x = (s.terms.entries.filter fun e => e.1.xpath = x).map fun e => e.1.term := by
  rw [DiskSegment.terms]
  rcases h.field_cases laws x with ⟨hnone, hfilter⟩ | ⟨dict, terms, hget, hholds, -, hterms⟩
  · rw [hnone, hfilter]
    rfl
  · rw [hget, Option.map_some, Option.getD_some, (hholds.answers laws).entries]
    generalize s.terms.entries.filter (fun e => e.1.xpath = x) = entries at hterms
    clear hholds
    induction hterms with
    | nil => rfl
    | cons hm _ ih => exact congrArg₂ _ hm.2.1.symm ih

theorem iterTerms_eq (h : d.Opened codec s groups) :
    d.iterTerms codec = .ok (s.terms.entries.map fun e => (e.1, ⟨e.2.items, e.2.maxWeight⟩)) := by
  let read (e : TermKey × TermMeta) : Fallible (TermKey × DecodedList) := do
    let postings ← d.readPostings e.2
    return (e.1, postings)
  have hfields : ∀ {dicts : List (XPathId × TermDict)} {groups : List TermGroup}, AnswerGroups codec dicts groups →
      (dicts.flatMap fun field => (field.2.entries codec).map fun e => read (⟨field.1, e.1⟩, e.2)) =
        (groupTerms groups).map read := by
    intro dicts groups hanswers
    rw [AnswerGroups] at hanswers
    induction hanswers with
    | nil => rfl
    | cons hd _ ih =>
      rw [flatMap_cons, ih, hd.1, hd.2.entries]
      simp only [groupTerms, flatMap_cons, map_append, map_map]
      rfl
  have hlists : ∀ {terms : List (TermKey × PostingList)} {metas : List (TermKey × TermMeta)},
      Forall₂ (fun e m => e.1 = m.1 ∧ Describes d.mmap m.2 e.2) terms metas → (∀ e ∈ terms, e.2.Fits) →
      metas.map read = (terms.map fun e => (e.1, (⟨e.2.items, e.2.maxWeight⟩ : DecodedList))).map ok := by
    intro terms metas hm hfits
    induction hm with
    | nil => rfl
    | @cons e m _ _ hm _ ih =>
      obtain ⟨hhead, htail⟩ := forall_mem_cons.mp hfits
      have hread : read m = ok (e.1, ⟨e.2.items, e.2.maxWeight⟩) := by
        show d.readPostings m.2 >>= _ = _
        rw [readPostings_eq h.terms.length_lt hm.2 hhead, hm.1]
        rfl
      rw [map_cons, hread, ih htail]
      rfl
  exact (congrArg collect ((hfields h.terms.answers).trans (hlists h.terms.lists h.terms.fits))).trans (collect_ok _)

theorem docLen_eq (h : d.Opened codec s groups) (doc : DocId) (x : XPathId) :
    d.docLen doc x = s.openWritten.docLen doc x := by
  have hlast : FieldLengths.lastLen (DocLengths.docsOf (s.docLengths.entries.map lengthTriple) x) doc =
      s.docLengths.get? (toLex (doc, x)) := by
    refine Option.ext fun len => (DocLengths.lastLen_docsOf ?_ doc x len).trans ?_
    · rw [map_map]
      exact s.docLengths.keys_ascending.imp ne_of_lt
    · rw [← mem_entries, mem_map]
      refine ⟨?_, fun hmem => ⟨_, hmem, rfl⟩⟩
      rintro ⟨e, he, heq⟩
      cases heq
      exact he
  have hdocs : (DocLengths.docsOf (s.docLengths.entries.map lengthTriple) x).map Prod.fst =
      Segment.fieldDocs s.docLengths x := by
    rw [DocLengths.docsOf, filter_map, map_map, map_map]
    rfl
  have hdense : decide (FieldLengths.Dense (DocLengths.docsOf (s.docLengths.entries.map lengthTriple) x)) =
      Segment.isDense (Segment.fieldDocs s.docLengths x) := by
    refine decide_eq_decide.mpr ?_
    rw [FieldLengths.Dense, hdocs, ← length_map (f := Prod.fst), hdocs]
  rw [docLen, h.lengths, hlast, hdense]
  exact (Segment.get?_openLengths s.docLengths doc x).symm

theorem open_parts {bytes out : ByteSeq} {fields : List (XPathId × FieldDict)} (hw : SectionsOf encoder s bytes out fields)
    (hfits : s.Fits) (hopen : DiskSegment.open codec bytes = .ok d) :
    DocLengths.fromEntries (s.docLengths.entries.map lengthTriple) = .ok d.docLengths ∧
      d.docIdRange = if s.terms.size = 0 ∧ d.numericFields.size = 0 then none
        else some ((s.docIdRange.getD (0, 0)).1, (s.docIdRange.getD (0, 0)).2) := by
  simp only [DiskSegment.open, bind_eq_ok] at hopen
  obtain ⟨_, -, footer, hfooter, _, -, lengths, hlengths, _, -, _, -, _, -, _, -, _, -, heq⟩ := hopen
  cases heq
  obtain rfl := ok.inj (hfooter.symm.trans hw.readFooter_eq)
  rw [readDocLengths_written hw hfits] at hlengths
  exact ⟨hlengths, rfl⟩

theorem stats_eq (h : d.Opened codec s groups) (hfits : s.Fits)
    (hfrom : DocLengths.fromEntries (s.docLengths.entries.map lengthTriple) = .ok d.docLengths) (x : XPathId) :
    (⟨d.docCount x, d.totalDocLen x⟩ : FieldStats) = ⟨s.openWritten.docCount x, s.openWritten.totalDocLen x⟩ := by
  obtain ⟨rows, hiter, hnodup, hrows⟩ := DocLengths.iter_fields hfits.triples.1 hfits.triples.2 hfrom
  obtain ⟨list, hlist, hstats⟩ := h.stats
  obtain rfl := ok.inj (hlist.symm.trans hiter)
  -- both count the lengths that a document is found to have
  have hperm : list.Perm (Segment.openLengths s.docLengths).entries := by
    refine (perm_ext_iff_of_nodup hnodup (Compaction.nodup_entries _)).mpr fun e => ?_
    rw [mem_entries]
    refine (hrows (ofLex e.1).1 (ofLex e.1).2 e.2).trans ?_
    exact iff_of_eq (congrArg (· = some e.2) (h.docLen_eq (ofLex e.1).1 (ofLex e.1).2))
  have hcounts : ∀ o : Option FieldStats,
      (⟨(o.map FieldStats.docCount).getD 0, (o.map FieldStats.totalDocLen).getD 0⟩ : FieldStats) = o.getD default := by
    intro o
    cases o <;> rfl
  refine (hcounts _).trans (Eq.trans ?_ (hcounts _).symm)
  rw [hstats]
  exact (Compaction.buildFieldStats_get? list x).trans
    ((tally_perm (hperm.filter _)).trans (Compaction.buildFieldStats_get? _ x).symm)

end Opened

/-- The bytes written for a segment whose numbers fit are opened, and every read of the opened file
gives what the record of the opened segment gives. -/
theorem reads_written {codec : SegmentCodec} {encoder : SegmentEncoder} (laws : RoundTrips codec encoder)
    (ranges : RangesFrom codec) {s : Segment} (hfits : s.Fits)
    (hlt : ∀ bytes, writeSegmentTo codec encoder s = .ok bytes → bytes.length < 2 ^ 63) :
    ∃ bytes d, writeSegmentTo codec encoder s = .ok bytes ∧ DiskSegment.open codec bytes = .ok d ∧
      d.ReadsAs codec s.openWritten := by
  obtain ⟨bytes, d, groups, hwrite, hopen, h⟩ := open_written laws hfits hlt
  obtain ⟨_, out, fields, _, hwrite', -, hw⟩ := writeSegmentTo_spec laws hfits hlt
  obtain rfl := ok.inj (hwrite.symm.trans hwrite')
  obtain ⟨hfrom, hrange⟩ := Opened.open_parts hw hfits hopen
  refine ⟨bytes, d, hwrite, hopen, fun term x => ?_, fun term x => ?_, h.iterTerms_eq,
    fun x => (h.terms_eq laws x :), fun start x => ?_, fun pattern x => ?_, h.docLen_eq,
    fun x => congrArg FieldStats.docCount (h.stats_eq hfits hfrom x),
    fun x => congrArg FieldStats.totalDocLen (h.stats_eq hfits hfrom x), fun x lo hi => ?_, fun x doc => ?_,
    fun x => ?_, fun x => ?_, ?_, fun row => ?_, fun row => ?_⟩
  · have hlist : s.openWritten.lookup term x = (s.terms.get? ⟨x, term⟩).getD default := rfl
    rw [hlist, lookup]
    rcases h.meta_cases laws term x with ⟨hmeta, hget⟩ | ⟨m, list, hmeta, hget, hdescribes, hfits⟩
    · rw [hmeta, hget]
      rfl
    · rw [hmeta, hget]
      exact readPostings_eq h.terms.length_lt hdescribes hfits
  · have hfreq : s.openWritten.docFreq term x =
        ((s.terms.get? ⟨x, term⟩).map fun list => list.items.length % 2 ^ 32).getD 0 := rfl
    rw [hfreq, docFreq]
    rcases h.meta_cases laws term x with ⟨hmeta, hget⟩ | ⟨m, list, hmeta, hget, hdescribes, -⟩
    · rw [hmeta, hget]
      rfl
    · rw [hmeta, hget, Option.map_some, Option.map_some, hdescribes.docFreq_eq, Nat.mod_eq_of_lt hdescribes.docFreq_lt]
  · rw [h.lookupPrefix_eq laws ranges, Segment.lookupPrefix_eq, Segment.lookupPrefix_eq]
    rfl
  · rw [h.lookupWildcard_eq laws ranges, Segment.lookupWildcard_eq, Segment.lookupWildcard_eq]
    rfl
  · rw [numericRange, h.numbers, get?_map, Segment.numericRange]
    show _ = ok (Segment.idPostings (((s.numericFields.fields.get? x).map fun f => f.bkd.range lo hi).getD []))
    cases s.numericFields.fields.get? x with
    | none => rfl
    | some field => exact congrArg (· >>= _) (rangeSlice_eq field.bkd lo hi)
  · rw [numericValue, h.numbers, get?_map, Option.bind_map]
    rfl
  · rw [boolTrueIds, h.bools]
    rfl
  · rw [boolFalseIds, h.bools]
    rfl
  · have hsize : d.numericFields.size = s.numericFields.fields.size := by
      rw [h.numbers]
      exact length_map _
    rw [hrange, hsize]
    rfl
  · rw [docOfRow, h.rows]
    rfl
  · rw [parentOfRow, h.rows]
    rfl

theorem reads_written_fewTerms :
    ∃ bytes d, writeSegmentTo PlainCodec.codec PlainCodec.encoder (MemIndex.freezeShared [fewTerms]) = .ok bytes ∧
      DiskSegment.open PlainCodec.codec bytes = .ok d ∧
      d.ReadsAs PlainCodec.codec (MemIndex.freezeShared [fewTerms]).openWritten :=
  reads_written PlainCodec.roundTrips PlainCodec.rangesFrom fewTerms_fits fewTerms_length

end DiskSegment

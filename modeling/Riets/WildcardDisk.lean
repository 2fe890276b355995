/-
Prefix and wildcard lookups in a segment file.

The dictionary of a field gives the terms from a text on; of these the ones in the
most documents are chosen by their metas, and only then their postings are read.
-/
import Riets.SegmentOpen
import Riets.Wildcard
import Mathlib.Data.Finset.Sort

open Fallible List MemIndex SortedMap

/-- The keys of an fst from a text on are those of its terms that are not before the
text. -/
structure RangesFrom (codec : SegmentCodec) : Prop where
  streamFrom : ∀ (bytes : ByteSeq) (map : Fst) (terms : List String) (start : String),
    codec.fst bytes = .ok map → terms.Pairwise (· < ·) →
    map.stream = (terms.map utf8).zipIdx →
      map.streamFrom (utf8 start) = (terms.zipIdx.filter fun e => start ≤ e.1).map fun e => (utf8 e.1, e.2)

namespace DiskSegment

def lookupWildcard (s : DiskSegment) (codec : SegmentCodec) (pattern : WildcardPattern) (xpath : XPathId) :
    Fallible PostingList :=
  if pattern.isPrefixOnly then s.lookupPrefix codec pattern.start xpath
  else
    match s.dictionary.get? xpath with
    | none => return default
    | some dict => do
      let found := (dict.startingWith codec pattern.start).filter fun e => pattern.matches e.1
      let postings ← (patternTerms found).foldlM (fun out e => s.readPostingsInto out e.2) []
      return PostingList.fromItems postings

end DiskSegment

theorem takeWhile_startsWith {α : Type} {terms : List (String × α)} (hasc : (terms.map Prod.fst).Pairwise (· < ·))
    (start : String) :
    (terms.filter fun e => start ≤ e.1).takeWhile (fun e => StartsWith e.1 start) =
      terms.filter fun e => StartsWith e.1 start := by
  have hle : ∀ {term : String}, StartsWith term start → start ≤ term := fun h =>
    not_lt.mp fun hlt => not_lt_of_prefix (startsWith_iff.mp h) (String.lt_iff_toList_lt.mp hlt)
  induction terms with
  | nil => rfl
  | cons e terms ih =>
    rw [map_cons, pairwise_cons] at hasc
    obtain ⟨hhead, htail⟩ := hasc
    by_cases hfrom : start ≤ e.1
    · by_cases hstart : StartsWith e.1 start
      · rw [filter_cons_of_pos (by simpa using hfrom), takeWhile_cons_of_pos (by simpa using hstart),
          filter_cons_of_pos (by simpa using hstart), ih htail]
      · have hnone : terms.filter (fun e => StartsWith e.1 start) = [] := by
          refine filter_eq_nil_iff.mpr fun e' he' => ?_
          have hlt := String.lt_iff_toList_lt.mp (hhead e'.1 (mem_map_of_mem he'))
          have hnot : ¬ StartsWith e'.1 start := fun h' => hstart (startsWith_iff.mpr (prefix_of_between
            (fun hlt' => absurd (String.lt_iff_toList_lt.mpr hlt') (not_lt.mpr hfrom)) hlt
            (startsWith_iff.mp h')))
          simpa using hnot
        rw [filter_cons_of_pos (by simpa using hfrom), takeWhile_cons_of_neg (by simpa using hstart),
          filter_cons_of_neg (by simpa using hstart), hnone]
    · have hstart : ¬ StartsWith e.1 start := fun h => hfrom (hle h)
      rw [filter_cons_of_neg (by simpa using hfrom), filter_cons_of_neg (by simpa using hstart),
        ih htail]

variable {dict : FieldDict} {terms : List (String × TermMeta)}

theorem FieldDict.Holds.zipIdx_metas {codec : SegmentCodec}
    (h : dict.Holds codec terms) : ((terms.map Prod.fst).zipIdx.map fun e =>
      ((e.1, (dict.metas[e.2]?).getD default) : String × TermMeta)) = terms := by
  refine ext_getElem? fun i => ?_
  rw [getElem?_map, getElem?_zipIdx, getElem?_map, Nat.zero_add, h.metas_eq]
  cases hi : terms[i]? with
  | none => rfl
  | some e => simp only [Option.map_some, getElem?_map, hi, Option.getD_some]

theorem FieldDict.Holds.stream_keys {codec : SegmentCodec}
    (h : dict.Holds codec terms) : (dict.fst codec).stream = ((terms.map Prod.fst).map utf8).zipIdx := by
  rw [h.stream_eq, map_map]
  rfl

theorem FieldDict.Holds.startingWith_eq {codec : SegmentCodec} {encoder : SegmentEncoder}
    (laws : RoundTrips codec encoder) (ranges : RangesFrom codec)
    (h : dict.Holds codec terms)
    (hasc : (terms.map Prod.fst).Pairwise (· < ·)) (start : String) :
    (⟨some (dict.fst codec), dict.metas⟩ : TermDict).startingWith codec start =
      terms.filter fun e => StartsWith e.1 start := by
  rw [TermDict.startingWith]
  simp only [ranges.streamFrom _ _ _ start h.parse hasc h.stream_keys, TermDict.withMetas]
  rw [← takeWhile_startsWith hasc start]
  conv_rhs => rw [← h.zipIdx_metas]
  rw [filter_map, takeWhile_map, takeWhile_map, map_map]
  refine map_congr_left fun e _ => ?_
  simp only [Function.comp_apply, laws.lossy]

/-! ### The postings that are read -/

def Describing (d : DiskSegment) (e : String × PostingList) (m : String × TermMeta) : Prop :=
  e.1 = m.1 ∧ Describes d.mmap m.2 e.2 ∧ e.2.Fits

theorem Describes.blob {d : DiskSegment} {m : TermMeta} {list : PostingList} (h : Describes d.mmap m list)
    (hfits : list.Fits) : ∃ bytes, blobOf d.mmap m = some bytes ∧
      ∀ out, readPostingListInto list.items.length 0 out bytes = .ok (out ++ list.items, none) := by
  obtain ⟨bytes, hbytes, hread⟩ := readPostings_encode (fun p _ => Nat.zero_le p.docId) list.ascending hfits.postings
  refine ⟨bytes, ?_, hread⟩
  rw [blobOf, if_pos h.inside]
  exact congrArg some (ok.inj (h.encoded.symm.trans hbytes))

variable {found : List (String × PostingList)} {metas : List (String × TermMeta)}

theorem readAll_eq {d : DiskSegment} (hlt : d.mmap.length < 2 ^ 63)
    (h : Forall₂ (Describing d) found metas) (out : List Posting) :
    metas.foldlM (fun out e => d.readPostingsInto out e.2) out =
      .ok (out ++ found.flatMap fun e => e.2.items) := by
  induction h generalizing out with
  | nil => rw [flatMap_nil, append_nil]; rfl
  | @cons e m found metas hm _ ih =>
    obtain ⟨-, hdescribes, hfits⟩ := hm
    obtain ⟨bytes, hblob, hread⟩ := hdescribes.blob hfits
    have hinto : d.readPostingsInto out m.2 = .ok (out ++ e.2.items) := by
      rw [DiskSegment.readPostingsInto, DiskSegment.postingBytes_eq hlt, ok_bind, hblob]
      simp only
      rw [hdescribes.docFreq_eq, hread, ok_bind]
      rfl
    rw [foldlM_cons, hinto, ok_bind, ih, flatMap_cons, append_assoc]

def pairInMoreDocs (a b : (String × PostingList) × (String × TermMeta)) : Bool := inMoreDocs a.1 b.1

theorem patternTerms_describing {d : DiskSegment}
    (h : Forall₂ (Describing d) found metas) :
    Forall₂ (Describing d) ((found.mergeSort inMoreDocs).take DiskSegment.maxPatternTerms)
      (DiskSegment.patternTerms metas) := by
  -- the pairs of a term and its meta are sorted once
  obtain ⟨pairs, hfound, hmetas, hpairs⟩ : ∃ pairs : List ((String × PostingList) × (String × TermMeta)),
      pairs.map Prod.fst = found ∧ pairs.map Prod.snd = metas ∧ ∀ p ∈ pairs, Describing d p.1 p.2 := by
    induction h with
    | nil => exact ⟨[], rfl, rfl, fun p hp => by cases hp⟩
    | @cons e m found metas hm _ ih =>
      obtain ⟨pairs, hfound, hmetas, hpairs⟩ := ih
      refine ⟨(e, m) :: pairs, ?_, ?_, forall_mem_cons.mpr ⟨hm, hpairs⟩⟩
      · rw [map_cons, hfound]
      · rw [map_cons, hmetas]
  have hfst : (pairs.mergeSort pairInMoreDocs).map Prod.fst = found.mergeSort inMoreDocs := by
    rw [map_mergeSort (s := inMoreDocs), hfound]
    intro a _ b _
    rfl
  have hsnd : (pairs.mergeSort pairInMoreDocs).map Prod.snd = metas.mergeSort fun a b =>
      decide (a.2.docFreq > b.2.docFreq ∨ (a.2.docFreq = b.2.docFreq ∧ a.1 ≤ b.1)) := by
    rw [map_mergeSort, hmetas]
    intro a ha b hb
    obtain ⟨hterm, hdescribes, -⟩ := hpairs a ha
    obtain ⟨hterm', hdescribes', -⟩ := hpairs b hb
    simp only [pairInMoreDocs, inMoreDocs, hterm, hterm', hdescribes.docFreq_eq, hdescribes'.docFreq_eq]
  rw [DiskSegment.patternTerms, ← hfst, ← hsnd, ← map_take, ← map_take,
    forall₂_map_left_iff, forall₂_map_right_iff, forall₂_same]
  intro p hp
  exact hpairs p (mem_mergeSort.mp (mem_of_mem_take hp))

namespace DiskSegment.Opened

open List SortedMap

variable {codec : SegmentCodec} {encoder : SegmentEncoder} {d : DiskSegment} {s : Segment}
  {groups : List TermGroup}

theorem field_cases (laws : RoundTrips codec encoder) (h : d.Opened codec s groups) (x : XPathId) :
    (d.dictionary.get? x = none ∧ s.terms.entries.filter (fun e => e.1.xpath = x) = []) ∨
      ∃ (dict : FieldDict) (terms : List (String × TermMeta)),
        d.dictionary.get? x = some ⟨some (dict.fst codec), dict.metas⟩ ∧ dict.Holds codec terms ∧
        (terms.map Prod.fst).Pairwise (· < ·) ∧
        Forall₂ (fun e m => e.1.xpath = x ∧ Describing d (termEntry e) m)
          (s.terms.entries.filter fun e => e.1.xpath = x) terms := by
  have hlists : Forall₂ (fun e m => e.1 = m.1 ∧ Describes d.mmap m.2 e.2)
      (s.terms.entries.filter fun e => e.1.xpath = x) ((groupTerms groups).filter fun e => e.1.xpath = x) := by
    refine rel_filter ?_ h.terms.lists
    intro e m hm
    simp only [hm.1]
  rcases h.terms.answers.find_cases h.terms.ascending x with ⟨hnone, hfilter⟩ | ⟨dict, terms, hfind, hanswers, hfilter⟩
  · left
    rw [hfilter] at hlists
    refine ⟨?_, forall₂_nil_right_iff.mp hlists⟩
    rw [get?, hnone]
    rfl
  · right
    obtain ⟨fields, hentries, hholds⟩ := h.fields
    have hmem : (x, dict) ∈ readBack codec fields := by
      rw [← hentries]
      exact Keyed.find_mem hfind
    obtain ⟨f, hf, heq⟩ := mem_map.mp hmem
    obtain ⟨g, hg, hx, hfield⟩ := exists_of_mem_right hholds.flip hf
    obtain ⟨rfl, rfl⟩ := Prod.mk.inj heq
    have hterms : terms = g.2 := by
      rw [← hanswers.entries, (hfield.answers laws).entries]
    subst hterms
    refine ⟨f.2, g.2, ?_, hfield, ?_, ?_⟩
    · rw [get?, hfind]
      rfl
    · refine group_ascending ?_ hg
      rw [← pairwise_map (f := Prod.fst) (R := (· < ·)), h.terms.lists.keys, pairwise_map]
      exact s.terms.ascending
    · rw [hfilter, forall₂_map_right_iff] at hlists
      refine forall₂_iff_zip.mpr ⟨hlists.length_eq, fun {e m} hmem => ?_⟩
      obtain ⟨hkey, hdescribes⟩ := forall₂_iff_zip.mp hlists |>.2 hmem
      have he := (mem_filter.mp (of_mem_zip hmem).1).1
      refine ⟨?_, ?_, hdescribes, h.terms.fits e he⟩
      · rw [hkey]
      · rw [termEntry, hkey]

theorem read_chosen (laws : RoundTrips codec encoder) (ranges : RangesFrom codec)
    (h : d.Opened codec s groups) (x : XPathId) {start : String} {P : String → Prop} [DecidablePred P]
    (hP : ∀ term, P term → StartsWith term start) :
    (d.dictionary.get? x = none ∧ (s.terms.entries.filter fun e => e.1.xpath = x ∧ P e.1.term) = []) ∨
      ∃ (dict : TermDict) (postings : List Posting), d.dictionary.get? x = some dict ∧
        (patternTerms ((dict.startingWith codec start).filter fun e => P e.1)).foldlM
          (fun out e => d.readPostingsInto out e.2) [] = .ok postings ∧
        PostingList.fromItems postings =
          cappedUnion ((s.terms.entries.filter fun e => e.1.xpath = x ∧ P e.1.term).map termEntry) := by
  have hsplit : (s.terms.entries.filter fun e => e.1.xpath = x ∧ P e.1.term) =
      (s.terms.entries.filter fun e => e.1.xpath = x).filter fun e => P e.1.term := by
    rw [filter_filter]
    refine filter_congr fun e _ => ?_
    rw [Bool.decide_and, Bool.and_comm]
  rw [hsplit]
  rcases h.field_cases laws x with ⟨hnone, hfilter⟩ | ⟨dict, terms, hget, hholds, hasc, hterms⟩
  · left
    rw [hfilter]
    exact ⟨hnone, rfl⟩
  · right
    have hfilter : (terms.filter fun e => decide (P e.1) && decide (StartsWith e.1 start)) =
        terms.filter fun e => P e.1 := by
      refine filter_congr fun e _ => ?_
      by_cases hPe : P e.1
      · simp [hPe, hP e.1 hPe]
      · simp [hPe]
    have hfound : Forall₂ (Describing d)
        (((s.terms.entries.filter fun e => e.1.xpath = x).filter fun e => P e.1.term).map termEntry)
        (terms.filter fun e => P e.1) := by
      rw [forall₂_map_left_iff]
      refine Forall₂.imp (fun e m hm => hm.2) (rel_filter ?_ hterms)
      intro e m hm
      have hterm : e.1.term = m.1 := hm.2.1
      simp only [hterm]
    refine ⟨_, _, hget, ?_, rfl⟩
    rw [hholds.startingWith_eq laws ranges hasc start, filter_filter, hfilter,
      readAll_eq h.terms.length_lt (patternTerms_describing hfound) [], nil_append]

theorem lookupPrefix_eq (laws : RoundTrips codec encoder) (ranges : RangesFrom codec)
    (h : d.Opened codec s groups) (start : String) (x : XPathId) :
    d.lookupPrefix codec start x = .ok (s.lookupPrefix start x) := by
  rw [Segment.lookupPrefix_eq, scanPrefix, lookupPrefix]
  rcases h.read_chosen laws ranges x (P := fun term => StartsWith term start)
    (fun _ h => h) with ⟨hnone, hfilter⟩ | ⟨dict, postings, hget, hread, hlist⟩
  · rw [hnone, hfilter, map_nil, cappedUnion_nil]
    rfl
  · -- every term the dictionary finds begins with the text
    have hall : (dict.startingWith codec start).filter (fun e => StartsWith e.1 start) =
        dict.startingWith codec start := by
      rcases h.field_cases laws x with ⟨hnone, -⟩ | ⟨field, terms, hget', hholds, hasc, -⟩
      · rw [hget] at hnone
        cases hnone
      · rw [hget] at hget'
        rw [Option.some_inj.mp hget', hholds.startingWith_eq laws ranges hasc start, filter_filter]
        simp only [Bool.and_self]
    rw [hall] at hread
    rw [hget, ← hlist]
    simp only
    rw [hread]
    rfl

theorem lookupWildcard_eq (laws : RoundTrips codec encoder) (ranges : RangesFrom codec)
    (h : d.Opened codec s groups) (pattern : WildcardPattern) (x : XPathId) :
    d.lookupWildcard codec pattern x = .ok (s.lookupWildcard pattern x) := by
  rw [lookupWildcard, Segment.lookupWildcard_eq, scanWildcard]
  by_cases honly : pattern.isPrefixOnly = true
  · rw [if_pos honly, if_pos honly, h.lookupPrefix_eq laws ranges, Segment.lookupPrefix_eq]
  · rw [if_neg honly, if_neg honly]
    rcases h.read_chosen laws ranges x
      (P := fun term => pattern.matches term = true) (fun _ h => WildcardPattern.startsWith_of_matches h) with
      ⟨hnone, hfilter⟩ | ⟨dict, postings, hget, hread, hlist⟩
    · rw [hnone, hfilter, map_nil, cappedUnion_nil]
      rfl
    · simp only [Bool.decide_eq_true] at hread
      rw [hget, ← hlist]
      simp only
      rw [hread]
      rfl

end DiskSegment.Opened

theorem MemIndex.terms_freezeShared (m : MemIndex) : (freezeShared [m]).terms = m.terms := by
  refine ext_get? fun k => ?_
  show (mergeWith appendList empty m.terms).get? k = _
  rw [get?_mergeWith]
  cases m.terms.get? k with
  | none => rfl
  | some list => rfl

/-- The memory index, whatever the order of its hash map, the segment frozen from it and the opened file
give the same posting lists. -/
structure PatternsAgree (codec : SegmentCodec) (m : MemIndex) (d : DiskSegment) : Prop where
  lookupPrefix : ∀ (scan : List (TermKey × PostingList)), scan.Perm m.terms.entries →
    ∀ (start : String) (x : XPathId),
      (freezeShared [m]).lookupPrefix start x = scanPrefix scan start x ∧
        d.lookupPrefix codec start x = .ok (scanPrefix scan start x)
  lookupWildcard : ∀ (scan : List (TermKey × PostingList)), scan.Perm m.terms.entries →
    ∀ (pattern : WildcardPattern) (x : XPathId),
      (freezeShared [m]).lookupWildcard pattern x = scanWildcard scan pattern x ∧
        d.lookupWildcard codec pattern x = .ok (scanWildcard scan pattern x)

/-- The segment frozen from a memory index can be written and opened, and then all three agree on every prefix
and every pattern. -/
theorem patterns_agree {codec : SegmentCodec} {encoder : SegmentEncoder} (laws : RoundTrips codec encoder)
    (ranges : RangesFrom codec) (m : MemIndex) (hfits : (freezeShared [m]).Fits)
    (hlt : ∀ bytes, writeSegmentTo codec encoder (freezeShared [m]) = .ok bytes →
      bytes.length < 2 ^ 63) :
    ∃ bytes d, writeSegmentTo codec encoder (freezeShared [m]) = .ok bytes ∧
      DiskSegment.open codec bytes = .ok d ∧ PatternsAgree codec m d := by
  obtain ⟨bytes, d, groups, hwrite, hopen, hopened⟩ := open_written laws hfits hlt
  refine ⟨bytes, d, hwrite, hopen, ?_, ?_⟩
  · intro scan hperm start x
    have hnodup : (scan.map Prod.fst).Nodup :=
      ((hperm.map Prod.fst).nodup_iff).mpr (m.terms.keys_ascending.imp ne_of_lt)
    rw [hopened.lookupPrefix_eq laws ranges, Segment.lookupPrefix_eq, terms_freezeShared,
      scanPrefix_perm hperm hnodup]
    exact ⟨rfl, rfl⟩
  · intro scan hperm pattern x
    have hnodup : (scan.map Prod.fst).Nodup :=
      ((hperm.map Prod.fst).nodup_iff).mpr (m.terms.keys_ascending.imp ne_of_lt)
    rw [hopened.lookupWildcard_eq laws ranges, Segment.lookupWildcard_eq, terms_freezeShared,
      scanWildcard_perm hperm hnodup]
    exact ⟨rfl, rfl⟩

/-! ### A plain codec -/

namespace PlainCodec

open List

def writeKey (key : ByteSeq) : ByteSeq := key.flatMap (fun b => [1, b]) ++ [0]

def readKeys (key : ByteSeq) : ByteSeq → List ByteSeq
  | [] => []
  | 0 :: rest => key :: readKeys [] rest
  | [_] => []
  | _ :: b :: rest => readKeys (key ++ [b]) rest

theorem readKeys_writeKey (key before rest : ByteSeq) :
    readKeys before (writeKey key ++ rest) = (before ++ key) :: readKeys [] rest := by
  induction key generalizing before with
  | nil =>
    rw [append_nil]
    rfl
  | cons b key ih =>
    have hsplit : writeKey (b :: key) ++ rest = 1 :: b :: (writeKey key ++ rest) := rfl
    rw [hsplit, readKeys, ih, append_assoc, singleton_append]
    · decide

theorem readKeys_flatMap (keys : List ByteSeq) : readKeys [] (keys.flatMap writeKey) = keys := by
  induction keys with
  | nil => rfl
  | cons key keys ih => rw [flatMap_cons, readKeys_writeKey, ih, nil_append]

def readWords : ℕ → ByteSeq → List ℕ
  | 0, _ => []
  | n + 1, bytes => leNat (bytes.take 8) :: readWords n (bytes.drop 8)

theorem readWords_flatMap {ids : List ℕ} (h : ∀ d ∈ ids, d < 2 ^ 64) :
    readWords ids.length (ids.flatMap (leBytes 8)) = ids := by
  induction ids with
  | nil => rfl
  | cons d ids ih =>
    have htake : (leBytes 8 d ++ ids.flatMap (leBytes 8)).take 8 = leBytes 8 d :=
      take_left' (length_leBytes 8 d)
    have hdrop : (leBytes 8 d ++ ids.flatMap (leBytes 8)).drop 8 = ids.flatMap (leBytes 8) :=
      drop_left' (length_leBytes 8 d)
    rw [length_cons, flatMap_cons, readWords, htake, hdrop,
      leNat_leBytes_of_lt (h d mem_cons_self), ih fun d' hd' => h d' (mem_cons_of_mem d hd')]

def notBehind (start key : ByteSeq) : Bool :=
  match ofUtf8 start, ofUtf8 key with
  | some s, some t => decide (s ≤ t)
  | _, _ => false

def encoder : SegmentEncoder where
  fst keys := .ok (keys.flatMap fun e => writeKey e.1)
  bitmap ids := (ids.sort (· ≤ ·)).flatMap (leBytes 8)

def codec : SegmentCodec where
  fst bytes := .ok {
    get := fun key => (readKeys [] bytes).idxOf? key
    stream := (readKeys [] bytes).zipIdx
    streamFrom := fun start => (readKeys [] bytes).zipIdx.filter fun e => notBehind start e.1 }
  bitmap bytes := .ok (readWords (bytes.length / 8) bytes).toFinset
  lossy bytes := (ofUtf8 bytes).getD ""

theorem roundTrips : RoundTrips codec encoder where
  fst terms _ _ := by
    have hkeys : (terms.map utf8).zipIdx.flatMap (fun e => writeKey e.1) = (terms.map utf8).flatMap writeKey := by
      rw [← flatMap_map, zipIdx_map_fst]
    refine ⟨_, _, rfl, rfl, ?_, ?_⟩
    · simp only [hkeys, readKeys_flatMap]
    · intro key
      simp only [hkeys, readKeys_flatMap]
  bitmap ids h := by
    have hsort : ∀ d ∈ ids.sort (· ≤ ·), d < 2 ^ 64 := fun d hd => h d ((Finset.mem_sort _).mp hd)
    have hlen : ((ids.sort (· ≤ ·)).flatMap (leBytes 8)).length / 8 = (ids.sort (· ≤ ·)).length := by
      generalize ids.sort (· ≤ ·) = l
      induction l with
      | nil => rfl
      | cons d l ih =>
        rw [flatMap_cons, length_append, length_leBytes, length_cons]
        omega
    simp only [codec, encoder, hlen, readWords_flatMap hsort, Finset.sort_toFinset]
  lossy s := by
    simp only [codec, ofUtf8_utf8, Option.getD_some]

theorem rangesFrom : RangesFrom codec where
  streamFrom bytes map terms start hmap _ hstream := by
    cases hmap
    have hkeys : readKeys [] bytes = terms.map utf8 := by
      have hfst := congrArg (map Prod.fst) hstream
      rwa [zipIdx_map_fst, zipIdx_map_fst] at hfst
    simp only [hkeys, zipIdx_map, filter_map]
    congr 1
    refine filter_congr fun e _ => ?_
    simp only [Function.comp_apply, notBehind, Prod.map_fst, ofUtf8_utf8]

end PlainCodec

/-- Two documents; three of the four terms are in one document each. -/
def fewTerms : MemIndex :=
  (MemIndex.new.addAnalyzedDocument
    ⟨0, ⟨[⟨0, 1, [⟨"ab", [0], 1⟩, ⟨"abc", [1], 2⟩, ⟨"b", [2], 1⟩]⟩], [], []⟩, []⟩).addAnalyzedDocument
    ⟨1, ⟨[⟨0, 1, [⟨"ab", [0], 1⟩, ⟨"abd", [1], 1⟩]⟩], [], []⟩, []⟩

theorem fewTerms_fits : (freezeShared [fewTerms]).Fits where
  lists := by decide
  termXPaths := by decide
  termCount := by decide
  lengthCount := by decide
  lengths := by decide
  numericCount := by decide
  numerics := fun e he => by cases he
  boolCount := by decide
  bools := fun e he => by cases he
  rowBase := by decide
  rowCount := by decide
  rowIds := by decide
  rowDocs := by decide
  rowParents := by decide
  docRange := by decide

theorem fewTerms_length (bytes : ByteSeq)
    (h : writeSegmentTo PlainCodec.codec PlainCodec.encoder (freezeShared [fewTerms]) = .ok bytes) :
    bytes.length < 2 ^ 63 := by
  have hlength : (length <$> writeSegmentTo PlainCodec.codec PlainCodec.encoder (freezeShared [fewTerms])) =
      .ok 302 := by decide +kernel
  rw [h] at hlength
  have hlen : bytes.length = 302 := ok.inj hlength
  omega

theorem patterns_agree_fewTerms :
    ∃ bytes d, writeSegmentTo PlainCodec.codec PlainCodec.encoder (freezeShared [fewTerms]) = .ok bytes ∧
      DiskSegment.open PlainCodec.codec bytes = .ok d ∧ PatternsAgree PlainCodec.codec fewTerms d :=
  patterns_agree PlainCodec.roundTrips PlainCodec.rangesFrom fewTerms fewTerms_fits fewTerms_length

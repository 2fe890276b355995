/-
The terms of a segment file.

At the end every term has a meta that says where its postings are, the groups list the
terms in the order of the segment, and each group has become an fst.
-/
import Riets.SegmentSections

open Fallible Cursor List

/-- The crates keep what is built: the fst of ascending terms finds each term at its
place and lists them all, a bitmap of 64-bit ids and the bytes of a text are read back. -/
structure RoundTrips (codec : SegmentCodec) (encoder : SegmentEncoder) : Prop where
  fst : ∀ terms : List String, terms ≠ [] → terms.Pairwise (· < ·) → ∃ bytes map,
    encoder.fst (terms.map utf8).zipIdx = .ok bytes ∧ codec.fst bytes = .ok map ∧
      map.stream = (terms.map utf8).zipIdx ∧ ∀ key, map.get key = (terms.map utf8).idxOf? key
  bitmap : ∀ ids : Finset DocId, (∀ d ∈ ids, d < 2 ^ 64) → codec.bitmap (encoder.bitmap ids) = .ok ids
  lossy : ∀ s, codec.lossy (utf8 s) = s

theorem sectionBytes_append {out : ByteSeq} {offset len : ℕ} (h : offset + len ≤ out.length)
    (more : ByteSeq) : sectionBytes (out ++ more) offset len = sectionBytes out offset len := by
  rw [sectionBytes, sectionBytes, drop_append_of_le_length (by omega),
    take_append_of_le_length (by rw [length_drop]; omega)]

theorem sectionBytes_middle (before bytes behind : ByteSeq) :
    sectionBytes (before ++ (bytes ++ behind)) before.length bytes.length = bytes := by
  rw [sectionBytes, drop_left, take_left]

structure Describes (out : ByteSeq) (m : TermMeta) (list : PostingList) : Prop where
  inside : m.postingsOffset + m.postingsLen ≤ out.length
  encoded : encodePostingList list = .ok (sectionBytes out m.postingsOffset m.postingsLen)
  len_lt : m.postingsLen < 2 ^ 32
  docFreq_lt : list.items.length < 2 ^ 32
  docFreq_eq : m.docFreq = list.items.length
  maxWeight_eq : m.maxWeight = list.maxWeight

variable {out : ByteSeq} {m : TermMeta} {list : PostingList} {done : List (TermKey × PostingList)} {groups : List TermGroup}

theorem Describes.append (h : Describes out m list) (more : ByteSeq) : Describes (out ++ more) m list where
  inside := h.inside.trans (by rw [length_append]; exact Nat.le_add_right _ _)
  encoded := by rw [sectionBytes_append h.inside, h.encoded]
  len_lt := h.len_lt
  docFreq_lt := h.docFreq_lt
  docFreq_eq := h.docFreq_eq
  maxWeight_eq := h.maxWeight_eq

/-- The numbers of a list fit: its postings, how many they are and how long their bytes. -/
structure PostingList.Fits (list : PostingList) : Prop where
  postings : ∀ p ∈ list.items, p.Fits
  count_lt : list.items.length < 2 ^ 32
  maxWeight_lt : list.maxWeight < 2 ^ 16
  bytes_lt : ∀ bytes, encodePostingList list = .ok bytes → bytes.length < 2 ^ 32

instance (list : PostingList) : Decidable list.Fits :=
  haveI : Decidable (∀ bytes, encodePostingList list = .ok bytes → bytes.length < 2 ^ 32) :=
    match encodePostingList list with
    | .ok bytes => decidable_of_iff (bytes.length < 2 ^ 32)
        ⟨fun h _ heq => by cases heq; exact h, fun h => h bytes rfl⟩
    | .err _ => isTrue fun _ heq => by cases heq
    | .fault => isTrue fun _ heq => by cases heq
  decidable_of_iff ((∀ p ∈ list.items, p.Fits) ∧ list.items.length < 2 ^ 32 ∧ list.maxWeight < 2 ^ 16 ∧
      ∀ bytes, encodePostingList list = .ok bytes → bytes.length < 2 ^ 32)
    ⟨fun ⟨hpostings, hcount, hweight, hbytes⟩ => ⟨hpostings, hcount, hweight, hbytes⟩, fun h =>
      ⟨h.postings, h.count_lt, h.maxWeight_lt, h.bytes_lt⟩⟩

/-! ### Groups -/

abbrev TermGroup := XPathId × List (String × TermMeta)

def groupTerms (groups : List TermGroup) : List (TermKey × TermMeta) :=
  groups.flatMap fun g => g.2.map fun e => (⟨g.1, e.1⟩, e.2)

theorem groupTerms_append (groups groups' : List TermGroup) :
    groupTerms (groups ++ groups') = groupTerms groups ++ groupTerms groups' := flatMap_append

theorem groupTerms_singleton (g : TermGroup) :
    groupTerms [g] = g.2.map fun e => (⟨g.1, e.1⟩, e.2) := by
  rw [groupTerms, flatMap_cons, flatMap_nil, append_nil]

/-- The groups list the terms that were pushed, with metas that lead to their postings. -/
def TermLists (out : ByteSeq) (done : List (TermKey × PostingList)) (groups : List TermGroup) : Prop :=
  Forall₂ (fun e m => e.1 = m.1 ∧ Describes out m.2 e.2) done (groupTerms groups)

theorem TermLists.append (h : TermLists out done groups) (more : ByteSeq) : TermLists (out ++ more) done groups :=
  h.imp fun _ _ hm => ⟨hm.1, hm.2.append more⟩

theorem TermLists.keys (h : TermLists out done groups) :
    (groupTerms groups).map Prod.fst = done.map Prod.fst := by
  rw [TermLists] at h
  generalize groupTerms groups = metas at h
  induction h with
  | nil => rfl
  | cons hm _ ih => rw [map_cons, map_cons, ih, hm.1]

theorem TermKey.lt_iff_of_xpath {x : XPathId} {t t' : String} :
    (⟨x, t⟩ : TermKey) < ⟨x, t'⟩ ↔ t < t' := by
  show toLex (x, t) < toLex (x, t') ↔ _
  rw [Prod.Lex.toLex_lt_toLex]
  simp

theorem TermKey.xpath_le_of_lt {k k' : TermKey} (h : k < k') : k.xpath ≤ k'.xpath := by
  have h' : toLex (k.xpath, k.term) < toLex (k'.xpath, k'.term) := h
  rcases Prod.Lex.toLex_lt_toLex.mp h' with hlt | ⟨heq, -⟩
  · exact hlt.le
  · exact heq.le

theorem group_ascending (h : (groupTerms groups).Pairwise fun a b => a.1 < b.1) {g : TermGroup} (hg : g ∈ groups) :
    (g.2.map Prod.fst).Pairwise (· < ·) := by
  have hsub : (g.2.map fun e => ((⟨g.1, e.1⟩ : TermKey), e.2)).Sublist (groupTerms groups) := by
    obtain ⟨before, behind, rfl⟩ := append_of_mem hg
    rw [groupTerms_append, ← singleton_append, groupTerms_append, groupTerms_singleton]
    exact (sublist_append_left _ _).trans (sublist_append_right _ _)
  rw [pairwise_map]
  exact (pairwise_map.mp (h.sublist hsub)).imp fun hab => TermKey.lt_iff_of_xpath.mp hab

/-! ### Dictionaries -/

def FieldDict.fst (codec : SegmentCodec) (dict : FieldDict) : Fst :=
  match codec.fst dict.fstBytes with
  | .ok map => map
  | .error _ => ⟨fun _ => none, [], fun _ => []⟩

structure FieldDict.Holds (codec : SegmentCodec) (dict : FieldDict) (terms : List (String × TermMeta)) :
    Prop where
  parse : codec.fst dict.fstBytes = .ok (dict.fst codec)
  metas_eq : dict.metas = terms.map Prod.snd
  stream_eq : (dict.fst codec).stream = (terms.map fun e => utf8 e.1).zipIdx
  get_eq : ∀ key, (dict.fst codec).get key = (terms.map fun e => utf8 e.1).idxOf? key

section

variable {codec : SegmentCodec} {encoder : SegmentEncoder} (laws : RoundTrips codec encoder)

include laws

theorem FieldDict.build_ok {terms : List (String × TermMeta)} (hne : terms ≠ [])
    (hasc : (terms.map Prod.fst).Pairwise (· < ·)) :
    ∃ dict, FieldDict.build codec encoder terms = .ok dict ∧ dict.Holds codec terms := by
  obtain ⟨bytes, map, hbuild, hparse, hstream, hget⟩ := laws.fst (terms.map Prod.fst)
    (fun h => hne (map_eq_nil_iff.mp h)) hasc
  rw [map_map] at hbuild hstream hget
  have hfst : FieldDict.fst codec ⟨bytes, terms.map Prod.snd⟩ = map := by
    rw [FieldDict.fst, hparse]
  refine ⟨⟨bytes, terms.map Prod.snd⟩, ?_, ?_, rfl, ?_, ?_⟩
  · rw [FieldDict.build, if_neg hne]
    have hbuild' : encoder.fst (terms.map fun e => utf8 e.1).zipIdx = .ok bytes := hbuild
    rw [hbuild']
    simp only [hparse]
  · rw [hfst]
    exact hparse
  · rw [hfst]
    exact hstream
  · rw [hfst]
    exact hget

end

namespace FieldWriter

open List

/-- The fields that are closed hold the groups before the current one. -/
structure Entered (codec : SegmentCodec) (out : ByteSeq) (w : FieldWriter)
    (done : List (TermKey × PostingList)) (closed : List TermGroup) (x : XPathId) : Prop where
  current_eq : w.current = some x
  count_eq : w.termCount = done.length
  fields : Forall₂ (fun f g => f.1 = g.1 ∧ f.2.Holds codec g.2) w.fields closed
  lists : TermLists out done (closed ++ [(x, w.entries)])
  closed_ne : ∀ g ∈ closed, g.2 ≠ []
  ascending : ∀ g ∈ closed, g.1 < x
  closed_ascending : closed.Pairwise fun g h => g.1 < h.1

def Pushed (codec : SegmentCodec) (out : ByteSeq) (w : FieldWriter) (done : List (TermKey × PostingList)) :
    Prop :=
  (done = [] ∧ w = new) ∨ ∃ closed x, w.Entered codec out done closed x ∧ w.entries ≠ []

section

variable {codec : SegmentCodec} {encoder : SegmentEncoder} (laws : RoundTrips codec encoder)
  {w : FieldWriter}

include laws

theorem Entered.closeField {closed : List TermGroup} {x : XPathId} (h : w.Entered codec out done closed x)
    (hne : w.entries ≠ []) (hasc : done.Pairwise fun a b => a.1 < b.1) :
    ∃ dict, w.closeField codec encoder = .ok { w with
        fields := w.fields ++ [(x, dict)], current := none, entries := [] } ∧
      dict.Holds codec w.entries := by
  have hkeys : (groupTerms (closed ++ [(x, w.entries)])).Pairwise fun a b => a.1 < b.1 := by
    rw [← pairwise_map (f := Prod.fst) (R := (· < ·)), h.lists.keys, pairwise_map]
    exact hasc
  have hgroup := group_ascending hkeys (g := (x, w.entries)) (by simp)
  obtain ⟨dict, hbuild, hholds⟩ := FieldDict.build_ok laws hne hgroup
  refine ⟨dict, ?_, hholds⟩
  rw [FieldWriter.closeField, h.current_eq]
  simp only
  rw [hbuild, ok_bind, pure_eq]

theorem Pushed.enterField (h : w.Pushed codec out done) (hasc : done.Pairwise fun a b => a.1 < b.1)
    {key : TermKey} (hkey : ∀ e ∈ done, e.1 < key) :
    ∃ w' closed, w.enterField codec encoder key.xpath = .ok w' ∧
      w'.Entered codec out done closed key.xpath := by
  rcases h with ⟨rfl, rfl⟩ | ⟨closed, x, hin, hne⟩
  · refine ⟨{ new with current := some key.xpath }, [], rfl, rfl, rfl, Forall₂.nil, ?_, ?_, ?_, ?_⟩
    · exact Forall₂.nil
    · exact fun g hg => (by cases hg)
    · exact fun g hg => (by cases hg)
    · exact Pairwise.nil
  · rw [FieldWriter.enterField, hin.current_eq]
    by_cases hsame : x = key.xpath
    · subst hsame
      exact ⟨w, closed, if_neg (not_not.mpr rfl), hin⟩
    · obtain ⟨dict, hclose, hholds⟩ := hin.closeField laws hne hasc
      rw [if_pos fun heq => hsame (Option.some_inj.mp heq), hclose, ok_bind, pure_eq]
      -- the current field is not behind the one that is entered
      have hlt : x < key.xpath := by
        obtain ⟨e, rest, hentries⟩ := exists_cons_of_ne_nil hne
        have hmem : (⟨x, e.1⟩ : TermKey) ∈ done.map Prod.fst := by
          rw [← hin.lists.keys, groupTerms_append, groupTerms_singleton, hentries]
          simp
        obtain ⟨e', he', heq⟩ := mem_map.mp hmem
        have hle := TermKey.xpath_le_of_lt (hkey e' he')
        rw [heq] at hle
        exact lt_of_le_of_ne hle hsame
      refine ⟨_, closed ++ [(x, w.entries)], rfl, rfl, hin.count_eq, ?_, ?_, ?_, ?_, ?_⟩
      · exact rel_append hin.fields (Forall₂.cons ⟨rfl, hholds⟩ Forall₂.nil)
      · rw [TermLists, groupTerms_append, groupTerms_singleton, map_nil, append_nil]
        exact hin.lists
      · intro g hg
        rcases mem_append.mp hg with hg | hg
        · exact hin.closed_ne g hg
        · rw [mem_singleton.mp hg]
          exact hne
      · intro g hg
        rcases mem_append.mp hg with hg | hg
        · exact (hin.ascending g hg).trans hlt
        · rw [mem_singleton.mp hg]
          exact hlt
      · refine pairwise_append.mpr ⟨hin.closed_ascending, pairwise_singleton _ _, ?_⟩
        intro g hg g' hg'
        rw [mem_singleton.mp hg']
        exact hin.ascending g hg

theorem Pushed.push (h : w.Pushed codec out done) (hasc : done.Pairwise fun a b => a.1 < b.1)
    {e : TermKey × PostingList} (hkey : ∀ e' ∈ done, e'.1 < e.1) (hfits : e.2.Fits)
    (hcount : done.length + 1 < 2 ^ 32) :
    ∃ blob w', w.push codec encoder out e.1 e.2 = .ok (out ++ blob, w') ∧
      w'.Pushed codec (out ++ blob) (done ++ [e]) := by
  obtain ⟨w', closed, henter, hin⟩ := h.enterField laws hasc hkey
  obtain ⟨blob, hblob, -⟩ := readPostingListInto_encode hfits.postings
  have hlen := hfits.bytes_lt blob hblob
  have hadd : add (2 ^ 32) w'.termCount 1 = .ok (w'.termCount + 1) :=
    add_of_lt (by rw [hin.count_eq]; exact hcount)
  obtain ⟨m, hm⟩ : ∃ m : TermMeta, m =
      ⟨out.length, blob.length % 2 ^ 32, e.2.items.length % 2 ^ 32, e.2.maxWeight⟩ := ⟨_, rfl⟩
  have hpush : w.push codec encoder out e.1 e.2 = .ok (out ++ blob, { w' with
      entries := w'.entries ++ [(e.1.term, m)], termCount := w'.termCount + 1 }) := by
    rw [FieldWriter.push, henter, ok_bind, hblob, ok_bind, hadd, ok_bind, hm, pure_eq]
  have hdescribes : Describes (out ++ blob) m e.2 := by
    have hmiddle := sectionBytes_middle out blob []
    rw [append_nil] at hmiddle
    rw [hm, Nat.mod_eq_of_lt hlen, Nat.mod_eq_of_lt hfits.count_lt]
    refine ⟨?_, ?_, hlen, hfits.count_lt, rfl, rfl⟩
    · rw [length_append]
    · rw [hmiddle, hblob]
  refine ⟨blob, _, hpush, .inr ⟨closed, e.1.xpath, ⟨hin.current_eq, ?_, hin.fields, ?_, hin.closed_ne,
    hin.ascending, hin.closed_ascending⟩, ?_⟩⟩
  · rw [length_append, hin.count_eq]
    rfl
  · have hlists := hin.lists.append blob
    rw [TermLists, groupTerms_append, groupTerms_singleton] at hlists ⊢
    rw [map_append, ← append_assoc]
    exact rel_append hlists (Forall₂.cons ⟨rfl, hdescribes⟩ Forall₂.nil)
  · exact append_ne_nil_of_right_ne_nil _ (cons_ne_nil _ _)

theorem pushAll_spec {terms : List (TermKey × PostingList)} (h : w.Pushed codec out done)
    (hasc : (done ++ terms).Pairwise fun a b => a.1 < b.1) (hfits : ∀ e ∈ terms, e.2.Fits)
    (hcount : (done ++ terms).length < 2 ^ 32) :
    ∃ blobs w', pushAll codec encoder terms out w = .ok (out ++ blobs, w') ∧
      w'.Pushed codec (out ++ blobs) (done ++ terms) := by
  induction terms generalizing out w done with
  | nil =>
    refine ⟨[], w, ?_, ?_⟩
    · rw [append_nil]
      rfl
    · rwa [append_nil, append_nil]
  | cons e terms ih =>
    obtain ⟨hdone, -, hbefore⟩ := pairwise_append.mp hasc
    rw [length_append, length_cons] at hcount
    obtain ⟨blob, w', hpush, hpushed⟩ := h.push laws hdone
      (fun e' he' => hbefore e' he' e mem_cons_self) (hfits e mem_cons_self) (by omega)
    obtain ⟨blobs, w'', hall, hend⟩ := ih hpushed (by rwa [append_assoc, singleton_append])
      (fun e' he' => hfits e' (mem_cons_of_mem e he')) (by
        rw [length_append, length_append, length_singleton]
        omega)
    rw [append_assoc] at hall
    rw [append_assoc, append_assoc, singleton_append] at hend
    refine ⟨blob ++ blobs, w'', ?_, hend⟩
    rw [pushAll, hpush, ok_bind]
    exact hall

end

end FieldWriter

structure Grouped (codec : SegmentCodec) (out : ByteSeq) (terms : List (TermKey × PostingList))
    (fields : List (XPathId × FieldDict)) (groups : List TermGroup) : Prop where
  fields_hold : Forall₂ (fun f g => f.1 = g.1 ∧ f.2.Holds codec g.2) fields groups
  lists : TermLists out terms groups
  groups_ne : ∀ g ∈ groups, g.2 ≠ []
  ascending : groups.Pairwise fun g h => g.1 < h.1

theorem FieldWriter.finish_spec {codec : SegmentCodec} {encoder : SegmentEncoder}
    (laws : RoundTrips codec encoder) {w : FieldWriter} {terms : List (TermKey × PostingList)}
    (h : w.Pushed codec out terms) (hasc : terms.Pairwise fun a b => a.1 < b.1) :
    ∃ fields groups, w.finish codec encoder = .ok (fields, terms.length) ∧
      Grouped codec out terms fields groups := by
  rcases h with ⟨rfl, rfl⟩ | ⟨closed, x, hin, hne⟩
  · exact ⟨[], [], rfl, Forall₂.nil, Forall₂.nil, fun g hg => (by cases hg), Pairwise.nil⟩
  · obtain ⟨dict, hclose, hholds⟩ := hin.closeField laws hne hasc
    refine ⟨w.fields ++ [(x, dict)], closed ++ [(x, w.entries)], ?_, ?_, hin.lists, ?_, ?_⟩
    · rw [FieldWriter.finish, hclose, ok_bind, ← hin.count_eq]
      rfl
    · exact rel_append hin.fields (Forall₂.cons ⟨rfl, hholds⟩ Forall₂.nil)
    · intro g hg
      rcases mem_append.mp hg with hg | hg
      · exact hin.closed_ne g hg
      · rw [mem_singleton.mp hg]
        exact hne
    · refine pairwise_append.mpr ⟨hin.closed_ascending, pairwise_singleton _ _, ?_⟩
      intro g hg g' hg'
      rw [mem_singleton.mp hg']
      exact hin.ascending g hg

/-! ### Reading dictionaries -/

structure TermDict.Answers (codec : SegmentCodec) (dict : TermDict) (terms : List (String × TermMeta)) :
    Prop where
  get : ∀ term, dict.get term = (terms.find? fun e => e.1 = term).map Prod.snd
  entries : dict.entries codec = terms

theorem get_ord (terms : List (String × TermMeta)) (term : String) :
    ((terms.map fun e => utf8 e.1).idxOf? (utf8 term)).bind (fun ord => (terms.map Prod.snd)[ord]?) =
      (terms.find? fun e => e.1 = term).map Prod.snd := by
  induction terms with
  | nil => rfl
  | cons e terms ih =>
    rw [map_cons, idxOf?_cons, map_cons, find?_cons]
    by_cases heq : e.1 = term
    · rw [heq, beq_self_eq_true, if_pos rfl, decide_eq_true rfl]
      rfl
    · have hne : (utf8 e.1 == utf8 term) = false := by
        rw [beq_eq_false_iff_ne]
        exact fun h => heq (utf8_injective h)
      rw [hne, if_neg Bool.false_ne_true, decide_eq_false heq, Option.bind_map, ← ih]
      rfl

theorem FieldDict.Holds.answers {codec : SegmentCodec} {encoder : SegmentEncoder}
    (laws : RoundTrips codec encoder) {dict : FieldDict} {terms : List (String × TermMeta)}
    (h : dict.Holds codec terms) :
    (⟨some (dict.fst codec), dict.metas⟩ : TermDict).Answers codec terms where
  get term := by
    rw [← get_ord, ← h.get_eq, ← h.metas_eq]
    rfl
  entries := by
    unfold TermDict.entries TermDict.withMetas
    simp only [h.stream_eq, h.metas_eq]
    refine ext_getElem? fun i => ?_
    rw [getElem?_map, getElem?_zipIdx, getElem?_map, Nat.zero_add]
    cases hi : terms[i]? with
    | none => rfl
    | some e =>
      simp only [Option.map_some, getElem?_map, hi, Option.getD_some, laws.lossy]

def readBack (codec : SegmentCodec) (fields : List (XPathId × FieldDict)) : List (XPathId × TermDict) :=
  fields.map fun f => (f.1, ⟨some (f.2.fst codec), f.2.metas⟩)

def AnswerGroups (codec : SegmentCodec) (dicts : List (XPathId × TermDict)) (groups : List TermGroup) : Prop :=
  Forall₂ (fun d g => d.1 = g.1 ∧ d.2.Answers codec g.2) dicts groups

theorem Grouped.answers {codec : SegmentCodec} {encoder : SegmentEncoder} (laws : RoundTrips codec encoder)
    {terms : List (TermKey × PostingList)} {fields : List (XPathId × FieldDict)} (h : Grouped codec out terms fields groups) :
    AnswerGroups codec (readBack codec fields) groups := by
  rw [AnswerGroups, readBack, forall₂_map_left_iff]
  exact h.fields_hold.imp fun f g hf => ⟨hf.1, hf.2.answers laws⟩

namespace AnswerGroups

open List

variable {codec : SegmentCodec} {dicts : List (XPathId × TermDict)}

theorem xpaths (h : AnswerGroups codec dicts groups) : dicts.map Prod.fst = groups.map Prod.fst := by
  rw [AnswerGroups] at h
  induction h with
  | nil => rfl
  | cons hd _ ih => rw [map_cons, map_cons, ih, hd.1]

theorem ascending (h : AnswerGroups codec dicts groups) (hasc : groups.Pairwise fun g g' => g.1 < g'.1) :
    Keyed.Ascending Prod.fst dicts := by
  have hxpaths : (dicts.map Prod.fst).Pairwise (· < ·) := by
    rw [h.xpaths, pairwise_map]
    exact hasc
  exact pairwise_map.mp hxpaths

theorem find_cases (h : AnswerGroups codec dicts groups) (hasc : groups.Pairwise fun g g' => g.1 < g'.1)
    (x : XPathId) :
    (Keyed.find Prod.fst x dicts = none ∧ (groupTerms groups).filter (fun e => e.1.xpath = x) = []) ∨
      ∃ dict terms, Keyed.find Prod.fst x dicts = some (x, dict) ∧ dict.Answers codec terms ∧
        (groupTerms groups).filter (fun e => e.1.xpath = x) = terms.map fun e => (⟨x, e.1⟩, e.2) := by
  rw [AnswerGroups] at h
  induction h with
  | nil => exact .inl ⟨rfl, rfl⟩
  | @cons d g dicts groups hd _ ih =>
    obtain ⟨hhead, htail⟩ := pairwise_cons.mp hasc
    rw [← singleton_append (x := g), groupTerms_append, groupTerms_singleton, filter_append,
      Keyed.find, find?_cons]
    by_cases hx : d.1 = x
    · right
      refine ⟨d.2, g.2, ?_, hd.2, ?_⟩
      · rw [decide_eq_true hx, ← hx]
      · -- the fields behind this one have greater paths
        have hnone : (groupTerms groups).filter (fun e => e.1.xpath = x) = [] := by
          refine filter_eq_nil_iff.mpr fun e he => ?_
          obtain ⟨g', hg', he⟩ := mem_flatMap.mp he
          obtain ⟨e', -, rfl⟩ := mem_map.mp he
          have hlt : d.1 < g'.1 := hd.1 ▸ hhead g' hg'
          simpa [← hx] using hlt.ne'
        rw [hnone, append_nil, ← hx, hd.1]
        refine filter_eq_self.mpr fun e he => ?_
        obtain ⟨e', -, rfl⟩ := mem_map.mp he
        exact decide_eq_true rfl
    · have hnone : (g.2.map fun e => ((⟨g.1, e.1⟩ : TermKey), e.2)).filter (fun e => e.1.xpath = x) = [] := by
        refine filter_eq_nil_iff.mpr fun e he => ?_
        obtain ⟨e', -, rfl⟩ := mem_map.mp he
        simpa [← hd.1] using hx
      rw [hnone, nil_append, decide_eq_false hx]
      exact ih htail

end AnswerGroups

structure DiskSegment.HasTerms (codec : SegmentCodec) (d : DiskSegment) (terms : List (TermKey × PostingList))
    (groups : List TermGroup) : Prop where
  answers : AnswerGroups codec d.dictionary.entries groups
  ascending : groups.Pairwise fun g g' => g.1 < g'.1
  lists : TermLists d.mmap terms groups
  length_lt : d.mmap.length < 2 ^ 63
  fits : ∀ e ∈ terms, e.2.Fits

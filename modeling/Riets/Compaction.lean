/-
Index compaction.

`compactSegments` merges opened segments into one segment file and leaves out
the tombstoned ids.
-/
import Riets.Segment

abbrev DeleteSet := Finset DocId

def DeleteSet.filterInPlace (deleted : DeleteSet) (list : PostingList) : PostingList :=
  if deleted = ∅ then list else list.retain fun p => p.docId ∉ deleted

theorem DeleteSet.find_filterInPlace (deleted : DeleteSet) (list : PostingList) (d : DocId) :
    (deleted.filterInPlace list).find d = if d ∈ deleted then none else list.find d := by
  have hretain : (list.retain fun p => p.docId ∉ deleted).find d
      = if d ∈ deleted then none else list.find d := by
    rw [PostingList.find_retain]
    cases hf : list.find d with
    | none => simp
    | some p =>
      have hp : p.docId = d := PostingList.find_docId hf
      by_cases hd : d ∈ deleted <;> simp [Option.filter, hp, hd]
  rw [filterInPlace]
  by_cases h : deleted = ∅
  · rw [if_pos h, if_neg (by simp [h])]
  · rw [if_neg h, hretain]

namespace Compaction

open List Keyed Option PostingList Segment SortedMap NumericPoints BoolField

abbrev Source := List (TermKey × PostingList)

/-- Pops the sources whose head has the same key and collects their postings. -/
def takeSame (key : TermKey) : ℕ → List Posting → List Source → List Posting × List Source
  | 0, items, sources => (items, sources)
  | n + 1, items, sources =>
    match least Prod.fst sources with
    | some (index, (next, list)) =>
      if next = key then takeSame key n (items ++ list.items) (sources.modify index tail)
      else (items, sources)
    | none => (items, sources)

/-- The merged list of one key; a key left without postings is skipped. -/
def emit (deleted : DeleteSet) (group : TermKey × List Posting) : Option (TermKey × PostingList) :=
  let merged := deleted.filterInPlace (fromItems group.2)
  if merged.items = [] then none else some (group.1, merged)

/-- All terms the merging iterator yields; `n` bounds the number of terms left. -/
def mergedTerms (deleted : DeleteSet) : ℕ → List Source → List (TermKey × PostingList)
  | 0, _ => []
  | n + 1, sources =>
    match least Prod.fst sources with
    | none => []
    | some (index, (key, list)) =>
      let group := takeSame key n list.items (sources.modify index tail)
      match emit deleted (key, group.1) with
      | some term => term :: mergedTerms deleted n group.2
      | none => mergedTerms deleted n group.2

def mergedLengths (deleted : DeleteSet) (opened : List Segment) : SortedMap LengthKey ℕ :=
  opened.foldl (fun acc segment =>
    acc.extend (fun _ len => len)
      (segment.docLengths.entries.filter fun e => (ofLex e.1).1 ∉ deleted)) SortedMap.empty

def addField (deleted : DeleteSet) (acc : NumericPoints) (xpath : XPathId) (field : NumericField) :
    NumericPoints :=
  field.docValues.entries.foldl (fun acc e =>
    if e.1 ∈ deleted then acc else acc.insert xpath (unpack e.2 field.docValues.kind) e.1) acc

def mergedPoints (deleted : DeleteSet) (opened : List Segment) : NumericPoints :=
  opened.foldl (fun acc segment =>
    segment.numericFields.fields.entries.foldl (fun acc e => addField deleted acc e.1 e.2) acc)
    NumericPoints.empty

def liveBools (deleted : DeleteSet) (field : BoolField) : BoolField :=
  ⟨field.trueIds.filter (· ∉ deleted), field.falseIds.filter (· ∉ deleted)⟩

def mergedBools (deleted : DeleteSet) (opened : List Segment) : SortedMap XPathId BoolField :=
  opened.foldl (fun acc segment =>
    acc.mergeWith (fun slot field => (slot.getD default).union (liveBools deleted field))
      segment.boolFields) SortedMap.empty

def mergedRows (opened : List Segment) : ArrayRowIndex :=
  opened.foldl (fun acc segment => acc.mergeFrom segment.arrayRowIndex) ArrayRowIndex.empty

/-- Writes a segment file from streamed terms.  The dictionary of a field is
built in term order and refuses anything else. -/
def writeMergedSegment (terms : List (TermKey × PostingList)) (docLengths : SortedMap LengthKey ℕ)
    (numericFields : NumericFields) (arrayRowIndex : ArrayRowIndex)
    (boolFields : SortedMap XPathId BoolField) : Option SegmentFile :=
  let range := (computeDocIdRange docLengths numericFields).getD (0, 0)
  if h : Ascending Prod.fst terms then
    some
      { terms := ⟨terms, h⟩
        docLengths := docLengths
        numericFields := numericFields
        boolFields := boolFields
        arrayRowIndex := arrayRowIndex
        minDocId := range.1
        maxDocId := range.2 }
  else none

def sources (opened : List Segment) : List Source := opened.map fun s => s.terms.entries

def compactSegments (opened : List Segment) (deleted : DeleteSet) : Option SegmentFile :=
  writeMergedSegment (mergedTerms deleted (sources opened).flatten.length (sources opened))
    (mergedLengths deleted opened) (mergedPoints deleted opened).build (mergedRows opened)
    (mergedBools deleted opened)

/-! ### The streamed groups -/

def popped (ss : List Source) : List (TermKey × List Posting) :=
  (kmerge Prod.fst ss.flatten.length ss).map fun e => (e.1, e.2.items)

def gather (a b : TermKey × List Posting) : TermKey × List Posting := (a.1, a.2 ++ b.2)

theorem gather_key (a b : TermKey × List Posting) : (gather a b).1 = a.1 := rfl

variable {ss : List Source}

theorem popped_eq_nil (h : least Prod.fst ss = none) : popped ss = [] := by
  rw [popped, least_eq_none h]
  rfl

theorem popped_eq_cons {index : ℕ} {key : TermKey} {list : PostingList}
    (h : least Prod.fst ss = some (index, (key, list))) :
    popped ss = (key, list.items) :: popped (ss.modify index tail) ∧
      (ss.modify index tail).flatten.length + 1 = ss.flatten.length := by
  have hlen := length_modify_tail h
  refine ⟨?_, hlen⟩
  rw [popped, ← hlen, kmerge, h]
  rfl

theorem takeSame_spec (key : TermKey) {n : ℕ} (items : List Posting) (ss : List Source)
    (hn : ss.flatten.length ≤ n) :
    collapseFrom Prod.fst gather (key, items) (popped ss)
        = (key, (takeSame key n items ss).1) ::
          collapse Prod.fst gather (popped (takeSame key n items ss).2) ∧
      (takeSame key n items ss).2.flatten.length ≤ ss.flatten.length := by
  induction n generalizing items ss with
  | zero =>
    have hnil : ss.flatten = [] := length_eq_zero_iff.mp (Nat.le_zero.mp hn)
    have hpop : popped ss = [] := by
      rw [popped, hnil]
      rfl
    simp [takeSame, hpop, collapseFrom, collapse]
  | succ n ih =>
    rw [takeSame]
    cases hl : least Prod.fst ss with
    | none => simp [popped_eq_nil hl, collapseFrom, collapse]
    | some p =>
      obtain ⟨index, next, list⟩ := p
      obtain ⟨hpop, hlen⟩ := popped_eq_cons hl
      by_cases hk : next = key
      · obtain ⟨h1, h2⟩ := ih (items ++ list.items) (ss.modify index tail) (by omega)
        simp only [if_pos hk]
        rw [hpop, collapseFrom, if_pos hk.symm, gather, h1]
        exact ⟨rfl, by omega⟩
      · simp only [if_neg hk]
        refine ⟨?_, le_rfl⟩
        rw [hpop, collapseFrom, if_neg (Ne.symm hk), collapse]

theorem mergedTerms_eq (deleted : DeleteSet) {n : ℕ}
    (hn : ss.flatten.length ≤ n) :
    mergedTerms deleted n ss
      = (collapse Prod.fst gather (popped ss)).filterMap (emit deleted) := by
  induction n generalizing ss with
  | zero =>
    have hnil : ss.flatten = [] := length_eq_zero_iff.mp (Nat.le_zero.mp hn)
    rw [mergedTerms, popped, hnil]
    rfl
  | succ n ih =>
    rw [mergedTerms]
    cases hl : least Prod.fst ss with
    | none =>
      rw [popped_eq_nil hl]
      rfl
    | some p =>
      obtain ⟨index, key, list⟩ := p
      obtain ⟨hpop, hlen⟩ := popped_eq_cons hl
      obtain ⟨h1, h2⟩ := takeSame_spec (n := n) key list.items (ss.modify index tail) (by omega)
      rw [hpop, collapse, h1, filterMap_cons, ← ih (by omega)]
      simp only
      cases emit deleted (key, (takeSame key n list.items (ss.modify index tail)).1) <;> rfl

section Parts

variable (deleted : DeleteSet) (opened : List Segment)

theorem sources_sorted : ∀ s ∈ sources opened, Sorted Prod.fst s := by
  intro s hs
  obtain ⟨seg, -, rfl⟩ := mem_map.mp hs
  exact seg.terms.ascending.sorted

theorem sorted_popped : Sorted Prod.fst (popped (sources opened)) := by
  rw [popped, Sorted, pairwise_map]
  exact pairwise_kmerge (sources_sorted opened)

theorem emit_key {group : TermKey × List Posting} {term : TermKey × PostingList}
    (h : emit deleted group = some term) : term.1 = group.1 := by
  simp only [emit] at h
  split_ifs at h
  rw [← some_inj.mp h]

theorem ascending_mergedTerms :
    Ascending Prod.fst
      (mergedTerms deleted (sources opened).flatten.length (sources opened)) := by
  rw [mergedTerms_eq deleted le_rfl]
  exact ascending_filterMap (fun _ _ => emit_key deleted)
    (ascending_collapse gather_key (sorted_popped opened))

theorem filter_popped (k : TermKey) :
    (popped (sources opened)).filter (fun e => e.1 = k)
      = opened.filterMap fun s => (s.terms.get? k).map fun list => (k, list.items) := by
  have hmerge := filter_kmerge (sources_sorted opened) le_rfl k
  rw [popped, List.filter_map]
  refine (congrArg (map fun e : TermKey × PostingList => (e.1, e.2.items)) hmerge).trans ?_
  rw [sources]
  induction opened with
  | nil => rfl
  | cons s opened ih =>
    rw [map_cons, flatten_cons, filter_append, map_append,
      ih (filter_kmerge (sources_sorted opened) le_rfl k), filterMap_cons,
      filter_eq_find s.terms.ascending, get?]
    cases hf : find Prod.fst k s.terms.entries with
    | none => rfl
    | some e =>
      have hk : e.1 = k := find_key hf
      rw [← hk]
      rfl

theorem foldRun_gather {k : TermKey} {l : List (TermKey × List Posting)} (h : ∀ e ∈ l, e.1 = k) :
    foldRun gather l = if l = [] then none else some (k, l.flatMap Prod.snd) := by
  have hfold : ∀ (l : List (TermKey × List Posting)) (a : TermKey × List Posting),
      l.foldl gather a = (a.1, a.2 ++ l.flatMap Prod.snd) := by
    intro l
    induction l with
    | nil => simp
    | cons b l ih =>
      intro a
      rw [foldl_cons, ih]
      simp [gather]
  rcases l with _ | ⟨a, l⟩
  · rfl
  · rw [foldRun, hfold, if_neg (by simp), h a (by simp), flatMap_cons]

theorem emit_find (k : TermKey) (items : List Posting) (d : DocId) :
    ((emit deleted (k, items)).bind fun t => t.2.find d)
      = if d ∈ deleted then none
        else foldRun Posting.absorb (items.filter fun p => p.docId = d) := by
  have hfind : (deleted.filterInPlace (fromItems items)).find d
      = if d ∈ deleted then none
        else foldRun Posting.absorb (items.filter fun p => p.docId = d) := by
    rw [DeleteSet.find_filterInPlace, find_fromItems]
  rw [← hfind]
  simp only [emit]
  split_ifs with h
  · rw [PostingList.find, h]
    rfl
  · rfl

theorem filter_gathered (k : TermKey) (d : DocId) :
    (((opened.filterMap fun s => (s.terms.get? k).map fun list => (k, list.items)).flatMap
      Prod.snd).filter fun p => p.docId = d) = opened.filterMap fun s => s.posting k d := by
  induction opened with
  | nil => rfl
  | cons s opened ih =>
    rw [filterMap_cons, filterMap_cons, posting]
    cases s.terms.get? k with
    | none => exact ih
    | some list =>
      simp only [map_some, bind_some]
      rw [flatMap_cons, filter_append, ih, filter_eq_find list.ascending]
      change (list.find d).toList ++ _ = _
      cases list.find d <;> rfl

theorem find_mergedTerms (k : TermKey) (d : DocId) :
    ((find Prod.fst k (mergedTerms deleted (sources opened).flatten.length
        (sources opened))).bind fun t => t.2.find d)
      = if d ∈ deleted then none
        else joinAll (opened.map fun s => s.posting k d) := by
  have hcollapse : find Prod.fst k (collapse Prod.fst gather (popped (sources opened)))
      = foldRun gather
        (opened.filterMap fun s => (s.terms.get? k).map fun list => (k, list.items)) := by
    rw [find_collapse gather_key (sorted_popped opened), filter_popped]
  have hkeys : ∀ e ∈ opened.filterMap fun s => (s.terms.get? k).map fun list => (k, list.items),
      e.1 = k := by
    intro e he
    obtain ⟨s, -, hs⟩ := mem_filterMap.mp he
    obtain ⟨list, -, rfl⟩ := map_eq_some_iff.mp hs
    rfl
  have hitems := filter_gathered opened k d
  rw [mergedTerms_eq deleted le_rfl, find_filterMap (fun _ _ => emit_key deleted)
    (ascending_collapse gather_key (sorted_popped opened)), hcollapse, foldRun_gather hkeys,
    joinAll_map]
  split_ifs with hnil hd hd
  · rfl
  · rw [← hitems, hnil]
    rfl
  · rw [bind_some, emit_find, if_pos hd]
  · rw [bind_some, emit_find, if_neg hd, hitems]

theorem get?_mergedLengths (d : DocId) (x : XPathId) :
    (mergedLengths deleted opened).get? (toLex (d, x))
      = if d ∈ deleted then none else opened.foldl (fun o s => (s.docLen d x).or o) none := by
  rw [mergedLengths]
  induction opened using reverseRecOn with
  | nil => simp
  | append_singleton opened s ih =>
    rw [foldl_append, foldl_append, foldl_cons, foldl_nil, foldl_cons, foldl_nil, get?_extend, ih]
    by_cases hd : d ∈ deleted
    · rw [filter_key_filter_eq_nil]
      · simp [hd]
      · intro e _ he
        simp [he, hd]
    · rw [filter_key_filter, filter_eq_find s.docLengths.ascending, docLen, get?]
      · rw [if_neg hd, if_neg hd]
        cases find Prod.fst (toLex (d, x)) s.docLengths.entries <;> rfl
      · intro e _ he
        simp [he, hd]

theorem of_addField (acc : NumericPoints) (xpath : XPathId) (field : NumericField) (x : XPathId)
    (d : DocId) :
    ((addField deleted acc xpath field).at_ x).of d
      = (acc.at_ x).of d ++
        if x = xpath ∧ d ∉ deleted then
          (field.docValues.of d).map fun e => (e.1, unpack e.2 field.docValues.kind)
        else [] := by
  rw [addField, DocValues.of]
  induction field.docValues.entries generalizing acc with
  | nil => simp
  | cons e es ih =>
    rw [foldl_cons, ih, filter_cons]
    by_cases hdel : e.1 ∈ deleted
    · -- a deleted document is skipped, and `d` is another one or deleted too
      rw [if_pos hdel]
      by_cases hd : d ∈ deleted
      · simp [hd]
      · have hne : e.1 ≠ d := fun h => hd (h ▸ hdel)
        simp [hne]
    · rw [if_neg hdel, of_insert]
      by_cases hx : x = xpath
      · by_cases he : e.1 = d
        · have hd : d ∉ deleted := he ▸ hdel
          simp [hx, he, hd]
        · simp [hx, he]
      · simp [hx]

def contributed (x : XPathId) (d : DocId) (s : Segment) : List (DocId × NumericValue) :=
  match s.numericFields.fields.get? x with
  | none => []
  | some field => (field.docValues.of d).map fun e => (e.1, unpack e.2 field.docValues.kind)

theorem of_mergedPoints (x : XPathId) (d : DocId) :
    ((mergedPoints deleted opened).at_ x).of d
      = if d ∈ deleted then [] else opened.flatMap (contributed x d) := by
  have hfields : ∀ (es : List (XPathId × NumericField)) (acc : NumericPoints),
      ((es.foldl (fun acc e => addField deleted acc e.1 e.2) acc).at_ x).of d
        = (acc.at_ x).of d ++ if d ∈ deleted then [] else
          (es.filter fun e => e.1 = x).flatMap fun e =>
            (e.2.docValues.of d).map fun p => (p.1, unpack p.2 e.2.docValues.kind) := by
    intro es
    induction es with
    | nil => simp
    | cons e es ih =>
      intro acc
      rw [foldl_cons, ih, of_addField, filter_cons]
      by_cases hd : d ∈ deleted
      · simp [hd]
      · by_cases hx : e.1 = x
        · simp [hd, hx]
        · simp [hd, hx, Ne.symm hx]
  rw [mergedPoints]
  induction opened using reverseRecOn with
  | nil => simp
  | append_singleton opened s ih =>
    rw [foldl_append, foldl_cons, foldl_nil, hfields, ih,
      filter_eq_find s.numericFields.fields.ascending, flatMap_append,
      flatMap_singleton, contributed, get?]
    by_cases hd : d ∈ deleted
    · simp [hd]
    · rw [if_neg hd, if_neg hd, if_neg hd]
      cases find Prod.fst x s.numericFields.fields.entries <;> simp

theorem of_mergedNumbers (x : XPathId) (d : DocId) :
    (mergedPoints deleted opened).build.of x d
      = if d ∈ deleted then [] else opened.flatMap fun s => s.numbers x d := by
  rw [of_build, of_mergedPoints]
  split_ifs
  · rfl
  · rw [map_flatMap]
    refine congrArg (fun f => opened.flatMap f) (funext fun s => ?_)
    rw [contributed, numbers, NumericFields.of]
    cases s.numericFields.fields.get? x with
    | none => rfl
    | some field =>
      rw [List.map_map]
      refine (map_congr_left fun e _ => ?_).trans (map_id _)
      rw [Function.comp_apply, pack_unpack]
      rfl

variable {x : XPathId} {d : DocId}

theorem mem_merged (ids : BoolField → Finset DocId) (hunion : ∀ f g, ids (f.union g) = ids f ∪ ids g)
    (hdefault : ids default = ∅) (hlive : ∀ f, ids (liveBools deleted f) = (ids f).filter (· ∉ deleted)) :
    d ∈ (((mergedBools deleted opened).get? x).map ids).getD ∅ ↔
      d ∉ deleted ∧ ∃ s ∈ opened, d ∈ ((s.boolFields.get? x).map ids).getD ∅ := by
  refine (MemIndex.mem_ids_foldl ids hunion hdefault boolFields (liveBools deleted) opened x).trans ?_
  rw [← exists_and_left]
  refine exists_congr fun s => ?_
  rw [and_left_comm]
  refine and_congr_right fun _ => ?_
  cases s.boolFields.get? x with
  | none => simp
  | some f => simp [hlive, and_comm]

/-! ### The opened output -/

def compacted : Segment :=
  match compactSegments opened deleted with
  | some file => file.open
  | none => Segment.new SortedMap.empty SortedMap.empty SortedMap.empty NumericFields.empty
      SortedMap.empty ArrayRowIndex.empty

theorem compacted_spec : ∃ file, compactSegments opened deleted = some file ∧
    compacted deleted opened = file.open ∧
    file.terms.entries = mergedTerms deleted (sources opened).flatten.length (sources opened) ∧
    file.docLengths = mergedLengths deleted opened ∧
    file.numericFields = (mergedPoints deleted opened).build ∧
    file.boolFields = mergedBools deleted opened ∧
    file.arrayRowIndex = mergedRows opened := by
  rw [compacted, compactSegments, writeMergedSegment]
  simp only [dif_pos (ascending_mergedTerms deleted opened)]
  exact ⟨_, rfl, rfl, rfl, rfl, rfl, rfl, rfl⟩

theorem posting_compacted (k : TermKey) (d : DocId) :
    (compacted deleted opened).posting k d
      = if d ∈ deleted then none
        else joinAll (opened.map fun s => s.posting k d) := by
  obtain ⟨file, -, hc, hterms, -⟩ := compacted_spec deleted opened
  rw [hc, ← find_mergedTerms deleted opened, ← hterms]
  change ((find Prod.fst k file.terms.entries).map Prod.snd).bind _ = _
  rw [bind_map]
  rfl

theorem docLen_compacted_ne_none
    (h : (compacted deleted opened).docLen d x ≠ none) : ∃ s ∈ opened, s.docLen d x ≠ none := by
  obtain ⟨file, -, hc, -, hlengths, -⟩ := compacted_spec deleted opened
  have hmerged : (mergedLengths deleted opened).get? (toLex (d, x)) ≠ none := by
    rw [hc] at h
    rw [← hlengths]
    exact get?_of_openLengths h
  rw [get?_mergedLengths] at hmerged
  split_ifs at hmerged with hd
  · exact absurd rfl hmerged
  · clear hc h hlengths
    induction opened using reverseRecOn with
    | nil => exact absurd rfl hmerged
    | append_singleton opened s ih =>
      rw [foldl_append, foldl_cons, foldl_nil] at hmerged
      cases hs : s.docLen d x with
      | none =>
        rw [hs] at hmerged
        obtain ⟨s', hs', hlen⟩ := ih hmerged
        exact ⟨s', by simp [hs'], hlen⟩
      | some len => exact ⟨s, by simp, by simp [hs]⟩

theorem numbers_compacted (x : XPathId) (d : DocId) :
    (compacted deleted opened).numbers x d
      = if d ∈ deleted then [] else opened.flatMap fun s => s.numbers x d := by
  obtain ⟨file, -, hc, -, -, hnum, -⟩ := compacted_spec deleted opened
  rw [hc, ← of_mergedNumbers deleted opened, ← hnum]
  rfl

theorem mem_boolTrueIds_compacted :
    d ∈ (compacted deleted opened).boolTrueIds x
      ↔ d ∉ deleted ∧ ∃ s ∈ opened, d ∈ s.boolTrueIds x := by
  obtain ⟨file, -, hc, -, -, -, hbool, -⟩ := compacted_spec deleted opened
  rw [hc]
  refine .trans ?_ (mem_merged deleted opened trueIds (fun _ _ => rfl) rfl fun _ => rfl)
  rw [← hbool]
  rfl

theorem mem_boolFalseIds_compacted :
    d ∈ (compacted deleted opened).boolFalseIds x
      ↔ d ∉ deleted ∧ ∃ s ∈ opened, d ∈ s.boolFalseIds x := by
  obtain ⟨file, -, hc, -, -, -, hbool, -⟩ := compacted_spec deleted opened
  rw [hc]
  refine .trans ?_ (mem_merged deleted opened falseIds (fun _ _ => rfl) rfl fun _ => rfl)
  rw [← hbool]
  rfl

theorem holds_compacted :
    (compacted deleted opened).Holds x d ↔ d ∉ deleted ∧ ∃ s ∈ opened, s.Holds x d := by
  have hpost : (∃ t, (compacted deleted opened).posting ⟨x, t⟩ d ≠ none)
      ↔ d ∉ deleted ∧ ∃ s ∈ opened, ∃ t, s.posting ⟨x, t⟩ d ≠ none := by
    simp only [posting_compacted]
    by_cases hd : d ∈ deleted
    · simp [hd]
    · simp only [hd, if_false, not_false_eq_true, true_and, joinAll_ne_none, List.mem_map]
      constructor
      · rintro ⟨t, -, ⟨s, hs, rfl⟩, h⟩
        exact ⟨s, hs, t, h⟩
      · rintro ⟨s, hs, t, h⟩
        exact ⟨t, _, ⟨s, hs, rfl⟩, h⟩
  have hnum : (compacted deleted opened).numbers x d ≠ []
      ↔ d ∉ deleted ∧ ∃ s ∈ opened, s.numbers x d ≠ [] := by
    rw [numbers_compacted]
    by_cases hd : d ∈ deleted <;> simp [hd]
  simp only [Holds, hpost, hnum, mem_boolTrueIds_compacted, mem_boolFalseIds_compacted,
    and_or_left, exists_or]

end Parts

end Compaction

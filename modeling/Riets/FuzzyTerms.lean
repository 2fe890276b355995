/-
The terms a misspelt word may stand for.

The memory index runs its own automaton over all terms of a field and stops at a
thousand; the segment file has another automaton walk the ordered terms, and looks
the word up where none of its letters may be changed.
-/
import Riets.LevenshteinAutomaton
import Riets.WildcardDisk

open Fallible List Option

def defaultMaxCandidates : ℕ := 1000

namespace MemIndex

def docFreq (m : MemIndex) (term : String) (xpath : XPathId) : ℕ :=
  ((m.terms.get? ⟨xpath, term⟩).map fun list => list.items.length % 2 ^ 32).getD 0

def collectFuzzy (m : MemIndex) (aut : LevenshteinAutomaton) (xpath : XPathId) :
    List (TermKey × PostingList) → List FuzzyExpansion → List FuzzyExpansion
  | [], candidates => candidates
  | (key, list) :: scan, candidates =>
    if key.xpath ≠ xpath ∨ list.items = [] then collectFuzzy m aut xpath scan candidates
    else
      match aut.distanceTo key.term with
      | none => collectFuzzy m aut xpath scan candidates
      | some edits =>
        let candidates := candidates ++ [⟨key.term, edits, m.docFreq key.term xpath⟩]
        if defaultMaxCandidates ≤ candidates.length then candidates
        else collectFuzzy m aut xpath scan candidates

/-- `fuzzy_expansions`, with the entries in the order the hash map gives them. -/
def scanFuzzy (m : MemIndex) (scan : List (TermKey × PostingList)) (term : String) (xpath : XPathId)
    (opts : FuzzyOptions) : List FuzzyExpansion :=
  m.collectFuzzy (.new [] term opts.maxEdits opts.prefixLength) xpath scan []

end MemIndex

inductive Distance where
  | exact (edits : ℕ)
  | atLeast (edits : ℕ)
  deriving DecidableEq

/-- The automata of the levenshtein crate: a word that is run through one, and the keys of an fst that
one accepts, with their ords and distances. -/
structure LevenshteinCrate where
  eval : ℕ → String → String → Distance
  search : Fst → ℕ → String → List (ByteSeq × ℕ × Distance)

structure ComputesDistance (lev : LevenshteinCrate) : Prop where
  eval : ∀ k query word, lev.eval k query word =
    match withinEdits k word.toList query.toList with
    | some edits => .exact edits
    | none => .atLeast (k + 1)
  search : ∀ (map : Fst) (terms : List String) (k : ℕ) (query : String), map.stream = (terms.map utf8).zipIdx →
    lev.search map k query = terms.zipIdx.filterMap fun e =>
      (withinEdits k e.1.toList query.toList).map fun edits => (utf8 e.1, e.2, .exact edits)

namespace TermDict

def hit (dict : TermDict) (term : String) (ord edits : ℕ) : FuzzyExpansion × TermMeta :=
  let m := (dict.metas[ord]?).getD default
  (⟨term, edits, m.docFreq⟩, m)

/-- The keys that start with the fixed letters; the first other key ends the walk. -/
def scanFixed (dict : TermDict) (lev : LevenshteinCrate) (k : ℕ) (fixed suffix : String) :
    List (ByteSeq × ℕ) → List (FuzzyExpansion × TermMeta)
  | [] => []
  | (key, ord) :: keys =>
    match ofUtf8 key with
    | none => []
    | some t =>
      if StartsWith t fixed then
        match lev.eval k suffix (String.ofList (t.toList.drop fixed.toList.length)) with
        | .exact edits => dict.hit t ord edits :: scanFixed dict lev k fixed suffix keys
        | .atLeast _ => scanFixed dict lev k fixed suffix keys
      else []

def fuzzyExpansions (codec : SegmentCodec) (lev : LevenshteinCrate) (dict : TermDict) (term : String)
    (opts : FuzzyOptions) : List (FuzzyExpansion × TermMeta) :=
  match dict.map with
  | none => []
  | some map =>
    let exact : List (FuzzyExpansion × TermMeta) :=
      match dict.get term with
      | some m => [(⟨term, 0, m.docFreq⟩, m)]
      | none => []
    if opts.maxEdits = 0 then exact
    else
      let (fixed, suffix) := splitPrefix term opts.prefixLength
      -- nothing is left that may be changed
      if suffix = "" then exact
      else
        let k := min opts.maxEdits 3
        if fixed = "" then
          (lev.search map k suffix).filterMap fun (key, ord, distance) =>
            match distance with
            | .exact edits => some (dict.hit (codec.lossy key) ord edits)
            | .atLeast _ => none
        else dict.scanFixed lev k fixed suffix (map.streamFrom (utf8 fixed))

end TermDict

def DiskSegment.fuzzyExpansions (s : DiskSegment) (codec : SegmentCodec) (lev : LevenshteinCrate) (term : String)
    (xpath : XPathId) (opts : FuzzyOptions) : List FuzzyExpansion :=
  match s.dictionary.get? xpath with
  | none => []
  | some dict => (dict.fuzzyExpansions codec lev term opts).map Prod.fst

/-! ### Near terms -/

/-- A term that begins with the fixed letters of a word and whose rest is close to the rest of the word. -/
def Near (term : String) (opts : FuzzyOptions) (t : String) : Prop :=
  StartsWith t (splitPrefix term opts.prefixLength).1 ∧
    editDistance (t.toList.drop (splitPrefix term opts.prefixLength).1.toList.length)
      (splitPrefix term opts.prefixLength).2.toList ≤ min opts.maxEdits maxSupportedEdits

instance (term : String) (opts : FuzzyOptions) (t : String) : Decidable (Near term opts t) :=
  inferInstanceAs (Decidable (_ ∧ _))

def memDistance (term : String) (opts : FuzzyOptions) (t : String) : Option ℕ :=
  (LevenshteinAutomaton.new [] term opts.maxEdits opts.prefixLength).distanceTo t

def diskDistance (term : String) (opts : FuzzyOptions) (t : String) : Option ℕ :=
  if opts.maxEdits = 0 ∨ (splitPrefix term opts.prefixLength).2 = "" then if t = term then some 0 else none
  else memDistance term opts t

variable {opts : FuzzyOptions} {term : String}

theorem isSome_memDistance {t : String} :
    (memDistance term opts t).isSome = true ↔ Near term opts t := by
  rw [memDistance, LevenshteinAutomaton.distanceTo_eq, Near, withinEdits]
  split_ifs with hstart hclose
  · simp [hstart, hclose]
  · simp [hclose]
  · simp [hstart]

namespace MemIndex

open List

variable {m : MemIndex} {aut : LevenshteinAutomaton} {x : XPathId}

def candidate (m : MemIndex) (aut : LevenshteinAutomaton) (x : XPathId) (e : TermKey × PostingList) :
    Option FuzzyExpansion :=
  if e.1.xpath ≠ x ∨ e.2.items = [] then none
  else (aut.distanceTo e.1.term).map fun edits => ⟨e.1.term, edits, m.docFreq e.1.term x⟩

theorem collectFuzzy_eq (scan : List (TermKey × PostingList)) {candidates : List FuzzyExpansion}
    (h : candidates.length < defaultMaxCandidates) :
    m.collectFuzzy aut x scan candidates =
      (candidates ++ scan.filterMap (m.candidate aut x)).take defaultMaxCandidates := by
  induction scan generalizing candidates with
  | nil => rw [collectFuzzy, filterMap_nil, append_nil, take_of_length_le (by omega)]
  | cons e scan ih =>
    obtain ⟨key, list⟩ := e
    rw [collectFuzzy]
    by_cases hskip : key.xpath ≠ x ∨ list.items = []
    · have hnone : m.candidate aut x (key, list) = none := if_pos hskip
      rw [if_pos hskip, ih h, filterMap_cons_none hnone]
    · rw [if_neg hskip]
      cases hdistance : aut.distanceTo key.term with
      | none =>
        have hnone : m.candidate aut x (key, list) = none := by
          rw [candidate, if_neg hskip, hdistance]
          rfl
        rw [ih h, filterMap_cons_none hnone]
      | some edits =>
        have hsome : m.candidate aut x (key, list) = some ⟨key.term, edits, m.docFreq key.term x⟩ := by
          rw [candidate, if_neg hskip, hdistance]
          rfl
        have hlength : (candidates ++ [(⟨key.term, edits, m.docFreq key.term x⟩ : FuzzyExpansion)]).length =
            candidates.length + 1 := by
          rw [length_append, length_singleton]
        simp only
        rw [filterMap_cons_some hsome, append_cons candidates _ (scan.filterMap _)]
        split_ifs with hfull
        · -- the walk stops at the cap
          rw [hlength] at hfull
          rw [take_append_of_le_length (by omega), take_of_length_le (by omega)]
        · exact ih (by omega)

end MemIndex

namespace TermDict

open List

variable {lev : LevenshteinCrate}

theorem scanFixed_eq (hlev : ComputesDistance lev) (dict : TermDict) (k : ℕ) (fixed suffix : String)
    (keys : List (String × ℕ)) :
    dict.scanFixed lev k fixed suffix (keys.map fun e => (utf8 e.1, e.2)) =
      (keys.takeWhile fun e => StartsWith e.1 fixed).filterMap fun e =>
        (withinEdits k (e.1.toList.drop fixed.toList.length) suffix.toList).map fun edits => dict.hit e.1 e.2 edits := by
  induction keys with
  | nil => rfl
  | cons e keys ih =>
    rw [map_cons, scanFixed, ofUtf8_utf8]
    simp only
    split_ifs with hstart
    · rw [takeWhile_cons_of_pos (by simpa using hstart), hlev.eval, String.toList_ofList]
      cases hdistance : withinEdits k (e.1.toList.drop fixed.toList.length) suffix.toList with
      | none => rw [filterMap_cons_none (by rw [hdistance]; rfl), ← ih]
      | some edits => rw [filterMap_cons_some (by rw [hdistance]; rfl), ← ih]
    · rw [takeWhile_cons_of_neg (by simpa using hstart)]
      rfl

end TermDict

namespace FieldDict.Holds

open List Option

variable {codec : SegmentCodec} {encoder : SegmentEncoder} {lev : LevenshteinCrate} {dict : FieldDict}
  {terms : List (String × TermMeta)}

theorem filterMap_key {α β : Type} [DecidableEq α] {l : List (α × β)} (hnodup : (l.map Prod.fst).Nodup) (a : α) {γ : Type}
    (f : α × β → γ) : (l.filterMap fun e => if e.1 = a then some (f e) else none) =
      ((l.find? fun e => e.1 = a).map f).toList := by
  induction l with
  | nil => rfl
  | cons e l ih =>
    rw [map_cons, nodup_cons] at hnodup
    by_cases he : e.1 = a
    · have hnone : l.filterMap (fun e => if e.1 = a then some (f e) else none) = [] := by
        refine filterMap_eq_nil_iff.mpr fun e' he' => if_neg fun heq => hnodup.1 ?_
        rw [he, ← heq]
        exact mem_map_of_mem he'
      rw [filterMap_cons, if_pos he, hnone, find?_cons_of_pos (by simpa using he)]
      rfl
    · rw [filterMap_cons, if_neg he, find?_cons_of_neg (by simpa using he), ih hnodup.2]

theorem fuzzyExpansions_eq (laws : RoundTrips codec encoder) (ranges : RangesFrom codec) (hlev : ComputesDistance lev)
    (h : dict.Holds codec terms) (hasc : (terms.map Prod.fst).Pairwise (· < ·)) (term : String)
    (opts : FuzzyOptions) :
    ((⟨some (dict.fst codec), dict.metas⟩ : TermDict).fuzzyExpansions codec lev term opts).map Prod.fst =
      terms.filterMap fun e => (diskDistance term opts e.1).map fun edits => ⟨e.1, edits, e.2.docFreq⟩ := by
  have hexact : (match (⟨some (dict.fst codec), dict.metas⟩ : TermDict).get term with
      | some m => [((⟨term, 0, m.docFreq⟩, m) : FuzzyExpansion × TermMeta)]
      | none => []).map Prod.fst =
        terms.filterMap fun e => if e.1 = term then some (⟨e.1, 0, e.2.docFreq⟩ : FuzzyExpansion) else none := by
    rw [filterMap_key (hasc.imp ne_of_lt) term (fun e => (⟨e.1, 0, e.2.docFreq⟩ : FuzzyExpansion)), (h.answers laws).get]
    cases hfind : terms.find? fun e => e.1 = term with
    | none => rfl
    | some e =>
      have heq : e.1 = term := by simpa using find?_some hfind
      simp only [map_some, toList_some, map_cons, map_nil, heq]
  rw [TermDict.fuzzyExpansions]
  simp only
  by_cases hzero : opts.maxEdits = 0
  · simp only [hzero, if_true, diskDistance, true_or, apply_ite (Option.map _), map_some, map_none]
    exact hexact
  by_cases hpinned : (splitPrefix term opts.prefixLength).2 = ""
  · simp only [hzero, if_false, hpinned, if_true, diskDistance, or_true, apply_ite (Option.map _), map_some, map_none]
    exact hexact
  -- the ords of the keys lead back to the metas
  have hterms : ∀ f : String → Option ℕ,
      ((terms.map Prod.fst).zipIdx.filterMap fun e =>
        (f e.1).map fun edits => (⟨some (dict.fst codec), dict.metas⟩ : TermDict).hit e.1 e.2 edits).map Prod.fst =
        terms.filterMap fun e => (f e.1).map fun edits => (⟨e.1, edits, e.2.docFreq⟩ : FuzzyExpansion) := by
    intro f
    conv_rhs => rw [← h.zipIdx_metas]
    rw [filterMap_map, map_filterMap]
    refine filterMap_congr fun e _ => ?_
    rw [Option.map_map]
    rfl
  have hdistance : ∀ t, diskDistance term opts t =
      if StartsWith t (splitPrefix term opts.prefixLength).1 then
        withinEdits (min opts.maxEdits 3) (t.toList.drop (splitPrefix term opts.prefixLength).1.toList.length)
          (splitPrefix term opts.prefixLength).2.toList
      else none := by
    intro t
    rw [diskDistance, if_neg (by simp [hzero, hpinned]), memDistance, LevenshteinAutomaton.distanceTo_eq]
    rfl
  simp only [hzero, if_false, hpinned]
  by_cases hfixed : (splitPrefix term opts.prefixLength).1 = ""
  · rw [if_pos hfixed, hlev.search _ _ _ _ h.stream_keys, filterMap_filterMap]
    refine Eq.trans (congrArg (List.map Prod.fst) (filterMap_congr fun e _ => ?_))
      (hterms (diskDistance term opts))
    rw [hdistance, hfixed, if_pos (startsWith_empty e.1), String.toList_empty, length_nil, drop_zero]
    cases withinEdits (min opts.maxEdits 3) e.1.toList (splitPrefix term opts.prefixLength).2.toList with
    | none => rfl
    | some edits =>
      rw [map_some, bind_some, laws.lossy]
      rfl
  · have hasc' : ((terms.map Prod.fst).zipIdx.map Prod.fst).Pairwise (· < ·) := by
      rw [zipIdx_map_fst]
      exact hasc
    rw [if_neg hfixed, ranges.streamFrom _ _ _ _ h.parse hasc h.stream_keys, TermDict.scanFixed_eq hlev,
      takeWhile_startsWith hasc', filterMap_filter]
    refine Eq.trans (congrArg (List.map Prod.fst) (filterMap_congr fun e _ => ?_))
      (hterms (diskDistance term opts))
    rw [hdistance]
    by_cases hstart : StartsWith e.1 (splitPrefix term opts.prefixLength).1
    · simp only [hstart, decide_true, if_true]
    · simp only [hstart, decide_false, if_false, map_none]
      rfl

end FieldDict.Holds

/-! ### What both find -/

/-- The entries of a field within some distance, each with the number of its documents. -/
def expansionsOf (f : String → Option ℕ) (x : XPathId) (entries : List (TermKey × PostingList)) : List FuzzyExpansion :=
  (entries.filter fun e => e.1.xpath = x).filterMap fun e =>
    (f e.1.term).map fun edits => ⟨e.1.term, edits, e.2.items.length⟩

section Expansions

variable {f g : String → Option ℕ} {x : XPathId} {entries : List (TermKey × PostingList)}

theorem mem_expansionsOf {a : FuzzyExpansion} : a ∈ expansionsOf f x entries ↔
    ∃ e ∈ entries, e.1.xpath = x ∧ f e.1.term = some a.edits ∧ a = ⟨e.1.term, a.edits, e.2.items.length⟩ := by
  rw [expansionsOf, mem_filterMap]
  constructor
  · rintro ⟨e, he, hmap⟩
    obtain ⟨he, hx⟩ := mem_filter.mp he
    obtain ⟨edits, hedits, rfl⟩ := map_eq_some_iff.mp hmap
    exact ⟨e, he, of_decide_eq_true hx, hedits, rfl⟩
  · rintro ⟨e, he, hx, hedits, heq⟩
    exact ⟨e, mem_filter.mpr ⟨he, decide_eq_true hx⟩, by rw [hedits, map_some, ← heq]⟩

theorem perm_expansionsOf {scan : List (TermKey × PostingList)} (h : scan.Perm entries) :
    (expansionsOf f x scan).Perm (expansionsOf f x entries) := (h.filter _).filterMap _

theorem map_term_expansionsOf : (expansionsOf f x entries).map FuzzyExpansion.term =
    ((entries.filter fun e => e.1.xpath = x).map fun e => e.1.term).filter fun t => (f t).isSome := by
  rw [expansionsOf]
  generalize (entries.filter fun e => e.1.xpath = x) = l
  induction l with
  | nil => rfl
  | cons e l ih =>
    rw [filterMap_cons, map_cons]
    cases hf : f e.1.term with
    | none => rw [filter_cons_of_neg (by simp [hf]), ← ih]; rfl
    | some edits => rw [filter_cons_of_pos (by simp [hf]), ← ih]; rfl

theorem nodup_terms (h : (entries.map Prod.fst).Nodup) :
    ((entries.filter fun e => e.1.xpath = x).map fun e => e.1.term).Nodup := by
  refine pairwise_map.mpr ?_
  refine ((pairwise_map.mp h).filter _).imp_of_mem fun {a b} ha hb hne hterm => hne ?_
  have hxa : a.1.xpath = x := of_decide_eq_true (mem_filter.mp ha).2
  have hxb : b.1.xpath = x := of_decide_eq_true (mem_filter.mp hb).2
  obtain ⟨⟨xa, ta⟩, la⟩ := a
  obtain ⟨⟨xb, tb⟩, lb⟩ := b
  obtain rfl : xa = xb := hxa.trans hxb.symm
  exact congrArg (TermKey.mk xa) hterm

theorem nodup_expansionsOf (h : (entries.map Prod.fst).Nodup) : (expansionsOf f x entries).Nodup :=
  Nodup.of_map FuzzyExpansion.term (map_term_expansionsOf ▸ (nodup_terms h).filter _)

end Expansions

theorem splitPrefix_eq_empty {n : ℕ} : (splitPrefix term n).2 = "" ↔ term.toList.length ≤ n := by
  rw [splitPrefix, ← String.toList_inj, String.toList_ofList, String.toList_empty, drop_eq_nil_iff]

theorem memDistance_self (term : String) (opts : FuzzyOptions) : memDistance term opts term = some 0 := by
  have hsplit : term.toList.drop (splitPrefix term opts.prefixLength).1.toList.length =
      (splitPrefix term opts.prefixLength).2.toList := by
    rw [splitPrefix, String.toList_ofList, String.toList_ofList, length_take]
    rcases le_total opts.prefixLength term.toList.length with hle | hle
    · rw [min_eq_left hle]
    · rw [min_eq_right hle, drop_length, drop_eq_nil_iff.mpr hle]
  have hstart : StartsWith term (splitPrefix term opts.prefixLength).1 := by
    rw [startsWith_iff, splitPrefix, String.toList_ofList]
    exact take_prefix _ _
  rw [memDistance, LevenshteinAutomaton.distanceTo_eq, if_pos hstart, hsplit, withinEdits, editDistance_self,
    if_pos (Nat.zero_le _)]

theorem eq_of_memDistance (hzero : opts.maxEdits = 0) {t : String}
    (h : memDistance term opts t ≠ none) : t = term := by
  obtain ⟨hstart, hclose⟩ := isSome_memDistance.mp (isSome_iff_ne_none.mpr h)
  obtain ⟨rest, hrest⟩ := startsWith_iff.mp hstart
  rw [hzero, Nat.zero_min, Nat.le_zero] at hclose
  have hsuffix := eq_of_editDistance_eq_zero hclose
  rw [← hrest, drop_left] at hsuffix
  rw [← String.toList_inj, ← hrest, hsuffix, splitPrefix, String.toList_ofList, String.toList_ofList,
    take_append_drop]

theorem diskDistance_eq (h : opts.prefixLength < term.toList.length)
    (t : String) : diskDistance term opts t = memDistance term opts t := by
  have hsuffix : (splitPrefix term opts.prefixLength).2 ≠ "" := fun hempty =>
    absurd (splitPrefix_eq_empty.mp hempty) (not_le.mpr h)
  rw [diskDistance]
  split_ifs with hzero hterm
  · rw [hterm, memDistance_self]
  · have hopts : opts.maxEdits = 0 := hzero.resolve_right hsuffix
    exact (not_not.mp fun hne => hterm (eq_of_memDistance hopts hne)).symm
  · rfl

theorem diskDistance_pinned (h : term.toList.length ≤ opts.prefixLength)
    (t : String) : diskDistance term opts t = if t = term then some 0 else none :=
  if_pos (.inr (splitPrefix_eq_empty.mpr h))

namespace DiskSegment.Opened

variable {codec : SegmentCodec} {encoder : SegmentEncoder} {lev : LevenshteinCrate} {d : DiskSegment} {s : Segment}
  {groups : List TermGroup}

theorem filterMap_describing {x : XPathId} (f : String → Option ℕ) {entries : List (TermKey × PostingList)}
    {terms : List (String × TermMeta)}
    (h : Forall₂ (fun e m => e.1.xpath = x ∧ Describing d (termEntry e) m) entries terms) :
    (terms.filterMap fun m => (f m.1).map fun edits => (⟨m.1, edits, m.2.docFreq⟩ : FuzzyExpansion)) =
      entries.filterMap fun e => (f e.1.term).map fun edits => ⟨e.1.term, edits, e.2.items.length⟩ := by
  induction h with
  | nil => rfl
  | @cons e m entries terms hem _ ih =>
    obtain ⟨-, hterm, hdescribes, -⟩ := hem
    have hsame : m.1 = e.1.term := hterm.symm
    have hfreq : m.2.docFreq = e.2.items.length := hdescribes.docFreq_eq
    rw [filterMap_cons, filterMap_cons, ih, hsame, hfreq]

theorem fuzzyExpansions_eq (laws : RoundTrips codec encoder) (ranges : RangesFrom codec) (hlev : ComputesDistance lev)
    (h : d.Opened codec s groups) (term : String) (x : XPathId) (opts : FuzzyOptions) :
    d.fuzzyExpansions codec lev term x opts = expansionsOf (diskDistance term opts) x s.terms.entries := by
  rw [fuzzyExpansions, expansionsOf]
  rcases h.field_cases laws x with ⟨hnone, hfilter⟩ | ⟨dict, terms, hget, hholds, hasc, hterms⟩
  · rw [hnone, hfilter]
    rfl
  · rw [hget]
    simp only
    rw [hholds.fuzzyExpansions_eq laws ranges hlev hasc]
    exact filterMap_describing _ hterms

end DiskSegment.Opened

namespace MemIndex

def Posted (m : MemIndex) : Prop := ∀ e ∈ m.terms.entries, e.2.items ≠ []

theorem mem_scanFuzzy {m : MemIndex} (hposted : m.Posted) (hlength : ∀ e ∈ m.terms.entries, e.2.items.length < 2 ^ 32)
    {scan : List (TermKey × PostingList)} (hperm : scan.Perm m.terms.entries) (term : String) (x : XPathId)
    (opts : FuzzyOptions) :
    m.scanFuzzy scan term x opts = (expansionsOf (memDistance term opts) x scan).take defaultMaxCandidates := by
  rw [scanFuzzy, collectFuzzy_eq scan (by decide), nil_append, expansionsOf, filterMap_filter]
  refine congrArg (take defaultMaxCandidates) (filterMap_congr fun e he => ?_)
  have hentry := hperm.mem_iff.mp he
  rw [candidate]
  by_cases hx : e.1.xpath = x
  · have hfreq : m.docFreq e.1.term x = e.2.items.length := by
      have hget : m.terms.get? ⟨x, e.1.term⟩ = some e.2 := by
        subst hx
        exact SortedMap.mem_entries.mp hentry
      rw [docFreq, hget, map_some, getD_some, Nat.mod_eq_of_lt (hlength e hentry)]
    rw [if_neg (by simp [hx, hposted e hentry]), if_pos (by simpa using hx), hfreq]
    rfl
  · rw [if_pos (.inl hx), if_neg (by simpa using hx)]

end MemIndex

def MemIndex.nearTerms (m : MemIndex) (term : String) (x : XPathId) (opts : FuzzyOptions) : List String :=
  ((m.terms.entries.filter fun e => e.1.xpath = x).map fun e => e.1.term).filter fun t => Near term opts t

section Agree

variable {entries : List (TermKey × PostingList)} {x : XPathId} {term : String} {opts : FuzzyOptions}

theorem mem_of_disk {a : FuzzyExpansion} (h : a ∈ expansionsOf (diskDistance term opts) x entries) :
    a ∈ expansionsOf (memDistance term opts) x entries := by
  obtain ⟨e, he, hx, hedits, heq⟩ := mem_expansionsOf.mp h
  refine mem_expansionsOf.mpr ⟨e, he, hx, ?_, heq⟩
  rcases lt_or_ge opts.prefixLength term.toList.length with hlong | hpinned
  · rw [← diskDistance_eq hlong, hedits]
  · rw [diskDistance_pinned hpinned] at hedits
    split_ifs at hedits with hterm
    rw [hterm, memDistance_self, hedits]

theorem length_disk_pinned (hnodup : (entries.map Prod.fst).Nodup) (hpinned : term.toList.length ≤ opts.prefixLength) :
    (expansionsOf (diskDistance term opts) x entries).length ≤ 1 := by
  rw [← length_map (f := FuzzyExpansion.term), map_term_expansionsOf]
  refine Subperm.length_le (@Nodup.subperm _ _ [term] ((nodup_terms hnodup).filter _) fun t ht => ?_)
  have hfound := (mem_filter.mp ht).2
  rw [diskDistance_pinned hpinned] at hfound
  split_ifs at hfound with hterm
  · exact mem_singleton.mpr hterm
  · cases hfound

theorem map_term_near (entries : List (TermKey × PostingList)) (x : XPathId) (term : String) (opts : FuzzyOptions) :
    (expansionsOf (memDistance term opts) x entries).map FuzzyExpansion.term =
      ((entries.filter fun e => e.1.xpath = x).map fun e => e.1.term).filter fun t => Near term opts t := by
  rw [map_term_expansionsOf]
  refine filter_congr fun t _ => ?_
  rw [Bool.eq_iff_iff, decide_eq_true_iff]
  exact isSome_memDistance

theorem take_same_iff (hnodup : (entries.map Prod.fst).Nodup) {scan : List (TermKey × PostingList)}
    (hperm : scan.Perm entries) :
    (∀ a, a ∈ (expansionsOf (memDistance term opts) x scan).take defaultMaxCandidates ↔
        a ∈ expansionsOf (diskDistance term opts) x entries) ↔
      (expansionsOf (memDistance term opts) x entries).length ≤ defaultMaxCandidates ∧
        (term.toList.length ≤ opts.prefixLength →
          ∀ a ∈ expansionsOf (memDistance term opts) x entries, a.term = term) := by
  have hscan := perm_expansionsOf (f := memDistance term opts) (x := x) hperm
  constructor
  · intro hsame
    have hmem : ((expansionsOf (memDistance term opts) x scan).take defaultMaxCandidates).Perm
        (expansionsOf (diskDistance term opts) x entries) := by
      refine (perm_ext_iff_of_nodup ?_ (nodup_expansionsOf hnodup)).mpr hsame
      exact (hscan.nodup_iff.mpr (nodup_expansionsOf hnodup)).sublist (take_sublist _ _)
    have hlength := hmem.length_eq
    rw [length_take, hscan.length_eq] at hlength
    rcases lt_or_ge opts.prefixLength term.toList.length with hlong | hpinned
    · rw [funext (diskDistance_eq hlong)] at hlength
      exact ⟨by omega, fun hpinned => absurd hpinned (not_le.mpr hlong)⟩
    · -- at most the word itself is found on disk, so the cap was not reached
      have hone := length_disk_pinned (x := x) hnodup hpinned
      have hcap : defaultMaxCandidates = 1000 := rfl
      refine ⟨by omega, fun _ a ha => ?_⟩
      have htake : (expansionsOf (memDistance term opts) x scan).take defaultMaxCandidates =
          expansionsOf (memDistance term opts) x scan := by
        refine take_of_length_le ?_
        rw [hscan.length_eq]
        omega
      rw [htake] at hsame
      obtain ⟨e, -, -, hedits, heq⟩ := mem_expansionsOf.mp ((hsame a).mp (hscan.mem_iff.mpr ha))
      rw [diskDistance_pinned hpinned] at hedits
      split_ifs at hedits with hterm
      rw [heq]
      exact hterm
  · rintro ⟨hcap, hfixed⟩ a
    rw [take_of_length_le (hscan.length_eq.trans_le hcap), hscan.mem_iff]
    refine ⟨fun ha => ?_, mem_of_disk⟩
    rcases lt_or_ge opts.prefixLength term.toList.length with hlong | hpinned
    · rw [funext (diskDistance_eq hlong)]
      exact ha
    · obtain ⟨e, he, hx, hedits, heq⟩ := mem_expansionsOf.mp ha
      have hterm : e.1.term = term := by
        have := hfixed hpinned a ha
        rw [heq] at this
        exact this
      refine mem_expansionsOf.mpr ⟨e, he, hx, ?_, heq⟩
      rw [diskDistance_pinned hpinned, if_pos hterm, ← hedits, hterm, memDistance_self]

end Agree

/-- The memory index and the file written from it find the same terms for a word, if and only if at most a thousand
terms of the field are near and no other term is near where all letters of the word are fixed. -/
theorem fuzzy_agree_iff {codec : SegmentCodec} {encoder : SegmentEncoder} (laws : RoundTrips codec encoder)
    (ranges : RangesFrom codec) {lev : LevenshteinCrate} (hlev : ComputesDistance lev) (m : MemIndex)
    (hposted : m.Posted) (hfits : (MemIndex.freezeShared [m]).Fits)
    (hlt : ∀ bytes, writeSegmentTo codec encoder (MemIndex.freezeShared [m]) = .ok bytes → bytes.length < 2 ^ 63) :
    ∃ bytes d, writeSegmentTo codec encoder (MemIndex.freezeShared [m]) = .ok bytes ∧
      DiskSegment.open codec bytes = .ok d ∧
      ∀ scan : List (TermKey × PostingList), scan.Perm m.terms.entries →
        ∀ (term : String) (x : XPathId) (opts : FuzzyOptions),
          (∀ a, a ∈ m.scanFuzzy scan term x opts ↔ a ∈ d.fuzzyExpansions codec lev term x opts) ↔
            (m.nearTerms term x opts).length ≤ defaultMaxCandidates ∧
              (term.toList.length ≤ opts.prefixLength → ∀ t ∈ m.nearTerms term x opts, t = term) := by
  obtain ⟨bytes, d, groups, hwrite, hopen, hopened⟩ := open_written laws hfits hlt
  refine ⟨bytes, d, hwrite, hopen, ?_⟩
  intro scan hperm term x opts
  have hnodup : (m.terms.entries.map Prod.fst).Nodup := m.terms.keys_ascending.imp ne_of_lt
  have hlength : ∀ e ∈ m.terms.entries, e.2.items.length < 2 ^ 32 := fun e he => by
    rw [← MemIndex.terms_freezeShared] at he
    exact (hfits.lists e he).count_lt
  have hnear := map_term_near m.terms.entries x term opts
  rw [hopened.fuzzyExpansions_eq laws ranges hlev, MemIndex.terms_freezeShared, MemIndex.mem_scanFuzzy hposted hlength hperm,
    take_same_iff hnodup hperm, MemIndex.nearTerms, ← hnear, length_map]
  refine and_congr_right fun _ => imp_congr_right fun _ => ?_
  rw [List.forall_mem_map]

/-! ### One term -/

def plainLevenshtein : LevenshteinCrate where
  eval k query word :=
    match withinEdits k word.toList query.toList with
    | some edits => .exact edits
    | none => .atLeast (k + 1)
  search map k query := map.stream.filterMap fun e =>
    (withinEdits k ((ofUtf8 e.1).getD "").toList query.toList).map fun edits => (e.1, e.2, .exact edits)

theorem computesDistance_plain : ComputesDistance plainLevenshtein where
  eval _ _ _ := rfl
  search map terms k query hstream := by
    simp only [plainLevenshtein, hstream, zipIdx_map, filterMap_map]
    refine filterMap_congr fun e _ => ?_
    simp only [Function.comp_apply, Prod.map_fst, ofUtf8_utf8, getD_some]
    rfl

def abTable : MemIndex := MemIndex.new.addAnalyzedDocument ⟨0, ⟨[⟨0, 1, [⟨"ab", [0], 1⟩]⟩], [], []⟩, []⟩

theorem abTable_entries : abTable.terms.entries =
    [(⟨0, "ab"⟩, ⟨[⟨0, [0], 1⟩], 1, pairwise_singleton _ _⟩)] := rfl

theorem abTable_posted : abTable.Posted := by
  intro e he
  rw [abTable_entries] at he
  rw [mem_singleton.mp he]
  exact cons_ne_nil _ _

theorem abTable_fits : (MemIndex.freezeShared [abTable]).Fits where
  lists := by decide
  termXPaths := by decide
  termCount := by decide
  lengthCount := by decide
  lengths := by decide
  numericCount := by decide
  numerics := fun e he => by cases he
  boolCount := by decide
  bools := fun e he => by cases he
  rowBase := by decide
  rowCount := by decide
  rowIds := by decide
  rowDocs := by decide
  rowParents := by decide
  docRange := by decide

theorem abTable_length (bytes : ByteSeq)
    (h : writeSegmentTo PlainCodec.codec PlainCodec.encoder (MemIndex.freezeShared [abTable]) = .ok bytes) :
    bytes.length < 2 ^ 63 := by
  have hlength : (length <$> writeSegmentTo PlainCodec.codec PlainCodec.encoder (MemIndex.freezeShared [abTable])) =
      .ok 199 := by rfl
  rw [h] at hlength
  have hlen : bytes.length = 199 := ok.inj hlength
  omega

/-- For a word of one letter that is fixed, the memory index finds the word of two letters and the file does not. -/
theorem pinned_word_differs :
    ∃ bytes d, writeSegmentTo PlainCodec.codec PlainCodec.encoder (MemIndex.freezeShared [abTable]) = .ok bytes ∧
      DiskSegment.open PlainCodec.codec bytes = .ok d ∧
        abTable.scanFuzzy abTable.terms.entries "a" 0 ⟨1, 1, 3⟩ = [⟨"ab", 1, 1⟩] ∧
        d.fuzzyExpansions PlainCodec.codec plainLevenshtein "a" 0 ⟨1, 1, 3⟩ = [] := by
  obtain ⟨bytes, d, groups, hwrite, hopen, hopened⟩ := open_written PlainCodec.roundTrips abTable_fits abTable_length
  refine ⟨bytes, d, hwrite, hopen, ?_, ?_⟩
  · rfl
  · rw [hopened.fuzzyExpansions_eq PlainCodec.roundTrips PlainCodec.rangesFrom computesDistance_plain,
      MemIndex.terms_freezeShared, abTable_entries]
    rfl

/-- Where only the first letter is fixed, they find the same terms. -/
theorem abTable_agree :
    ∃ bytes d, writeSegmentTo PlainCodec.codec PlainCodec.encoder (MemIndex.freezeShared [abTable]) = .ok bytes ∧
      DiskSegment.open PlainCodec.codec bytes = .ok d ∧
        ∀ a, a ∈ abTable.scanFuzzy abTable.terms.entries "ac" 0 ⟨1, 1, 3⟩ ↔
          a ∈ d.fuzzyExpansions PlainCodec.codec plainLevenshtein "ac" 0 ⟨1, 1, 3⟩ := by
  obtain ⟨bytes, d, hwrite, hopen, hagree⟩ := fuzzy_agree_iff PlainCodec.roundTrips PlainCodec.rangesFrom
    computesDistance_plain abTable abTable_posted abTable_fits abTable_length
  refine ⟨bytes, d, hwrite, hopen, (hagree _ (Perm.refl _) "ac" 0 ⟨1, 1, 3⟩).mpr ⟨?_, ?_⟩⟩
  · exact le_trans (length_filter_le _ _) (by rw [abTable_entries]; decide)
  · intro hpinned
    exact absurd hpinned (by decide)

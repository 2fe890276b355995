/-
Highlighting the matches of a query in a text.

The words of a text are found with their byte offsets, and the matchers give the ranges of the
text that are hits.  The ranges are sorted and joined, and a snippet is cut around the first few
of them, or of every sentence with a hit: the text of a window, with a tag put in front of every
range and one behind it.
-/
import Riets.Analyzer
import Riets.FuzzyTerms
import Riets.TextSlice

open Fallible TextSlice

/-! ### Words and matchers -/

structure UnicodeTables where
  isAlphanumeric : Char → Bool
  isUppercase : Char → Bool
  toLowercase : String → String

def Analyzer.isWordChar (unicode : UnicodeTables) (analyzer : Analyzer) (c : Char) : Bool :=
  unicode.isAlphanumeric c || decide (c ∈ analyzer.literalSymbols)

structure FuzzyMatcher where
  automaton : LevenshteinAutomaton

namespace FuzzyMatcher

def new (unicode : UnicodeTables) (term : String) (maxEdits prefixLength : ℕ) : FuzzyMatcher :=
  ⟨.new [] (unicode.toLowercase term) maxEdits prefixLength⟩

def «matches» (unicode : UnicodeTables) (f : FuzzyMatcher) (word : String) : Bool :=
  if word.toList.any unicode.isUppercase then (f.automaton.distanceTo (unicode.toLowercase word)).isSome
  else (f.automaton.distanceTo word).isSome

end FuzzyMatcher

inductive HighlightMatcher where
  | startsWith (start : String)
  | wildcard (pattern : WildcardPattern)
  | exact (text : String)
  | phrase (words : List String)
  | fuzzy (matcher : FuzzyMatcher)

structure HighlightFieldOptions where
  fragmentSize : ℕ
  numberOfFragments : ℕ
  preTags : List String
  postTags : List String
  sentence : Bool

structure TextWord where
  word : String
  start : ℕ
  stop : ℕ
  deriving DecidableEq

namespace Highlight

open List

abbrev TextRange := ℕ × ℕ

/-- The loop of `words`: the letters of the open word, its start, and the offset of the next
character. -/
def wordsFrom (isWordChar : Char → Bool) (word : List Char) (start i : ℕ) : List Char → List TextWord
  | [] => if word = [] then [] else [⟨String.ofList word, start, i⟩]
  | c :: chars =>
    if isWordChar c then
      wordsFrom isWordChar (word ++ [c.toLower]) (if word = [] then i else start) (i + c.utf8Size) chars
    else if word = [] then wordsFrom isWordChar [] start (i + c.utf8Size) chars
    else ⟨String.ofList word, start, i⟩ :: wordsFrom isWordChar [] start (i + c.utf8Size) chars

def words (isWordChar : Char → Bool) (text : String) : List TextWord := wordsFrom isWordChar [] 0 0 text.toList

def hits (unicode : UnicodeTables) (word : String) : HighlightMatcher → Bool
  | .startsWith start => decide (StartsWith word start)
  | .wildcard pattern => pattern.matches word
  | .fuzzy matcher => matcher.matches unicode word
  | .exact _ => false
  | .phrase _ => false

def wordRanges (unicode : UnicodeTables) (matchers : List HighlightMatcher) (ws : List TextWord) : List TextRange :=
  (ws.filter fun w => matchers.any (hits unicode w.word)).map fun w => (w.start, w.stop)

/-- The words from the `i`-th on start as those of the phrase. -/
def phraseAt (ws : List TextWord) (i : ℕ) : List String → Fallible Bool
  | [] => .ok true
  | start :: phrase => do
    let w ← index ws i
    if StartsWith w.word start then phraseAt ws (i + 1) phrase else .ok false

def phraseRanges (ws : List TextWord) (phrase : List String) : List ℕ → Fallible (List TextRange)
  | [] => .ok []
  | i :: places => do
    if ← phraseAt ws i phrase then do
      let first ← index ws i
      let last ← index ws (i + phrase.length - 1)
      let rest ← phraseRanges ws phrase places
      return (first.start, last.stop) :: rest
    else phraseRanges ws phrase places

/-- `match_indices`: where the needle is in the text, one after the other.  `skip` characters still
belong to the last one. -/
def matchIndices (needle : List Char) (skip i : ℕ) : List Char → List ℕ
  | [] => if needle = [] then [i] else []
  | c :: chars =>
    if 0 < skip then matchIndices needle (skip - 1) (i + c.utf8Size) chars
    else if needle <+: c :: chars then i :: matchIndices needle (needle.length - 1) (i + c.utf8Size) chars
    else matchIndices needle 0 (i + c.utf8Size) chars

def phraseMatcherRanges (ws : List TextWord) : List HighlightMatcher → Fallible (List TextRange)
  | [] => .ok []
  | .phrase phrase :: matchers =>
    if phrase.length < 2 then phraseMatcherRanges ws matchers
    else do
      let found ← phraseRanges ws phrase (range (ws.length - (phrase.length - 1)))
      let rest ← phraseMatcherRanges ws matchers
      return found ++ rest
  | _ :: matchers => phraseMatcherRanges ws matchers

def exactRanges (text : String) : HighlightMatcher → List TextRange
  | .exact needle =>
    (matchIndices needle.toList 0 0 text.toList).map fun start => (start, start + byteLen needle.toList)
  | _ => []

def findRanges (unicode : UnicodeTables) (text : String) (matchers : List HighlightMatcher) (analyzer : Analyzer) :
    Fallible (List TextRange) := do
  let ws := words (analyzer.isWordChar unicode) text
  let phrases ← phraseMatcherRanges ws matchers
  return wordRanges unicode matchers ws ++ phrases ++ matchers.flatMap (exactRanges text)

def rangeLe (a b : TextRange) : Prop := a.1 < b.1 ∨ a.1 = b.1 ∧ a.2 ≤ b.2

instance : DecidableRel rangeLe := fun a b => inferInstanceAs (Decidable (a.1 < b.1 ∨ a.1 = b.1 ∧ a.2 ≤ b.2))

/-- The loop of `merge_ranges`, with the last range that is not done. -/
def mergeFrom (last : TextRange) : List TextRange → List TextRange
  | [] => [last]
  | r :: ranges =>
    if r.1 ≤ last.2 then mergeFrom (last.1, max last.2 r.2) ranges else last :: mergeFrom r ranges

def mergeRanges (ranges : List TextRange) : List TextRange :=
  match ranges.insertionSort rangeLe with
  | [] => []
  | r :: ranges => mergeFrom r ranges

def tags (opts : HighlightFieldOptions) : String × String :=
  ((opts.preTags.head?).getD "", (opts.postTags.head?).getD "")

/-- The loop of `build_snippet`, from the offset the text is written up to. -/
def snippetFrom (text : String) (ws we : ℕ) (opts : HighlightFieldOptions) (pos : ℕ) : List TextRange → Fallible String
  | [] => slice text pos we
  | r :: ranges =>
    if r.2 ≤ ws ∨ we ≤ r.1 then snippetFrom text ws we opts pos ranges
    else do
      let s := max r.1 ws
      let e := min r.2 we
      let before ← slice text pos s
      let inside ← slice text s e
      let rest ← snippetFrom text ws we opts e ranges
      return before ++ (tags opts).1 ++ inside ++ (tags opts).2 ++ rest

def buildSnippet (text : String) (ws we : ℕ) (ranges : List TextRange) (opts : HighlightFieldOptions) : Fallible String :=
  snippetFrom text ws we opts ws ranges

/-- The loop of `fragments_by_chars`; an offset and half a fragment are added as machine numbers. -/
def charFragments (text : String) (ranges : List TextRange) (opts : HighlightFieldOptions) :
    List TextRange → Fallible (List String)
  | [] => .ok []
  | r :: rest => do
    let half := opts.fragmentSize / 2
    let ws := snapDown text.toList (r.1 - half)
    let stop ← add (2 ^ 64) r.2 half
    let we := snapUp text.toList (min stop (byteLen text.toList))
    let snippet ← buildSnippet text ws we ranges opts
    let snippets ← charFragments text ranges opts rest
    return snippet :: snippets

def fragmentsByChars (text : String) (ranges : List TextRange) (opts : HighlightFieldOptions) : Fallible (List String) :=
  if byteLen text.toList ≤ opts.fragmentSize then do
    let snippet ← buildSnippet text 0 (byteLen text.toList) ranges opts
    return [snippet]
  else charFragments text ranges opts (ranges.take opts.numberOfFragments)

def sentencesFrom (start i : ℕ) : List Char → List TextRange
  | [] => if start < i then [(start, i)] else []
  | c :: chars =>
    if c = '.' ∨ c = '!' ∨ c = '?' then
      (start, i + c.utf8Size) :: sentencesFrom (i + c.utf8Size) (i + c.utf8Size) chars
    else sentencesFrom start (i + c.utf8Size) chars

def splitSentences (text : String) : List TextRange := sentencesFrom 0 0 text.toList

def hasHit (ranges : List TextRange) (sentence : TextRange) : Bool :=
  ranges.any fun r => decide (r.1 < sentence.2 ∧ sentence.1 < r.2)

/-- The loop of `fragments_by_sentence`, with the number of snippets so far. -/
def sentenceFragments (text : String) (ranges : List TextRange) (opts : HighlightFieldOptions) (count : ℕ) :
    List TextRange → Fallible (List String)
  | [] => .ok []
  | sentence :: sentences =>
    if hasHit ranges sentence then do
      let snippet ← buildSnippet text sentence.1 sentence.2 ranges opts
      if opts.numberOfFragments ≤ count + 1 then .ok [snippet]
      else do
        let snippets ← sentenceFragments text ranges opts (count + 1) sentences
        return snippet :: snippets
    else sentenceFragments text ranges opts count sentences

def fragmentsBySentence (text : String) (ranges : List TextRange) (opts : HighlightFieldOptions) :
    Fallible (List String) :=
  sentenceFragments text ranges opts 0 (splitSentences text)

def highlightText (unicode : UnicodeTables) (text : String) (analyzer : Analyzer) (matchers : List HighlightMatcher)
    (opts : HighlightFieldOptions) : Fallible (List String) := do
  let found ← findRanges unicode text matchers analyzer
  let ranges := mergeRanges found
  if ranges = [] then .ok []
  else if opts.sentence then fragmentsBySentence text ranges opts
  else fragmentsByChars text ranges opts

section Words

variable {p : Char → Bool}

def wordOf (before run : List Char) : TextWord :=
  ⟨String.ofList (run.map Char.toLower), byteLen before, byteLen before + byteLen run⟩

theorem mem_wordsFrom {w : TextWord} (chars : List Char) : ∀ (front run : List Char) (start : ℕ),
    (∀ c ∈ run, p c = true) → (∀ c ∈ front.getLast?, p c = false) → (run ≠ [] → start = byteLen front) →
      (w ∈ wordsFrom p (run.map Char.toLower) start (byteLen (front ++ run)) chars ↔
        ∃ before run' after, before ++ run' ++ after = front ++ run ++ chars ∧ IsRun p before run' after ∧
          front <+: before ∧ w = wordOf before run') := by
  induction chars with
  | nil =>
    intro front run start hrun hfront hstart
    have hends : ∀ before run' after, before ++ run' ++ after = front ++ run ++ [] → IsRun p before run' after →
        front <+: before → before = front ∧ run' = run := by
      intro before run' after heq h hbefore
      rcases h.cases heq hrun (by simp) hbefore with ⟨rfl, rfl, -⟩ | ⟨c, tail, htail, -⟩
      · exact ⟨rfl, rfl⟩
      · cases htail
    rw [wordsFrom]
    by_cases hnil : run = []
    · rw [if_pos (by rw [hnil]; rfl)]
      refine ⟨fun h => absurd h not_mem_nil, ?_⟩
      rintro ⟨before, run', after, heq, h, hbefore, -⟩
      exact absurd ((hends _ _ _ heq h hbefore).2.trans hnil) h.nonempty
    · rw [if_neg (by simpa using hnil), mem_singleton, hstart hnil, byteLen_append]
      constructor
      · intro hw
        exact ⟨front, run, [], rfl, ⟨hnil, hrun, hfront, by simp⟩, prefix_rfl, hw⟩
      · rintro ⟨before, run', after, heq, h, hbefore, hw⟩
        obtain ⟨rfl, rfl⟩ := hends _ _ _ heq h hbefore
        exact hw
  | cons c chars ih =>
    intro front run start hrun hfront hstart
    rw [wordsFrom]
    by_cases hc : p c = true
    · -- the run goes on
      have hstep := ih front (run ++ [c]) (if run = [] then byteLen (front ++ run) else start)
        (fun c' hc' => (mem_append.mp hc').elim (hrun c') fun h => by rwa [mem_singleton.mp h]) hfront (by
          intro _
          split_ifs with hnil
          · rw [hnil, append_nil]
          · exact hstart hnil)
      rw [if_pos hc]
      have hlen : byteLen (front ++ (run ++ [c])) = byteLen (front ++ run) + c.utf8Size := by
        rw [← append_assoc, byteLen_append, byteLen_cons, byteLen_nil, Nat.add_zero]
      have hword : (run ++ [c]).map Char.toLower = run.map Char.toLower ++ [c.toLower] := by simp
      have hlist : front ++ (run ++ [c]) ++ chars = front ++ run ++ c :: chars := by simp
      simp only [map_eq_nil_iff]
      rw [hlen, hword, hlist] at hstep
      exact hstep
    · -- the run, where there is one, ends here
      rw [Bool.not_eq_true] at hc
      have hstep := ih (front ++ run ++ [c]) [] start (by simp) (by simpa using hc) (fun h => absurd rfl h)
      rw [append_nil, map_nil] at hstep
      have hlen : byteLen (front ++ run ++ [c]) = byteLen (front ++ run) + c.utf8Size := by
        rw [byteLen_append, byteLen_cons, byteLen_nil, Nat.add_zero]
      have hlist : front ++ run ++ [c] ++ chars = front ++ run ++ c :: chars := by simp
      rw [hlen, hlist] at hstep
      have hfurther : ∀ before, front ++ run ++ [c] <+: before → front <+: before := fun before h =>
        (by simp : front <+: front ++ run ++ [c]).trans h
      rw [if_neg (by simp [hc])]
      by_cases hnil : run = []
      · subst hnil
        rw [map_nil, if_pos rfl, hstep]
        constructor
        · rintro ⟨before, run', after, heq, h, hbefore, hw⟩
          exact ⟨before, run', after, heq, h, hfurther before hbefore, hw⟩
        · rintro ⟨before, run', after, heq, h, hbefore, hw⟩
          rcases h.cases heq hrun (by simpa using hc) hbefore with ⟨-, hrun', -⟩ | ⟨c', tail, htail, hprefix⟩
          · exact absurd hrun' h.nonempty
          · obtain ⟨rfl, rfl⟩ := cons.inj htail
            exact ⟨before, run', after, heq, h, hprefix, hw⟩
      · rw [if_neg (by simpa using hnil), mem_cons, hstep, hstart hnil, byteLen_append]
        constructor
        · rintro (hw | ⟨before, run', after, heq, h, hbefore, hw⟩)
          · exact ⟨front, run, c :: chars, rfl, ⟨hnil, hrun, hfront, by simpa using hc⟩, prefix_rfl, hw⟩
          · exact ⟨before, run', after, heq, h, hfurther before hbefore, hw⟩
        · rintro ⟨before, run', after, heq, h, hbefore, hw⟩
          rcases h.cases heq hrun (by simpa using hc) hbefore with ⟨rfl, rfl, -⟩ | ⟨c', tail, htail, hprefix⟩
          · exact Or.inl hw
          · obtain ⟨rfl, rfl⟩ := cons.inj htail
            exact Or.inr ⟨before, run', after, heq, h, hprefix, hw⟩

theorem mem_words {text : String} {w : TextWord} :
    w ∈ words p text ↔ ∃ before run after, before ++ run ++ after = text.toList ∧ IsRun p before run after ∧
      w = wordOf before run := by
  rw [words]
  refine (mem_wordsFrom text.toList [] [] 0 (by simp) (by simp) (fun h => absurd rfl h)).trans ?_
  simp only [nil_append, nil_prefix, true_and]

theorem words_apart (chars : List Char) : ∀ (word : List Char) (start i : ℕ), (word ≠ [] → start ≤ i) →
    (wordsFrom p word start i chars).Pairwise (fun a b => a.stop < b.start) ∧
      ∀ w ∈ wordsFrom p word start i chars, (if word = [] then i else start) ≤ w.start := by
  induction chars with
  | nil =>
    intro word start i _
    rw [wordsFrom]
    split_ifs
    · exact ⟨Pairwise.nil, by simp⟩
    · exact ⟨pairwise_singleton _ _, by simp⟩
  | cons c chars ih =>
    intro word start i hstart
    have hpos := c.utf8Size_pos
    rw [wordsFrom]
    by_cases hc : p c = true
    · rw [if_pos hc]
      obtain ⟨hpairwise, hlow⟩ := ih (word ++ [c.toLower]) (if word = [] then i else start) (i + c.utf8Size) (by
        intro _
        split_ifs with hnil
        · omega
        · have := hstart hnil
          omega)
      refine ⟨hpairwise, fun w hw => ?_⟩
      have := hlow w hw
      rwa [if_neg (by simp)] at this
    · obtain ⟨hpairwise, hlow⟩ := ih [] start (i + c.utf8Size) (fun h => absurd rfl h)
      have hlow' : ∀ w ∈ wordsFrom p [] start (i + c.utf8Size) chars, i < w.start := by
        intro w hw
        have := hlow w hw
        rw [if_pos rfl] at this
        omega
      rw [if_neg hc]
      split_ifs with hnil
      · exact ⟨hpairwise, fun w hw => (hlow' w hw).le⟩
      · refine ⟨pairwise_cons.mpr ⟨hlow', hpairwise⟩, fun w hw => ?_⟩
        have hle := hstart hnil
        rcases mem_cons.mp hw with rfl | hw
        · exact le_refl _
        · have := hlow' w hw
          omega

end Words

/-! ### Ranges -/

/-- A range starts and ends at boundaries of the text, and not before its start. -/
structure Sound (text : String) (r : TextRange) : Prop where
  le : r.1 ≤ r.2
  start : Boundary text.toList r.1
  stop : Boundary text.toList r.2

section Ranges

variable {text : String} {p : Char → Bool}

theorem sound_word {w : TextWord} (h : w ∈ words p text) : w.start < w.stop ∧ Sound text (w.start, w.stop) := by
  obtain ⟨before, run, after, htext, hrun, rfl⟩ := mem_words.mp h
  have hpos := byteLen_pos hrun.nonempty
  have hlt : byteLen before < byteLen before + byteLen run := by omega
  refine ⟨hlt, hlt.le, ⟨before, run ++ after, by rw [← htext, append_assoc], rfl⟩, before ++ run, after, htext.symm, ?_⟩
  rw [byteLen_append]
  rfl

theorem words_pairwise : (words p text).Pairwise fun a b => a.stop < b.start :=
  (words_apart text.toList [] 0 0 fun _ => le_refl 0).1

theorem sound_words {i j : ℕ} {w w' : TextWord} (hi : (words p text)[i]? = some w) (hj : (words p text)[j]? = some w')
    (hij : i ≤ j) : Sound text (w.start, w'.stop) := by
  have hw := sound_word (mem_of_getElem? hi)
  have hw' := sound_word (mem_of_getElem? hj)
  refine ⟨?_, hw.2.start, hw'.2.stop⟩
  show w.start ≤ w'.stop
  obtain ⟨hilt, hi⟩ := List.getElem?_eq_some_iff.mp hi
  obtain ⟨hjlt, hj⟩ := List.getElem?_eq_some_iff.mp hj
  -- one word, or the first ends before the second starts
  rcases Nat.eq_or_lt_of_le hij with rfl | hlt
  · rw [hi] at hj
    rw [← hj]
    exact hw.1.le
  · have hapart := pairwise_iff_getElem.mp (@words_pairwise text p) i j hilt hjlt hlt
    rw [hi, hj] at hapart
    have := hw.1
    have := hw'.1
    omega

theorem phraseAt_ok {ws : List TextWord} {phrase : List String} {i : ℕ} (h : i + phrase.length ≤ ws.length) :
    ∃ hit, phraseAt ws i phrase = .ok hit := by
  induction phrase generalizing i with
  | nil => exact ⟨true, rfl⟩
  | cons start phrase ih =>
    rw [length_cons] at h
    obtain ⟨hit, hhit⟩ := ih (i := i + 1) (by omega)
    rw [phraseAt, index_of_some (getElem?_eq_getElem (by omega : i < ws.length)), ok_bind]
    split_ifs
    · exact ⟨hit, hhit⟩
    · exact ⟨false, rfl⟩

theorem phraseRanges_ok {phrase : List String} (hphrase : 1 ≤ phrase.length) {places : List ℕ}
    (h : ∀ i ∈ places, i + phrase.length ≤ (words p text).length) :
    ∃ found, phraseRanges (words p text) phrase places = .ok found ∧ ∀ r ∈ found, Sound text r := by
  induction places with
  | nil => exact ⟨[], rfl, by simp⟩
  | cons i places ih =>
    obtain ⟨hi, hplaces⟩ := forall_mem_cons.mp h
    obtain ⟨found, hfound, hsound⟩ := ih hplaces
    obtain ⟨hit, hhit⟩ := phraseAt_ok hi
    rw [phraseRanges, hhit, ok_bind]
    cases hit with
    | false => exact ⟨found, hfound, hsound⟩
    | true =>
      have hfirst := getElem?_eq_getElem (by omega : i < (words p text).length)
      have hlast := getElem?_eq_getElem (by omega : i + phrase.length - 1 < (words p text).length)
      refine ⟨_ :: found, ?_, forall_mem_cons.mpr ⟨sound_words hfirst hlast (by omega), hsound⟩⟩
      rw [if_pos rfl, index_of_some hfirst, ok_bind, index_of_some hlast, ok_bind, hfound, ok_bind, pure_eq]

theorem phraseMatcherRanges_ok (matchers : List HighlightMatcher) :
    ∃ found, phraseMatcherRanges (words p text) matchers = .ok found ∧ ∀ r ∈ found, Sound text r := by
  fun_induction phraseMatcherRanges (words p text) matchers with
  | case1 => exact ⟨[], rfl, by simp⟩
  | case2 phrase matchers hshort ih => exact ih
  | case3 phrase matchers hlong ih =>
    obtain ⟨rest, hrest, hsound⟩ := ih
    -- the places are those with room for the phrase
    have hplaces : ∀ i ∈ range ((words p text).length - (phrase.length - 1)),
        i + phrase.length ≤ (words p text).length := by
      intro i hi
      have := mem_range.mp hi
      omega
    obtain ⟨found, hfound, hsound'⟩ := phraseRanges_ok (by omega) hplaces
    refine ⟨found ++ rest, ?_, fun r hr => (mem_append.mp hr).elim (hsound' r) (hsound r)⟩
    rw [hfound, ok_bind, hrest, ok_bind, pure_eq]
  | case4 matcher matchers hother ih => exact ih

theorem boundary_matchIndices {needle : List Char} (chars : List Char) : ∀ (front : List Char) (skip : ℕ),
    ∀ i ∈ matchIndices needle skip (byteLen front) chars,
      Boundary (front ++ chars) i ∧ Boundary (front ++ chars) (i + byteLen needle) := by
  induction chars with
  | nil =>
    intro front skip i hi
    rw [matchIndices] at hi
    split_ifs at hi with hneedle
    · rw [mem_singleton.mp hi, hneedle]
      exact ⟨boundary_append front [], boundary_append front []⟩
    · cases hi
  | cons c chars ih =>
    intro front skip i hi
    have hlist : front ++ c :: chars = (front ++ [c]) ++ chars := by simp
    have hlen : byteLen front + c.utf8Size = byteLen (front ++ [c]) := by simp
    rw [matchIndices, hlen] at hi
    rw [hlist]
    split_ifs at hi with hskip hneedle
    · exact ih _ _ i hi
    · rcases mem_cons.mp hi with rfl | hi
      · -- the needle is what comes next, so it ends between two characters
        obtain ⟨rest, hrest⟩ := hneedle
        rw [← hlist]
        refine ⟨boundary_append front _, front ++ needle, rest, by rw [← hrest, append_assoc], ?_⟩
        rw [byteLen_append]
      · exact ih _ _ i hi
    · exact ih _ _ i hi

theorem sound_exactRanges {matcher : HighlightMatcher} {r : TextRange} (h : r ∈ exactRanges text matcher) :
    Sound text r := by
  unfold exactRanges at h
  split at h
  · obtain ⟨i, hi, rfl⟩ := mem_map.mp h
    obtain ⟨hstart, hstop⟩ := boundary_matchIndices text.toList [] 0 i hi
    exact ⟨Nat.le_add_right _ _, hstart, hstop⟩
  · cases h

theorem findRanges_ok (unicode : UnicodeTables) (text : String) (matchers : List HighlightMatcher)
    (analyzer : Analyzer) :
    ∃ found, findRanges unicode text matchers analyzer = .ok found ∧ ∀ r ∈ found, Sound text r := by
  obtain ⟨phrases, hphrases, hsound⟩ :=
    @phraseMatcherRanges_ok text (analyzer.isWordChar unicode) matchers
  refine ⟨_, by rw [findRanges, hphrases, ok_bind, pure_eq], fun r hr => ?_⟩
  rcases mem_append.mp hr with hr | hr
  · rcases mem_append.mp hr with hr | hr
    · obtain ⟨w, hw, rfl⟩ := mem_map.mp hr
      exact (sound_word (mem_of_mem_filter hw)).2
    · exact hsound r hr
  · obtain ⟨matcher, -, hr⟩ := mem_flatMap.mp hr
    exact sound_exactRanges hr

def Apart (ranges : List TextRange) : Prop := ranges.Pairwise fun a b => a.2 < b.1

theorem rangeLe_total (a b : TextRange) : rangeLe a b ∨ rangeLe b a := by
  unfold rangeLe
  omega

theorem rangeLe_trans {a b c : TextRange} (hab : rangeLe a b) (hbc : rangeLe b c) : rangeLe a c := by
  unfold rangeLe at *
  omega

instance : Std.Total rangeLe := ⟨rangeLe_total⟩

instance : IsTrans TextRange rangeLe := ⟨fun _ _ _ => rangeLe_trans⟩

theorem mergeFrom_spec {ranges : List TextRange} {last : TextRange} (hsorted : (last :: ranges).Pairwise fun a b => a.1 ≤ b.1)
    (hlast : Sound text last) (hsound : ∀ r ∈ ranges, Sound text r) :
    Apart (mergeFrom last ranges) ∧ ∀ r ∈ mergeFrom last ranges, Sound text r ∧ last.1 ≤ r.1 := by
  induction ranges generalizing last with
  | nil => exact ⟨pairwise_singleton _ _, by simpa [mergeFrom] using hlast⟩
  | cons r ranges ih =>
    obtain ⟨hr, hranges⟩ := forall_mem_cons.mp hsound
    obtain ⟨hle, hsorted'⟩ := pairwise_cons.mp hsorted
    obtain ⟨hler, hle⟩ := forall_mem_cons.mp hle
    rw [mergeFrom]
    split_ifs with htouch
    · -- the range is taken into the last one
      have hsound' : Sound text (last.1, max last.2 r.2) := by
        have hlastle := hlast.le
        refine ⟨by show last.1 ≤ max last.2 r.2; omega, hlast.start, ?_⟩
        rcases max_choice last.2 r.2 with hmax | hmax
        · rw [hmax]
          exact hlast.stop
        · rw [hmax]
          exact hr.stop
      exact ih (pairwise_cons.mpr ⟨hle, hsorted'.of_cons⟩) hsound' hranges
    · -- the last one is done
      obtain ⟨hapart, hspec⟩ := ih hsorted' hr hranges
      refine ⟨pairwise_cons.mpr ⟨fun r' hr' => ?_, hapart⟩, forall_mem_cons.mpr ⟨⟨hlast, le_refl _⟩, ?_⟩⟩
      · have := (hspec r' hr').2
        omega
      · intro r' hr'
        have := (hspec r' hr').2
        exact ⟨(hspec r' hr').1, by omega⟩

theorem mergeRanges_spec {ranges : List TextRange} (h : ∀ r ∈ ranges, Sound text r) :
    Apart (mergeRanges ranges) ∧ ∀ r ∈ mergeRanges ranges, Sound text r := by
  have hmem : ∀ r ∈ ranges.insertionSort rangeLe, Sound text r := fun r hr =>
    h r ((mem_insertionSort rangeLe).mp hr)
  have hsorted : (ranges.insertionSort rangeLe).Pairwise fun a b => a.1 ≤ b.1 := by
    refine (pairwise_insertionSort rangeLe ranges).imp ?_
    intro a b hab
    unfold rangeLe at hab
    omega
  rw [mergeRanges]
  split
  · exact ⟨Pairwise.nil, by simp⟩
  · rename_i last rest heq
    rw [heq] at hmem hsorted
    obtain ⟨hlast, hrest⟩ := forall_mem_cons.mp hmem
    obtain ⟨hapart, hspec⟩ := mergeFrom_spec hsorted hlast hrest
    exact ⟨hapart, fun r hr => (hspec r hr).1⟩

end Ranges

/-! ### Snippets -/

inductive Piece where
  | plain (text : String)
  | tagged (text : String)

def Piece.text : Piece → String
  | plain text => text
  | tagged text => text

def Piece.render (tags : String × String) : Piece → String
  | plain text => text
  | tagged text => tags.1 ++ text ++ tags.2

def render (tags : String × String) (pieces : List Piece) : String := String.join (pieces.map (Piece.render tags))

def strip (pieces : List Piece) : String := String.join (pieces.map Piece.text)

def textBetween (text : String) (start stop : ℕ) : String := String.ofList (between text.toList start stop)

def PieceOf (text : String) (r : TextRange) : Prop :=
  ∃ front back, text.toList = front ++ (textBetween text r.1 r.2).toList ++ back ∧ byteLen front = r.1 ∧
    r.1 + byteLen (textBetween text r.1 r.2).toList = r.2

theorem Sound.pieceOf {text : String} {r : TextRange} (h : Sound text r) : PieceOf text r := by
  rw [PieceOf, textBetween, String.toList_ofList]
  exact between_piece h.start h.stop h.le

/-- The pieces of a window from an offset on: the ranges, cut off at the ends of the window, and what
is between them. -/
def piecesFrom (text : String) (window : TextRange) (pos : ℕ) : List TextRange → List Piece
  | [] => [.plain (textBetween text pos window.2)]
  | r :: ranges =>
    if r.2 ≤ window.1 ∨ window.2 ≤ r.1 then piecesFrom text window pos ranges
    else .plain (textBetween text pos (max r.1 window.1)) ::
      .tagged (textBetween text (max r.1 window.1) (min r.2 window.2)) ::
        piecesFrom text window (min r.2 window.2) ranges

def pieces (text : String) (ranges : List TextRange) (window : TextRange) : List Piece :=
  piecesFrom text window window.1 ranges

section Snippets

variable {text : String} {window : TextRange} {ranges : List TextRange}

theorem textBetween_append (text : String) {i j k : ℕ} (hij : i ≤ j) (hjk : j ≤ k) :
    textBetween text i j ++ textBetween text j k = textBetween text i k := by
  rw [textBetween, textBetween, textBetween, ← String.ofList_append, between_append _ hij hjk]

/-- The offset the text is written up to is in the window, and in front of the ranges that are still
to come. -/
structure Behind (text : String) (window : TextRange) (pos : ℕ) (ranges : List TextRange) : Prop where
  apart : Apart ranges
  sound : ∀ r ∈ ranges, Sound text r
  ge : window.1 ≤ pos
  le : pos ≤ window.2
  boundary : Boundary text.toList pos
  clear : ∀ r ∈ ranges, pos ≤ max r.1 window.1

theorem Behind.skip {pos : ℕ} {r : TextRange} (h : Behind text window pos (r :: ranges)) :
    Behind text window pos ranges :=
  ⟨h.apart.of_cons, fun r' hr' => h.sound r' (mem_cons_of_mem r hr'), h.ge, h.le, h.boundary,
    fun r' hr' => h.clear r' (mem_cons_of_mem r hr')⟩

theorem Behind.take {pos : ℕ} {r : TextRange} (hwindow : Sound text window) (h : Behind text window pos (r :: ranges))
    (hin : ¬ (r.2 ≤ window.1 ∨ window.2 ≤ r.1)) :
    Behind text window (min r.2 window.2) ranges ∧ Boundary text.toList (max r.1 window.1) ∧
      pos ≤ max r.1 window.1 ∧ max r.1 window.1 ≤ min r.2 window.2 := by
  have hr := h.sound r mem_cons_self
  have hle := hr.le
  have hwle := hwindow.le
  have hmax : Boundary text.toList (max r.1 window.1) := by
    rcases max_choice r.1 window.1 with hmax | hmax
    · rw [hmax]
      exact hr.start
    · rw [hmax]
      exact hwindow.start
  have hmin : Boundary text.toList (min r.2 window.2) := by
    rcases min_choice r.2 window.2 with hmin | hmin
    · rw [hmin]
      exact hr.stop
    · rw [hmin]
      exact hwindow.stop
  refine ⟨⟨h.skip.apart, h.skip.sound, by omega, by omega, hmin, fun r' hr' => ?_⟩, hmax,
    h.clear r mem_cons_self, by omega⟩
  -- a later range starts behind this one, so also behind the cut end of it
  have hapart := (pairwise_cons.mp h.apart).1 r' hr'
  omega

theorem snippetFrom_eq (hwindow : Sound text window) (opts : HighlightFieldOptions) :
    ∀ {ranges : List TextRange} {pos : ℕ}, Behind text window pos ranges →
      snippetFrom text window.1 window.2 opts pos ranges =
        .ok (render (tags opts) (piecesFrom text window pos ranges)) := by
  intro ranges
  induction ranges with
  | nil =>
    intro pos h
    rw [snippetFrom, slice_of_boundary h.le h.boundary hwindow.stop, piecesFrom, render]
    simp [Piece.render, textBetween]
  | cons r ranges ih =>
    intro pos h
    rw [snippetFrom, piecesFrom]
    split_ifs with hout
    · exact ih h.skip
    · obtain ⟨hnext, hmax, hle, hle'⟩ := h.take hwindow hout
      dsimp only
      rw [slice_of_boundary hle h.boundary hmax, ok_bind, slice_of_boundary hle' hmax hnext.boundary, ok_bind, ih hnext,
        ok_bind, pure_eq]
      simp [render, Piece.render, textBetween, String.append_assoc]

theorem strip_piecesFrom (hwindow : Sound text window) :
    ∀ {ranges : List TextRange} {pos : ℕ}, Behind text window pos ranges →
      strip (piecesFrom text window pos ranges) = textBetween text pos window.2 := by
  intro ranges
  induction ranges with
  | nil =>
    intro pos h
    simp [strip, piecesFrom, Piece.text]
  | cons r ranges ih =>
    intro pos h
    rw [piecesFrom]
    split_ifs with hout
    · exact ih h.skip
    · -- the text up to the range, the range, and what is behind it meet
      obtain ⟨hnext, -, hle, hle'⟩ := h.take hwindow hout
      have hrest := ih hnext
      rw [strip] at hrest
      rw [strip, map_cons, map_cons, String.join_cons, String.join_cons, hrest, Piece.text, Piece.text,
        textBetween_append text hle' hnext.le, textBetween_append text hle (hle'.trans hnext.le)]

theorem behind_start (hwindow : Sound text window) (hapart : Apart ranges) (hsound : ∀ r ∈ ranges, Sound text r) :
    Behind text window window.1 ranges :=
  ⟨hapart, hsound, le_refl _, hwindow.le, hwindow.start, fun r _ => le_max_right r.1 window.1⟩

end Snippets

/-! ### Fragments -/

def charWindow (text : String) (opts : HighlightFieldOptions) (r : TextRange) : TextRange :=
  (snapDown text.toList (r.1 - opts.fragmentSize / 2),
    snapUp text.toList (min (r.2 + opts.fragmentSize / 2) (byteLen text.toList)))

/-- The windows of the snippets: the sentences with a range in them, or the whole text, or around
the ranges. -/
def windows (text : String) (ranges : List TextRange) (opts : HighlightFieldOptions) : List TextRange :=
  if ranges = [] then []
  else if opts.sentence then
    ((splitSentences text).filter (hasHit ranges)).take (max opts.numberOfFragments 1)
  else if byteLen text.toList ≤ opts.fragmentSize then [(0, byteLen text.toList)]
  else (ranges.take opts.numberOfFragments).map (charWindow text opts)

section Fragments

variable {text : String} {ranges : List TextRange} {opts : HighlightFieldOptions}

def snippetOf (text : String) (ranges : List TextRange) (opts : HighlightFieldOptions) (window : TextRange) : String :=
  render (tags opts) (pieces text ranges window)

theorem buildSnippet_eq {window : TextRange} (hwindow : Sound text window) (hapart : Apart ranges)
    (hsound : ∀ r ∈ ranges, Sound text r) :
    buildSnippet text window.1 window.2 ranges opts = .ok (snippetOf text ranges opts window) :=
  snippetFrom_eq hwindow opts (behind_start hwindow hapart hsound)

theorem sound_charWindow {r : TextRange} (h : Sound text r) : Sound text (charWindow text opts r) := by
  have hle := h.le
  have hstop := h.stop.le
  obtain ⟨hdown, hdownle⟩ := snapDown_spec text.toList (r.1 - opts.fragmentSize / 2)
  obtain ⟨hup, hleup⟩ := snapUp_spec text.toList (min (r.2 + opts.fragmentSize / 2) (byteLen text.toList)) (by omega)
  refine ⟨?_, hdown, hup⟩
  show snapDown _ _ ≤ snapUp _ _
  omega

theorem charFragments_eq (hlen : byteLen text.toList < 2 ^ 63) (hsize : opts.fragmentSize < byteLen text.toList)
    (hapart : Apart ranges) (hsound : ∀ r ∈ ranges, Sound text r) {some : List TextRange}
    (hsome : ∀ r ∈ some, Sound text r) :
    charFragments text ranges opts some = .ok ((some.map (charWindow text opts)).map (snippetOf text ranges opts)) := by
  induction some with
  | nil => rfl
  | cons r some ih =>
    obtain ⟨hr, hsome⟩ := forall_mem_cons.mp hsome
    have hstop := hr.stop.le
    have hsnippet := @buildSnippet_eq text ranges opts _ (@sound_charWindow text opts r hr) hapart hsound
    rw [charWindow] at hsnippet
    rw [charFragments]
    dsimp only
    -- the end of a range and half a fragment are each less than `2 ^ 63`
    rw [add_of_lt (by omega), ok_bind, hsnippet, ok_bind, ih hsome, ok_bind, pure_eq]
    rfl

theorem sound_sentencesFrom (chars : List Char) : ∀ (front : List Char) (start : ℕ),
    text.toList = front ++ chars → Boundary text.toList start → start ≤ byteLen front →
      ∀ sentence ∈ sentencesFrom start (byteLen front) chars, Sound text sentence := by
  induction chars with
  | nil =>
    intro front start htext hstart hle sentence hsentence
    rw [sentencesFrom] at hsentence
    split_ifs at hsentence with hlt
    · rw [mem_singleton.mp hsentence]
      exact ⟨hle, hstart, front, [], htext, rfl⟩
    · cases hsentence
  | cons c chars ih =>
    intro front start htext hstart hle sentence hsentence
    have htext' : text.toList = (front ++ [c]) ++ chars := by rw [htext]; simp
    have hlen : byteLen front + c.utf8Size = byteLen (front ++ [c]) := by simp
    have hstop : Boundary text.toList (byteLen (front ++ [c])) := ⟨front ++ [c], chars, htext', rfl⟩
    rw [sentencesFrom, hlen] at hsentence
    split_ifs at hsentence with hend
    · rcases mem_cons.mp hsentence with rfl | hsentence
      · refine ⟨?_, hstart, hstop⟩
        show start ≤ byteLen (front ++ [c])
        omega
      · exact ih _ _ htext' hstop (le_refl _) sentence hsentence
    · exact ih _ _ htext' hstart (by omega) sentence hsentence

theorem sound_splitSentences : ∀ sentence ∈ splitSentences text, Sound text sentence :=
  sound_sentencesFrom text.toList [] 0 rfl (boundary_zero _) (le_refl 0)

theorem sentenceFragments_eq (hapart : Apart ranges) (hsound : ∀ r ∈ ranges, Sound text r)
    {sentences : List TextRange} (hsentences : ∀ sentence ∈ sentences, Sound text sentence) (count : ℕ) :
    sentenceFragments text ranges opts count sentences =
      .ok (((sentences.filter (hasHit ranges)).take
        (max opts.numberOfFragments (count + 1) - count)).map (snippetOf text ranges opts)) := by
  induction sentences generalizing count with
  | nil => rw [sentenceFragments, filter_nil, take_nil, map_nil]
  | cons sentence sentences ih =>
    obtain ⟨hsentence, hsentences⟩ := forall_mem_cons.mp hsentences
    rw [sentenceFragments]
    by_cases hhit : hasHit ranges sentence = true
    · rw [if_pos hhit, filter_cons_of_pos hhit, buildSnippet_eq hsentence hapart hsound, ok_bind]
      split_ifs with hlast
      · -- the snippet is pushed before they are counted
        rw [show max opts.numberOfFragments (count + 1) - count = 1 by omega]
        rfl
      · rw [ih hsentences, ok_bind, pure_eq]
        rw [show max opts.numberOfFragments (count + 1) - count =
          (max opts.numberOfFragments (count + 1 + 1) - (count + 1)) + 1 by omega]
        rfl
    · rw [if_neg hhit, filter_cons_of_neg hhit]
      exact ih hsentences count

theorem sound_windows (hsound : ∀ r ∈ ranges, Sound text r) : ∀ window ∈ windows text ranges opts, Sound text window := by
  intro window hwindow
  rw [windows] at hwindow
  split_ifs at hwindow
  · cases hwindow
  · exact sound_splitSentences window (mem_of_mem_filter (mem_of_mem_take hwindow))
  · rw [mem_singleton.mp hwindow]
    exact ⟨Nat.zero_le _, boundary_zero _, boundary_byteLen _⟩
  · obtain ⟨r, hr, rfl⟩ := mem_map.mp hwindow
    exact sound_charWindow (hsound r (mem_of_mem_take hr))

end Fragments

/-- Highlighting never slices the text inside a character, outside its bounds or backwards; the
merged ranges are apart and in order; and the snippets are those of the windows, each the text of
its window where the tags are removed. -/
theorem highlight_only_tags (unicode : UnicodeTables) {text : String} (hlen : byteLen text.toList < 2 ^ 63)
    (analyzer : Analyzer) (matchers : List HighlightMatcher) (opts : HighlightFieldOptions) :
    ∃ found, findRanges unicode text matchers analyzer = .ok found ∧ Apart (mergeRanges found) ∧
      (∀ r ∈ mergeRanges found, Sound text r) ∧
      highlightText unicode text analyzer matchers opts =
        .ok ((windows text (mergeRanges found) opts).map fun window =>
          render (tags opts) (pieces text (mergeRanges found) window)) ∧
      ∀ window ∈ windows text (mergeRanges found) opts, Sound text window ∧
        strip (pieces text (mergeRanges found) window) = textBetween text window.1 window.2 ∧
          PieceOf text window := by
  obtain ⟨found, hfound, hfoundsound⟩ := findRanges_ok unicode text matchers analyzer
  obtain ⟨hapart, hsound⟩ := mergeRanges_spec hfoundsound
  refine ⟨found, hfound, hapart, hsound, ?_, fun window hwindow => ?_⟩
  · rw [highlightText, hfound, ok_bind, windows]
    dsimp only
    split_ifs with hnil hsentence hshort
    · rfl
    · exact sentenceFragments_eq hapart hsound sound_splitSentences 0
    · have hwhole : Sound text (0, byteLen text.toList) := ⟨Nat.zero_le _, boundary_zero _, boundary_byteLen _⟩
      rw [fragmentsByChars, if_pos hshort, buildSnippet_eq hwhole hapart hsound, ok_bind, pure_eq]
      rfl
    · rw [fragmentsByChars, if_neg hshort, charFragments_eq hlen (by omega) hapart hsound
        fun r hr => hsound r (mem_of_mem_take hr)]
      rfl
  · have hwindow' := sound_windows hsound window hwindow
    exact ⟨hwindow', strip_piecesFrom hwindow' (behind_start hwindow' hapart hsound), hwindow'.pieceOf⟩

def latin : UnicodeTables where
  isAlphanumeric c := c.isAlphanum || [0xaa, 0xb2, 0xb3, 0xb5, 0xb9, 0xba, 0xbc, 0xbd, 0xbe].contains c.toNat ||
    (0xc0 ≤ c.toNat && c.toNat ≤ 0xff && c.toNat != 0xd7 && c.toNat != 0xf7)
  isUppercase c := c.isUpper || (0xc0 ≤ c.toNat && c.toNat ≤ 0xde && c.toNat != 0xd7)
  toLowercase s := String.ofList (s.toList.map fun c =>
    if 0xc0 ≤ c.toNat && c.toNat ≤ 0xde && c.toNat != 0xd7 then Char.ofNat (c.toNat + 32) else c.toLower)

def wordAnalyzer : Analyzer := ⟨.wordDelimiter {'_'} false false false, [], {'_'}, []⟩

theorem highlight_only_tags_elan :
    ∃ found, findRanges latin "Élan vital. Le vîtal." [.startsWith "vit", .exact "an vi"] wordAnalyzer = .ok found ∧
      ∀ window ∈ windows "Élan vital. Le vîtal." (mergeRanges found) ⟨8, 3, ["<em>"], ["</em>"], false⟩,
        strip (pieces "Élan vital. Le vîtal." (mergeRanges found) window) =
          textBetween "Élan vital. Le vîtal." window.1 window.2 := by
  obtain ⟨found, hfound, -, -, -, hstrip⟩ := @highlight_only_tags latin "Élan vital. Le vîtal." (by decide) wordAnalyzer
    [.startsWith "vit", .exact "an vi"] ⟨8, 3, ["<em>"], ["</em>"], false⟩
  exact ⟨found, hfound, fun window hwindow => (hstrip window hwindow).2.1⟩

end Highlight

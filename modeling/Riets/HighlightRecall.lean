/-
Which words of a text a query highlights.

The query is lowercased with the tables of the standard library.  The words of the text are folded
letter by letter, and only the letters of ASCII change; so a word can start with the query when
both are lowercased and still not be a hit.
-/
import Riets.Highlight
import Riets.WildcardParse

open Fallible TextSlice

namespace Highlight

open List

section Matchers

variable (unicode : UnicodeTables) (fuzzableWords : String → List String)

mutual

/-- `collect`; `fuzzableWords` are the words that the analyzer of the query makes of a text. -/
def collectHighlightMatchers : Query → List HighlightMatcher
  | .term s => [.startsWith (unicode.toLowercase s)]
  | .prefixed s => [.startsWith (unicode.toLowercase s)]
  | .wildcard pattern => [.wildcard (.parse (unicode.toLowercase pattern))]
  | .phrase terms => [.phrase (terms.map fun term => unicode.toLowercase term.text)]
  | .exactly s => [.exact s]
  | .fuzzy s fuzziness spec =>
    (fuzzableWords s).map fun word => .fuzzy (.new unicode word (fuzziness.resolve word) spec.prefixLength)
  | .wand children => collectChildren children
  | .and children => collectChildren children
  | .or children => collectChildren children
  | .sameElement children => collectChildren children
  | .synonym forms => collectForms forms
  | .range _ _ => []
  | .bool _ => []
  | .matchAll => []

def collectChildren : List Query → List HighlightMatcher
  | [] => []
  | child :: children => collectHighlightMatchers child ++ collectChildren children

def collectForms : List (Query × ℕ) → List HighlightMatcher
  | [] => []
  | (form, _) :: forms => collectHighlightMatchers form ++ collectForms forms

end

end Matchers

section Merged

variable {ranges : List TextRange}

theorem mergeFrom_of_apart {last : TextRange} (h : Apart (last :: ranges)) : mergeFrom last ranges = last :: ranges := by
  induction ranges generalizing last with
  | nil => rfl
  | cons r ranges ih =>
    obtain ⟨hlt, hrest⟩ := pairwise_cons.mp h
    have := hlt r mem_cons_self
    rw [mergeFrom, if_neg (by omega), ih hrest]

theorem mergeRanges_of_apart (h : Apart ranges) (hle : ∀ r ∈ ranges, r.1 ≤ r.2) : mergeRanges ranges = ranges := by
  have hsorted : ranges.Pairwise rangeLe := by
    refine h.imp_of_mem ?_
    intro a b ha _ hab
    have := hle a ha
    unfold rangeLe
    omega
  rw [mergeRanges, hsorted.insertionSort_eq]
  cases ranges with
  | nil => rfl
  | cons r ranges => exact mergeFrom_of_apart h

end Merged

/-! ### Words that start with a term -/

section Term

variable {unicode : UnicodeTables} {text : String} {analyzer : Analyzer} {start : String}

theorem findRanges_startsWith :
    findRanges unicode text [.startsWith start] analyzer =
      .ok (((words (analyzer.isWordChar unicode) text).filter fun w => StartsWith w.word start).map
        fun w => (w.start, w.stop)) := by
  have hhits : ∀ w : TextWord, [HighlightMatcher.startsWith start].any (hits unicode w.word) =
      decide (StartsWith w.word start) := by
    intro w
    rw [any_cons, any_nil, Bool.or_false, hits]
  rw [findRanges, phraseMatcherRanges, phraseMatcherRanges, wordRanges]
  · simp only [hhits]
    rw [ok_bind, flatMap_cons, flatMap_nil, exactRanges]
    · simp
    · intro needle h
      cases h
  · intro phrase h
    cases h

theorem mergeRanges_words (p : Char → Bool) (text : String) (keep : TextWord → Bool) :
    mergeRanges (((words p text).filter keep).map fun w => (w.start, w.stop)) =
      ((words p text).filter keep).map fun w => (w.start, w.stop) := by
  refine mergeRanges_of_apart (pairwise_map.mpr (words_pairwise.filter keep)) fun r hr => ?_
  obtain ⟨w, hw, rfl⟩ := mem_map.mp hr
  exact (sound_word (mem_of_mem_filter hw)).2.le

def Covered (ranges : List TextRange) (before run : List Char) : Prop :=
  ∃ r ∈ ranges, r.1 ≤ byteLen before ∧ byteLen before + byteLen run ≤ r.2

theorem covered_iff {p : Char → Bool} {before run after : List Char} (htext : before ++ run ++ after = text.toList)
    (hrun : IsRun p before run after) (keep : TextWord → Bool) :
    Covered (((words p text).filter keep).map fun w => (w.start, w.stop)) before run ↔
      keep (wordOf before run) = true := by
  have hword : wordOf before run ∈ words p text := mem_words.mpr ⟨before, run, after, htext, hrun, rfl⟩
  constructor
  · rintro ⟨r, hr, hstart, hstop⟩
    obtain ⟨w, hw, rfl⟩ := mem_map.mp hr
    obtain ⟨hw, hkeep⟩ := mem_filter.mp hw
    have hsymm : Std.Symm fun a b : TextWord => a.stop < b.start ∨ b.stop < a.start := ⟨fun _ _ => Or.symm⟩
    have happart : (words p text).Pairwise fun a b => a.stop < b.start ∨ b.stop < a.start :=
      words_pairwise.imp Or.inl
    -- the range of another word ends before this one starts, or starts behind its end
    have hsame : w = wordOf before run := by
      by_contra hne
      have hlt : (wordOf before run).start < (wordOf before run).stop := (sound_word hword).1
      have hstart : w.start ≤ (wordOf before run).start := hstart
      have hstop : (wordOf before run).stop ≤ w.stop := hstop
      have := happart.forall hw hword hne
      omega
    rwa [← hsame]
  · intro hkeep
    exact ⟨_, mem_map_of_mem (mem_filter.mpr ⟨hword, hkeep⟩), le_refl _, le_refl _⟩

/-- Every run of word characters that starts with the text of the query, when both are lowercased, is
inside a merged range. -/
def FindsAll (unicode : UnicodeTables) (text : String) (analyzer : Analyzer) (s : String) (merged : List TextRange) :
    Prop :=
  ∀ before run after, before ++ run ++ after = text.toList → IsRun (analyzer.isWordChar unicode) before run after →
    StartsWith (unicode.toLowercase (String.ofList run)) (unicode.toLowercase s) → Covered merged before run

/-- Every such run starts with the lowercased query also when only the letters of ASCII are
lowercased. -/
def FoldsAlike (unicode : UnicodeTables) (text : String) (analyzer : Analyzer) (s : String) : Prop :=
  ∀ before run after, before ++ run ++ after = text.toList → IsRun (analyzer.isWordChar unicode) before run after →
    StartsWith (unicode.toLowercase (String.ofList run)) (unicode.toLowercase s) →
      StartsWith (String.ofList (run.map Char.toLower)) (unicode.toLowercase s)

/-- A term finds all words that start with it exactly when they do under both foldings. -/
theorem finds_all_iff (unicode : UnicodeTables) (fuzzableWords : String → List String) (text : String)
    (analyzer : Analyzer) {query : Query} {s : String} (hquery : query = .term s ∨ query = .prefixed s) :
    ∃ found, findRanges unicode text (collectHighlightMatchers unicode fuzzableWords query) analyzer = .ok found ∧
      (FindsAll unicode text analyzer s (mergeRanges found) ↔ FoldsAlike unicode text analyzer s) := by
  have hmatchers : collectHighlightMatchers unicode fuzzableWords query = [.startsWith (unicode.toLowercase s)] := by
    rcases hquery with rfl | rfl
    · rw [collectHighlightMatchers]
    · rw [collectHighlightMatchers]
  refine ⟨_, by rw [hmatchers, findRanges_startsWith], ?_⟩
  rw [mergeRanges_words]
  constructor
  · intro h before run after htext hrun hstarts
    exact of_decide_eq_true ((covered_iff htext hrun _).mp (h before run after htext hrun hstarts))
  · intro h before run after htext hrun hstarts
    exact (covered_iff htext hrun _).mpr (decide_eq_true (h before run after htext hrun hstarts))

end Term

/-- In a text of ASCII letters both foldings do the same, and every word that starts with the query is
found. -/
theorem finds_all_plan :
    ∃ found, findRanges latin "Plan" (collectHighlightMatchers latin (fun _ => []) (.prefixed "PL")) wordAnalyzer =
        .ok found ∧ FindsAll latin "Plan" wordAnalyzer "PL" (mergeRanges found) := by
  have halike : FoldsAlike latin "Plan" wordAnalyzer "PL" := by
    intro before run after htext _ hstarts
    have hlower : latin.toLowercase (String.ofList run) = String.ofList (run.map Char.toLower) := by
      refine congrArg String.ofList (String.toList_ofList ▸ map_congr_left fun c hc => ?_)
      have hmem : c ∈ "Plan".toList := htext ▸ mem_append_left _ (mem_append_right _ hc)
      obtain rfl | rfl | rfl | rfl : c = 'P' ∨ c = 'l' ∨ c = 'a' ∨ c = 'n' := by simpa using hmem
      all_goals rfl
    rwa [hlower] at hstarts
  obtain ⟨found, hfound, hiff⟩ := finds_all_iff latin (fun _ => []) "Plan" wordAnalyzer (Or.inr rfl)
  exact ⟨found, hfound, hiff.mpr halike⟩

/-- A capital outside of ASCII is not folded in the text. -/
theorem elan_missed :
    ∃ found, findRanges latin "Élan" (collectHighlightMatchers latin (fun _ => []) (.term "élan")) wordAnalyzer =
        .ok found ∧ ¬ FindsAll latin "Élan" wordAnalyzer "élan" (mergeRanges found) := by
  have hrun : IsRun (wordAnalyzer.isWordChar latin) [] ['É', 'l', 'a', 'n'] [] := by
    refine ⟨cons_ne_nil _ _, ?_, by simp, by simp⟩
    simp only [forall_mem_cons]
    exact ⟨by decide, by decide, by decide, by decide, by simp⟩
  have htext : [] ++ ['É', 'l', 'a', 'n'] ++ [] = "Élan".toList := by decide
  refine ⟨_, by rw [collectHighlightMatchers, findRanges_startsWith], fun h => ?_⟩
  rw [mergeRanges_words] at h
  have hcovered := (covered_iff htext hrun _).mp (h [] _ [] htext hrun (by decide))
  exact absurd hcovered (by decide)

end Highlight

/-
Patterns as they are typed.

A pattern is parsed into tokens, and the tokens are matched against a term.  What a
pattern means is said of the pattern itself (`Glob`): a star stands for any run of
letters, a question mark for one letter, a group in brackets for one of its letters
and every other letter for itself.  Tokens mean languages, one behind the other.
-/
import Mathlib.Computability.Language
import Mathlib.Data.List.Infix
import Riets.Wildcard

inductive Glob : List Char → List Char → Prop
  | nil : Glob [] []
  | star {pattern text : List Char} (run : List Char) (h : Glob pattern text) :
      Glob ('*' :: pattern) (run ++ text)
  | one {pattern text : List Char} (c : Char) (h : Glob pattern text) : Glob ('?' :: pattern) (c :: text)
  | group {set pattern text : List Char} {c : Char} (hset : ']' ∉ set) (hc : c ∈ set) (h : Glob pattern text) :
      Glob ('[' :: (set ++ ']' :: pattern)) (c :: text)
  | unclosed {set : List Char} {c : Char} (hset : ']' ∉ set) (hc : c ∈ set) : Glob ('[' :: set) [c]
  | letter {pattern text : List Char} {c : Char} (hstar : c ≠ '*') (hone : c ≠ '?') (hgroup : c ≠ '[')
      (h : Glob pattern text) : Glob (c :: pattern) (c :: text)

namespace WildcardPattern

def pushLiteral (tokens : List WildcardToken) (literal : List Char) : List WildcardToken :=
  if literal = [] then tokens else tokens ++ [.literal (String.ofList literal)]

mutual

/-- The loop of `parse`, with the tokens so far and the literal that is being gathered. -/
def parseFrom (tokens : List WildcardToken) (literal : List Char) : List Char → List WildcardToken
  | [] => pushLiteral tokens literal
  | ch :: chars =>
    if ch = '*' then
      let tokens := pushLiteral tokens literal
      parseFrom (if tokens.getLast? = some .any then tokens else tokens ++ [.any]) [] chars
    else if ch = '?' then parseFrom (pushLiteral tokens literal ++ [.one]) [] chars
    else if ch = '[' then parseGroup (pushLiteral tokens literal) [] chars
    else parseFrom tokens (literal ++ [ch]) chars

def parseGroup (tokens : List WildcardToken) (set : List Char) : List Char → List WildcardToken
  | [] => tokens ++ [.oneOf set]
  | inner :: chars =>
    if inner = ']' then parseFrom (tokens ++ [.oneOf set]) [] chars
    else parseGroup tokens (set ++ [inner]) chars

end

def parse (input : String) : WildcardPattern := ⟨parseFrom [] [] input.toList⟩

end WildcardPattern

open WildcardPattern

def WildcardToken.language : WildcardToken → Language Char
  | .literal text => {text.toList}
  | .any => ⊤
  | .one => {word | ∃ c, word = [c]}
  | .oneOf set => {word | ∃ c ∈ set, word = [c]}

def tokensLanguage (tokens : List WildcardToken) : Language Char := (tokens.map WildcardToken.language).prod

theorem tokensLanguage_append (tokens rest : List WildcardToken) :
    tokensLanguage (tokens ++ rest) = tokensLanguage tokens * tokensLanguage rest := by
  rw [tokensLanguage, List.map_append, List.prod_append]
  rfl

theorem tokensLanguage_singleton (token : WildcardToken) : tokensLanguage [token] = token.language := by
  rw [tokensLanguage, List.map_singleton, List.prod_singleton]

theorem mem_tokensLanguage_cons {token : WildcardToken} {tokens : List WildcardToken} {word : List Char} :
    word ∈ tokensLanguage (token :: tokens) ↔
      ∃ a ∈ token.language, ∃ b ∈ tokensLanguage tokens, a ++ b = word := by
  rw [tokensLanguage, List.map_cons, List.prod_cons]
  exact Language.mem_mul

theorem any_mul_any : (⊤ : Language Char) * ⊤ = ⊤ := by
  refine Set.eq_univ_of_forall fun word => Language.mem_mul.mpr ?_
  exact ⟨[], Set.mem_univ _, word, Set.mem_univ _, rfl⟩

theorem matchesFrom_iff (tokens : List WildcardToken) (word : List Char) :
    matchesFrom tokens word = true ↔ word ∈ tokensLanguage tokens := by
  induction tokens generalizing word with
  | nil =>
    rw [matchesFrom, List.isEmpty_iff]
    exact Language.mem_one _ |>.symm
  | cons token tokens ih =>
    rw [mem_tokensLanguage_cons]
    cases token with
    | literal text =>
      rw [matchesFrom, Bool.and_eq_true, List.isPrefixOf_iff_prefix, ih]
      constructor
      · rintro ⟨⟨rest, hrest⟩, hmem⟩
        rw [← hrest, List.drop_left] at hmem
        exact ⟨text.toList, rfl, rest, hmem, hrest⟩
      · rintro ⟨a, ha, b, hb, rfl⟩
        obtain rfl : a = text.toList := ha
        rw [List.drop_left]
        exact ⟨List.prefix_append _ _, hb⟩
    | any =>
      rw [matchesFrom, List.any_eq_true]
      constructor
      · rintro ⟨rest, hrest, hmem⟩
        obtain ⟨run, hrun⟩ := (List.mem_tails _ _).mp hrest
        exact ⟨run, Set.mem_univ _, rest, (ih rest).mp hmem, hrun⟩
      · rintro ⟨run, -, rest, hmem, hrun⟩
        exact ⟨rest, (List.mem_tails _ _).mpr ⟨run, hrun⟩, (ih rest).mpr hmem⟩
    | one =>
      cases word with
      | nil =>
        rw [matchesFrom]
        refine ⟨fun h => (by cases h), ?_⟩
        rintro ⟨_, ⟨c, rfl⟩, b, -, hb⟩
        cases hb
      | cons c word =>
        rw [matchesFrom, ih]
        constructor
        · intro hmem
          exact ⟨[c], ⟨c, rfl⟩, word, hmem, rfl⟩
        · rintro ⟨_, ⟨d, rfl⟩, b, hb, heq⟩
          obtain ⟨-, rfl⟩ := List.cons.inj heq
          exact hb
    | oneOf set =>
      cases word with
      | nil =>
        rw [matchesFrom]
        refine ⟨fun h => (by cases h), ?_⟩
        rintro ⟨_, ⟨c, -, rfl⟩, b, -, hb⟩
        cases hb
      | cons c word =>
        rw [matchesFrom, Bool.and_eq_true, List.contains_iff_mem, ih]
        constructor
        · rintro ⟨hc, hmem⟩
          exact ⟨[c], ⟨c, hc, rfl⟩, word, hmem, rfl⟩
        · rintro ⟨_, ⟨d, hd, rfl⟩, b, hb, heq⟩
          obtain ⟨rfl, rfl⟩ := List.cons.inj heq
          exact ⟨hd, hb⟩

/-! ### Patterns -/

variable {text pattern set : List Char}

theorem glob_nil_iff : Glob [] text ↔ text = [] := by
  constructor
  · intro h
    cases h
    rfl
  · rintro rfl
    exact .nil

theorem glob_star_iff :
    Glob ('*' :: pattern) text ↔ ∃ run rest, run ++ rest = text ∧ Glob pattern rest := by
  constructor
  · intro h
    cases h with
    | star run h => exact ⟨run, _, rfl, h⟩
    | letter hstar => exact absurd rfl hstar
  · rintro ⟨run, rest, rfl, h⟩
    exact .star run h

theorem glob_one_iff :
    Glob ('?' :: pattern) text ↔ ∃ c rest, c :: rest = text ∧ Glob pattern rest := by
  constructor
  · intro h
    cases h with
    | one c h => exact ⟨c, _, rfl, h⟩
    | letter _ hone => exact absurd rfl hone
  · rintro ⟨c, rest, rfl, h⟩
    exact .one c h

theorem glob_letter_iff {c : Char} (hstar : c ≠ '*') (hone : c ≠ '?') (hgroup : c ≠ '[')
    {pattern text : List Char} : Glob (c :: pattern) text ↔ ∃ rest, c :: rest = text ∧ Glob pattern rest := by
  constructor
  · intro h
    cases h with
    | star => exact absurd rfl hstar
    | one => exact absurd rfl hone
    | group => exact absurd rfl hgroup
    | unclosed => exact absurd rfl hgroup
    | letter _ _ _ h => exact ⟨_, rfl, h⟩
  · rintro ⟨rest, rfl, h⟩
    exact .letter hstar hone hgroup h

theorem cut_at_bracket {set' pattern' : List Char} (hset : ']' ∉ set) (hset' : ']' ∉ set')
    (h : set ++ ']' :: pattern = set' ++ ']' :: pattern') : set = set' ∧ pattern = pattern' := by
  induction set generalizing set' with
  | nil =>
    cases set' with
    | nil => exact ⟨rfl, (List.cons.inj h).2⟩
    | cons c set' =>
      have hc : ']' = c := (List.cons.inj h).1
      exact absurd (hc ▸ List.mem_cons_self) hset'
  | cons c set ih =>
    cases set' with
    | nil =>
      have hc : c = ']' := (List.cons.inj h).1
      exact absurd (hc ▸ List.mem_cons_self) hset
    | cons c' set' =>
      obtain ⟨hc, hrest⟩ := List.cons.inj h
      have hin := ih (fun hmem => hset (List.mem_cons_of_mem _ hmem))
        (fun hmem => hset' (List.mem_cons_of_mem _ hmem)) hrest
      exact ⟨by rw [hc, hin.1], hin.2⟩

theorem glob_group_iff (hset : ']' ∉ set) :
    Glob ('[' :: (set ++ ']' :: pattern)) text ↔ ∃ c ∈ set, ∃ rest, c :: rest = text ∧ Glob pattern rest := by
  constructor
  · intro h
    generalize hwhole : '[' :: (set ++ ']' :: pattern) = whole at h
    cases h with
    | nil => cases hwhole
    | star => cases hwhole
    | one => cases hwhole
    | @group set' pattern' text' c hset' hc h =>
      -- both end at the first bracket
      obtain ⟨rfl, rfl⟩ := cut_at_bracket hset hset' (List.cons.inj hwhole).2
      exact ⟨c, hc, text', rfl, h⟩
    | unclosed hset' =>
      refine absurd ?_ hset'
      rw [← (List.cons.inj hwhole).2]
      exact List.mem_append_right _ List.mem_cons_self
    | letter _ _ hgroup => exact absurd (List.cons.inj hwhole).1.symm hgroup
  · rintro ⟨c, hc, rest, rfl, h⟩
    exact .group hset hc h

theorem glob_unclosed_iff (hset : ']' ∉ set) :
    Glob ('[' :: set) text ↔ ∃ c ∈ set, text = [c] := by
  constructor
  · intro h
    cases h with
    | group => exact absurd (List.mem_append_right _ List.mem_cons_self) hset
    | unclosed _ hc => exact ⟨_, hc, rfl⟩
    | letter _ _ hgroup => exact absurd rfl hgroup
  · rintro ⟨c, hc, rfl⟩
    exact .unclosed hset hc

def globLanguage (pattern : List Char) : Language Char := {text | Glob pattern text}

theorem language_pushLiteral (tokens : List WildcardToken) (literal : List Char) :
    tokensLanguage (pushLiteral tokens literal) = tokensLanguage tokens * {literal} := by
  rw [pushLiteral]
  split_ifs with hempty
  · rw [hempty]
    exact (mul_one (tokensLanguage tokens)).symm
  · rw [tokensLanguage_append, tokensLanguage_singleton, WildcardToken.language, String.toList_ofList]

theorem language_pushAny (tokens : List WildcardToken) :
    tokensLanguage (if tokens.getLast? = some .any then tokens else tokens ++ [.any]) =
      tokensLanguage tokens * ⊤ := by
  split_ifs with hlast
  · obtain ⟨before, rfl⟩ : ∃ before, tokens = before ++ [.any] := List.getLast?_eq_some_iff.mp hlast
    rw [tokensLanguage_append, tokensLanguage_singleton, mul_assoc]
    exact congrArg _ any_mul_any.symm
  · rw [tokensLanguage_append, tokensLanguage_singleton]
    rfl

theorem globLanguage_nil : globLanguage [] = 1 := by
  ext text
  exact glob_nil_iff.trans (Language.mem_one text).symm

theorem globLanguage_star (pattern : List Char) : globLanguage ('*' :: pattern) = ⊤ * globLanguage pattern := by
  ext text
  refine glob_star_iff.trans (Iff.trans ?_ Language.mem_mul.symm)
  constructor
  · rintro ⟨run, rest, htext, h⟩
    exact ⟨run, Set.mem_univ _, rest, h, htext⟩
  · rintro ⟨run, -, rest, h, htext⟩
    exact ⟨run, rest, htext, h⟩

theorem globLanguage_one (pattern : List Char) :
    globLanguage ('?' :: pattern) = WildcardToken.one.language * globLanguage pattern := by
  ext text
  refine glob_one_iff.trans (Iff.trans ?_ Language.mem_mul.symm)
  constructor
  · rintro ⟨c, rest, htext, h⟩
    exact ⟨[c], ⟨c, rfl⟩, rest, h, htext⟩
  · rintro ⟨_, ⟨c, rfl⟩, rest, h, htext⟩
    exact ⟨c, rest, htext, h⟩

theorem globLanguage_letter {c : Char} (hstar : c ≠ '*') (hone : c ≠ '?') (hgroup : c ≠ '[')
    (pattern : List Char) : globLanguage (c :: pattern) = {[c]} * globLanguage pattern := by
  ext text
  refine (glob_letter_iff hstar hone hgroup).trans (Iff.trans ?_ Language.mem_mul.symm)
  constructor
  · rintro ⟨rest, htext, h⟩
    exact ⟨[c], rfl, rest, h, htext⟩
  · rintro ⟨_, rfl, rest, h, htext⟩
    exact ⟨rest, htext, h⟩

theorem globLanguage_group (hset : ']' ∉ set) (pattern : List Char) :
    globLanguage ('[' :: (set ++ ']' :: pattern)) = (WildcardToken.oneOf set).language * globLanguage pattern := by
  ext text
  refine (glob_group_iff hset).trans (Iff.trans ?_ Language.mem_mul.symm)
  constructor
  · rintro ⟨c, hc, rest, htext, h⟩
    exact ⟨[c], ⟨c, hc, rfl⟩, rest, h, htext⟩
  · rintro ⟨_, ⟨c, hc, rfl⟩, rest, h, htext⟩
    exact ⟨c, hc, rest, htext, h⟩

theorem globLanguage_unclosed (hset : ']' ∉ set) :
    globLanguage ('[' :: set) = (WildcardToken.oneOf set).language := by
  ext text
  exact glob_unclosed_iff hset

theorem singleton_mul_singleton (a b : List Char) : ({a} : Language Char) * {b} = {a ++ b} :=
  Set.image2_singleton

mutual

theorem language_parseFrom (tokens : List WildcardToken) (literal : List Char) : ∀ pattern : List Char,
    tokensLanguage (parseFrom tokens literal pattern) = tokensLanguage tokens * {literal} * globLanguage pattern
  | [] => by
    rw [parseFrom, language_pushLiteral, globLanguage_nil, mul_one]
  | ch :: chars => by
    rw [parseFrom]
    split_ifs with hstar hone hgroup
    · rw [language_parseFrom, language_pushAny, language_pushLiteral, hstar, globLanguage_star, ← mul_assoc]
      exact congrArg (· * globLanguage chars) (mul_one _)
    · rw [language_parseFrom, tokensLanguage_append, tokensLanguage_singleton, language_pushLiteral, hone,
        globLanguage_one, ← mul_assoc]
      exact congrArg (· * globLanguage chars) (mul_one _)
    · rw [hgroup, language_parseGroup _ _ List.not_mem_nil, language_pushLiteral, List.nil_append]
    · rw [language_parseFrom, globLanguage_letter hstar hone hgroup, ← singleton_mul_singleton]
      simp only [mul_assoc]

theorem language_parseGroup (tokens : List WildcardToken) (set : List Char) (hset : ']' ∉ set) :
    ∀ pattern : List Char, tokensLanguage (parseGroup tokens set pattern) =
      tokensLanguage tokens * globLanguage ('[' :: (set ++ pattern))
  | [] => by
    rw [parseGroup, tokensLanguage_append, tokensLanguage_singleton, List.append_nil, globLanguage_unclosed hset]
  | inner :: chars => by
    rw [parseGroup]
    split_ifs with hclose
    · rw [language_parseFrom, tokensLanguage_append, tokensLanguage_singleton, hclose, globLanguage_group hset,
        ← mul_assoc]
      exact congrArg (· * globLanguage chars) (mul_one _)
    · have hset' : ']' ∉ set ++ [inner] := by
        rw [List.mem_append, List.mem_singleton]
        rintro (hmem | rfl)
        · exact hset hmem
        · exact hclose rfl
      rw [language_parseGroup tokens _ hset', List.append_assoc, List.singleton_append]

end

namespace WildcardPattern

theorem matches_parse_iff (pattern term : String) :
    (parse pattern).matches term = true ↔ Glob pattern.toList term.toList := by
  have hlanguage : tokensLanguage (parse pattern).tokens = globLanguage pattern.toList := by
    refine (language_parseFrom [] [] pattern.toList).trans ?_
    show (1 : Language Char) * 1 * _ = _
    rw [one_mul, one_mul]
  rw [WildcardPattern.matches, matchesFrom_iff, hlanguage]
  rfl

theorem matches_of_isPrefixOnly {p : WildcardPattern} (h : p.isPrefixOnly = true) (term : String) :
    p.matches term = true ↔ StartsWith term p.start := by
  obtain ⟨text, htokens⟩ : ∃ text, p.tokens = [.literal text, .any] := by
    unfold isPrefixOnly at h
    split at h
    case h_1 text htokens => exact ⟨text, htokens⟩
    case h_2 => cases h
  refine ⟨startsWith_of_matches, fun hstart => ?_⟩
  have htext : p.start = text := by
    unfold start
    rw [htokens]
  obtain ⟨rest, hrest⟩ := startsWith_iff.mp hstart
  rw [htext] at hrest
  rw [WildcardPattern.matches, htokens, matchesFrom_iff, mem_tokensLanguage_cons]
  refine ⟨text.toList, rfl, rest, ?_, hrest⟩
  rw [tokensLanguage_singleton]
  exact Set.mem_univ rest

/-- **Wildcard matching is the glob relation.**  A parsed pattern matches just the terms
that are instances of it as typed.  Where the pattern is a fixed text and a star, to match
is to begin with `prefix()`; every match begins with `prefix()`, and so the walk over the
terms of a segment from there on finds all of them. -/
theorem matches_glob (pattern term : String) :
    ((parse pattern).matches term = true ↔ Glob pattern.toList term.toList) ∧
    ((parse pattern).isPrefixOnly = true →
      ((parse pattern).matches term = true ↔ StartsWith term (parse pattern).start)) ∧
    ((parse pattern).matches term = true → StartsWith term (parse pattern).start) ∧
    ∀ (s : Segment) (xpath : XPathId), s.lookupWildcard (parse pattern) xpath =
      cappedUnion ((s.terms.entries.filter fun e =>
        e.1.xpath = xpath ∧ (parse pattern).matches e.1.term = true).map termEntry) := by
  refine ⟨matches_parse_iff pattern term, fun h => matches_of_isPrefixOnly h term, startsWith_of_matches,
    fun s xpath => ?_⟩
  rw [Segment.lookupWildcard_eq, MemIndex.scanWildcard]
  split_ifs with hprefix
  · rw [MemIndex.scanPrefix]
    refine congrArg (fun found => cappedUnion (found.map termEntry)) (List.filter_congr fun e _ => ?_)
    simp only [matches_of_isPrefixOnly hprefix]
  · rfl

end WildcardPattern

/-
The analysis of a query.

What was typed is analyzed leaf by leaf, and combinations shrink with their parts: one without
parts goes, one with a single part becomes that part.  The executor panics on a conjunction
without parts (it asks for the smallest one), so whether a search returns hangs on the form the
analysis leaves a query in (`Query.Normal`).  What an analyzer makes of a text is left open.  Heaps
of `k + 1` hits and the ids of a whole range are allocated at once; their sizes are bounded where
that a search returns is stated.
-/
import Riets.RankRetrieve

open List

structure QueryToken where
  text : String
  position : UInt32

/-- `Analyzer::analyze_query` and `str::to_lowercase`. -/
structure QueryAnalyzer where
  analyzeQuery : String → List QueryToken
  toLowercase : String → String

mutual

def Query.same : Query → Query → Bool
  | .term v, .term w | .prefixed v, .prefixed w | .wildcard v, .wildcard w | .exactly v, .exactly w => v = w
  | .phrase terms, .phrase terms' => terms = terms'
  | .fuzzy raw fuzziness spec, .fuzzy raw' fuzziness' spec' =>
    raw = raw' && fuzziness = fuzziness' && spec = spec'
  | .wand parts, .wand parts' | .or parts, .or parts' | .and parts, .and parts'
  | .sameElement parts, .sameElement parts' => sameEach parts parts'
  | .synonym forms, .synonym forms' => sameForms forms forms'
  | .range lo hi, .range lo' hi' => lo = lo' && hi = hi'
  | .bool value, .bool value' => value = value'
  | .matchAll, .matchAll => true
  | _, _ => false

def sameEach : List Query → List Query → Bool
  | [], [] => true
  | part :: parts, part' :: parts' => part.same part' && sameEach parts parts'
  | _, _ => false

def sameForms : List (Query × ℕ) → List (Query × ℕ) → Bool
  | [], [] => true
  | (form, weight) :: forms, (form', weight') :: forms' =>
    form.same form' && weight = weight' && sameForms forms forms'
  | _, _ => false

end

namespace QueryAnalyzer

variable (a : QueryAnalyzer)

/-- A word that the analyzer splits becomes a combination of the pieces. -/
def analyzeTerm (word : String) : Option Query :=
  match a.analyzeQuery word with
  | [] => none
  | [token] => some (.term token.text)
  -- the words one word was split into must all be there
  | tokens => some (.and (tokens.map fun token => .term token.text))

/-- A phrase with the offsets that stop words leave. -/
def analyzePhrase (words : List String) : Option Query :=
  let tokens := a.analyzeQuery (" ".intercalate words)
  match tokens with
  | [] => none
  | [token] => some (.term token.text)
  | first :: _ => some (.phrase (tokens.map fun token =>
      ⟨token.text, (token.position - first.position).toNat⟩))

def nonEmpty (s : String) : Option String := if s = "" then none else some s

/-- What is left of a combination of these parts. -/
def combine (kept : List Query) (make : List Query → Query) : Option Query :=
  match kept with
  | [] => none
  | [part] => some part
  | kept => some (make kept)

/-- A form is kept once. -/
def keepForm (form : Query × ℕ) : List (Query × ℕ) → List (Query × ℕ)
  | [] => [form]
  | known :: kept =>
    if known.1.same form.1 then (known.1, max known.2 form.2) :: kept else known :: keepForm form kept

def synonymOf (kept : List (Query × ℕ)) : Option Query :=
  match kept with
  | [form] => some form.1
  | kept => some (.synonym kept)

mutual

/-- `analyze_query`; `none` when nothing is left. -/
def analyze : Query → Option Query
  | .term word => a.analyzeTerm word
  | .phrase terms => a.analyzePhrase (terms.map PhraseTerm.text)
  | .prefixed v => (nonEmpty (a.toLowercase v)).map .prefixed
  | .wildcard p => (nonEmpty (a.toLowercase p)).map .wildcard
  | .wand parts => combine (analyzeEach parts) .wand
  | .and parts => combine (analyzeEach parts) .and
  | .or parts => combine (analyzeEach parts) .or
  | .exactly v => some (.exactly (a.toLowercase v))
  | .fuzzy raw fuzziness spec => some (.fuzzy raw fuzziness spec)
  | .synonym [] => none
  -- the typed form decides: when it goes, so does the group
  | .synonym ((typed, weight) :: forms) =>
    (analyze typed).bind fun query => synonymOf (analyzeForms forms [(query, weight)])
  | .range lo hi => some (.range lo hi)
  | .bool value => some (.bool value)
  | .sameElement children =>
    let kept := analyzeEach children
    if kept = [] then none else some (.sameElement kept)
  | .matchAll => some .matchAll

def analyzeEach : List Query → List Query
  | [] => []
  | part :: parts => (analyze part).toList ++ analyzeEach parts

def analyzeForms : List (Query × ℕ) → List (Query × ℕ) → List (Query × ℕ)
  | [], kept => kept
  | (form, weight) :: forms, kept =>
    match analyze form with
    | some query => analyzeForms forms (keepForm (query, weight) kept)
    | none => analyzeForms forms kept

end

end QueryAnalyzer

/-! ### The form of an analyzed query -/

mutual

/-- No combination is empty or has a single part, phrases start at their first word, and no two
forms of a group are the same. -/
def Query.Normal : Query → Prop
  | .phrase terms => 2 ≤ terms.length ∧ terms.head?.map PhraseTerm.offset = some 0
  | .prefixed v | .wildcard v => v ≠ ""
  | .wand parts | .or parts | .and parts => 2 ≤ parts.length ∧ NormalEach parts
  | .synonym forms => 2 ≤ forms.length ∧ (forms.Pairwise fun x y => x.1.same y.1 = false) ∧ NormalForms forms
  | .sameElement children => children ≠ [] ∧ NormalEach children
  | _ => True

def NormalEach : List Query → Prop
  | [] => True
  | part :: parts => part.Normal ∧ NormalEach parts

def NormalForms : List (Query × ℕ) → Prop
  | [] => True
  | (form, _) :: forms => form.Normal ∧ NormalForms forms

end

theorem normalEach_iff {parts : List Query} : NormalEach parts ↔ ∀ part ∈ parts, part.Normal := by
  induction parts with
  | nil => simp [NormalEach]
  | cons part parts ih => rw [NormalEach, forall_mem_cons, ih]

theorem normalForms_iff {forms : List (Query × ℕ)} : NormalForms forms ↔ ∀ form ∈ forms, form.1.Normal := by
  induction forms with
  | nil => simp [NormalForms]
  | cons form forms ih => rw [NormalForms, forall_mem_cons, ih]

namespace QueryAnalyzer

variable {a : QueryAnalyzer} {query result : Query}

structure Forms (kept : List (Query × ℕ)) : Prop where
  typed : kept ≠ []
  apart : kept.Pairwise fun x y => x.1.same y.1 = false
  normal : ∀ form ∈ kept, form.1.Normal

theorem mem_keepForm {form x : Query × ℕ} {kept : List (Query × ℕ)} (h : x ∈ keepForm form kept) :
    x.1 = form.1 ∨ ∃ y ∈ kept, x.1 = y.1 := by
  induction kept with
  | nil => exact .inl (congrArg Prod.fst (mem_singleton.mp h))
  | cons known kept ih =>
    rw [keepForm] at h
    split_ifs at h
    · rcases mem_cons.mp h with rfl | h
      · exact .inr ⟨known, mem_cons_self, rfl⟩
      · exact .inr ⟨x, mem_cons_of_mem _ h, rfl⟩
    · rcases mem_cons.mp h with rfl | h
      · exact .inr ⟨x, mem_cons_self, rfl⟩
      · exact (ih h).imp_right fun ⟨y, hy, heq⟩ => ⟨y, mem_cons_of_mem _ hy, heq⟩

theorem Forms.keep {form : Query × ℕ} {kept : List (Query × ℕ)} (h : Forms kept) (hform : form.1.Normal) :
    Forms (keepForm form kept) where
  typed := by
    cases kept with
    | nil => exact cons_ne_nil _ _
    | cons known kept =>
      rw [keepForm]
      split_ifs <;> exact cons_ne_nil _ _
  apart := by
    have hapart := h.apart
    clear h
    induction kept with
    | nil => exact pairwise_singleton _ _
    | cons known kept ih =>
      obtain ⟨hknown, hkept⟩ := pairwise_cons.mp hapart
      rw [keepForm]
      split_ifs with hsame
      · exact pairwise_cons.mpr ⟨hknown, hkept⟩
      · refine pairwise_cons.mpr ⟨fun x hx => ?_, ih hkept⟩
        rcases mem_keepForm hx with heq | ⟨y, hy, heq⟩
        · rw [heq]
          simpa using hsame
        · rw [heq]
          exact hknown y hy
  normal x hx := by
    rcases mem_keepForm hx with heq | ⟨y, hy, heq⟩
    · exact heq ▸ hform
    · exact heq ▸ h.normal y hy

theorem normal_combine {kept : List Query} {make : List Query → Query}
    (hmake : ∀ parts, (make parts).Normal ↔ 2 ≤ parts.length ∧ NormalEach parts) (hkept : NormalEach kept)
    (h : combine kept make = some result) : result.Normal := by
  match kept with
  | [] => cases h
  | [part] =>
    obtain rfl : part = result := Option.some.inj h
    exact hkept.1
  | first :: second :: rest =>
    obtain rfl : make (first :: second :: rest) = result := Option.some.inj h
    exact (hmake _).mpr ⟨by simp, hkept⟩

theorem normal_analyzeTerm {word : String} (h : a.analyzeTerm word = some result) : result.Normal := by
  rw [analyzeTerm] at h
  generalize a.analyzeQuery word = tokens at h
  match tokens with
  | [] => cases h
  | [token] =>
    cases h
    simp only [Query.Normal]
  | first :: second :: rest =>
    cases h
    rw [Query.Normal, normalEach_iff]
    refine ⟨by simp, fun part hpart => ?_⟩
    obtain ⟨token, -, rfl⟩ := mem_map.mp hpart
    simp only [Query.Normal]

theorem normal_analyzePhrase {words : List String} (h : a.analyzePhrase words = some result) : result.Normal := by
  rw [analyzePhrase] at h
  generalize a.analyzeQuery (" ".intercalate words) = tokens at h
  match tokens with
  | [] => cases h
  | [token] =>
    cases h
    simp only [Query.Normal]
  | first :: second :: rest =>
    cases h
    rw [Query.Normal]
    exact ⟨by simp, by simp⟩

theorem Forms.synonymOf {kept : List (Query × ℕ)} (h : Forms kept) (hsome : synonymOf kept = some result) :
    result.Normal := by
  match kept with
  | [] => exact absurd rfl h.typed
  | [form] =>
    cases hsome
    exact h.normal form mem_cons_self
  | first :: second :: rest =>
    cases hsome
    rw [Query.Normal, normalForms_iff]
    exact ⟨by simp, h.apart, h.normal⟩

mutual

theorem normal_analyze : ∀ {query result : Query}, a.analyze query = some result → result.Normal := by
  intro query result h
  match query with
  | .term word => exact normal_analyzeTerm (by rwa [analyze] at h)
  | .phrase terms => exact normal_analyzePhrase (by rwa [analyze] at h)
  | .prefixed v | .wildcard v =>
    rw [analyze, Option.map_eq_some_iff] at h
    obtain ⟨v', hv, rfl⟩ := h
    rw [nonEmpty] at hv
    split_ifs at hv with hempty
    obtain rfl := Option.some.inj hv
    simpa only [Query.Normal] using hempty
  | .wand parts | .or parts | .and parts =>
    rw [analyze] at h
    exact normal_combine (fun parts => by rw [Query.Normal]) normal_analyzeEach h
  | .synonym [] =>
    rw [analyze] at h
    cases h
  | .synonym ((typed, weight) :: forms) =>
    rw [analyze, Option.bind_eq_some_iff] at h
    obtain ⟨first, hfirst, h⟩ := h
    have htyped : Forms [(first, weight)] :=
      ⟨cons_ne_nil _ _, pairwise_singleton _ _, forall_mem_singleton.mpr (normal_analyze hfirst)⟩
    exact (forms_analyzeForms htyped).synonymOf h
  | .sameElement children =>
    rw [analyze] at h
    split_ifs at h with hnone
    obtain rfl := Option.some.inj h
    rw [Query.Normal]
    exact ⟨hnone, normal_analyzeEach⟩
  | .exactly v | .fuzzy raw fuzziness spec | .range lo hi | .bool value | .matchAll =>
    rw [analyze] at h
    obtain rfl := Option.some.inj h
    simp only [Query.Normal]

theorem normal_analyzeEach : ∀ {parts : List Query}, NormalEach (a.analyzeEach parts) := by
  intro parts
  match parts with
  | [] => rw [analyzeEach]; trivial
  | part :: parts =>
    rw [analyzeEach, normalEach_iff]
    intro q hq
    rcases mem_append.mp hq with hq | hq
    · exact normal_analyze (Option.mem_toList.mp hq)
    · have hparts : NormalEach (a.analyzeEach parts) := normal_analyzeEach
      exact normalEach_iff.mp hparts q hq

theorem forms_analyzeForms : ∀ {forms kept : List (Query × ℕ)}, Forms kept → Forms (a.analyzeForms forms kept) := by
  intro forms kept h
  match forms with
  | [] => rwa [analyzeForms]
  | (form, weight) :: forms =>
    rw [analyzeForms]
    split
    case h_1 query hquery => exact forms_analyzeForms (h.keep (normal_analyze hquery))
    case h_2 => exact forms_analyzeForms h

end

end QueryAnalyzer

/-! ### A search of an analyzed query returns -/

namespace QueryExecutor

variable {F : Type} {e : QueryExecutor F} {ctxs : List FieldCtx}

mutual

theorem evaluate_normal (mode : EvalMode) : ∀ {query : Query}, query.Normal →
    ∃ outcome, e.evaluate ctxs mode query = some outcome := by
  intro query h
  match query with
  | .wand parts | .or parts =>
    rw [Query.Normal] at h
    obtain ⟨outcomes, hevals⟩ := evaluateEach_normal mode h.2
    exact ⟨_, by rw [evaluate, hevals]; rfl⟩
  | .and parts =>
    rw [Query.Normal] at h
    cases mode with
    | filter =>
      obtain ⟨outcomes, hevals⟩ := evaluateEach_normal .filter h.2
      exact ⟨_, by rw [evaluate, hevals]; rfl⟩
    | rank =>
      obtain ⟨scored, hscored, hparts⟩ := scoreEach_normal h.2
      match scored with
      | none => exact ⟨_, by rw [evaluate, hscored]⟩
      | some [] =>
        -- there are parts, so there is a smallest one
        have hnil := hparts rfl
        rw [hnil] at h
        exact absurd h.1 (by decide)
      | some (part :: parts) => exact ⟨_, by rw [evaluate, hscored]⟩
  | .synonym forms =>
    rw [Query.Normal] at h
    cases mode with
    | filter =>
      obtain ⟨outcomes, hevals⟩ := evaluateForms_normal .filter [] h.2.2
      exact ⟨_, by rw [evaluate, hevals]; rfl⟩
    | rank =>
      obtain ⟨outcomes, hevals⟩ := evaluateForms_normal .rank (e.typedDocFreqs forms ctxs) h.2.2
      exact ⟨_, by rw [evaluate, hevals]; rfl⟩
  | .fuzzy raw fuzziness spec =>
    cases mode with
    | filter => exact ⟨_, by rw [evaluate]⟩
    | rank => exact ⟨_, by rw [evaluate]⟩
  | .term v | .prefixed v | .wildcard v | .exactly v | .phrase terms | .range lo hi | .bool value
  | .sameElement children | .matchAll => exact ⟨_, by rw [evaluate]⟩

theorem evaluateEach_normal (mode : EvalMode) : ∀ {parts : List Query}, NormalEach parts →
    ∃ outcomes, e.evaluateEach ctxs mode parts = some outcomes := by
  intro parts h
  match parts with
  | [] => exact ⟨_, by rw [evaluateEach]⟩
  | part :: parts =>
    obtain ⟨outcome, heval⟩ := evaluate_normal mode h.1
    obtain ⟨outcomes, hevals⟩ := evaluateEach_normal mode h.2
    exact ⟨_, by rw [evaluateEach, heval, hevals]; rfl⟩

theorem scoreEach_normal : ∀ {parts : List Query}, NormalEach parts →
    ∃ scored, e.scoreEach ctxs parts = some scored ∧ (scored = some [] → parts = []) := by
  intro parts h
  match parts with
  | [] => exact ⟨_, by rw [scoreEach], fun _ => rfl⟩
  | part :: parts =>
    obtain ⟨outcome, heval⟩ := evaluate_normal .rank h.1
    obtain ⟨scored, hscored, -⟩ := scoreEach_normal h.2
    by_cases hnone : outcome.hits = []
    · exact ⟨none, by simp [scoreEach, heval, hnone], fun h => by cases h⟩
    · refine ⟨scored.map fun scored => outcome.hits :: scored, by simp [scoreEach, heval, hnone, hscored], ?_⟩
      intro h
      cases scored <;> cases h

theorem evaluateForms_normal (mode : EvalMode) (typed : List (Option ℕ)) : ∀ {forms : List (Query × ℕ)},
    NormalForms forms → ∃ outcomes, e.evaluateForms ctxs mode typed forms = some outcomes := by
  intro forms h
  match forms with
  | [] => exact ⟨_, by rw [evaluateForms]⟩
  | (form, weight) :: forms =>
    obtain ⟨outcomes, hevals⟩ := evaluateForms_normal mode typed h.2
    obtain ⟨outcome, heval⟩ := evaluate_normal mode h.1
    refine Option.isSome_iff_exists.mp ?_
    cases mode with
    | filter => simp [evaluateForms, heval, hevals]
    | rank => cases form <;> simp [evaluateForms, heval, hevals]

end

section Ranking

variable {k : ℕ} {restrict : Option (Finset DocId)} {query : Query}

theorem executeTopKRetrieval_ends (hk : 0 < k) (xpaths : List XPathId) :
    e.executeTopKRetrieval query xpaths k restrict ≠ some none := by
  rw [executeTopKRetrieval]
  cases additiveTerms query with
  | some terms => simp
  | none =>
    cases conjunctiveTerms query with
    | none => simp
    | some terms => simp [conjunctiveTopKMultiField_eq _ hk]

theorem executeGroupedRetrieval_ends (hk : 0 < k) (crossFields : Bool) (coverage : Option F) :
    e.executeGroupedRetrieval query ctxs k restrict crossFields coverage ≠ some none := by
  rw [executeGroupedRetrieval]
  cases groupedParts query (!crossFields) with
  | none => simp
  | some parts =>
    rw [Option.map_some]
    split_ifs
    · simp [conjunctiveTopKGrouped_eq _ hk]
    · simp

theorem rankedHits_normal (h : query.Normal) : ∃ hits, e.rankedHits query ctxs restrict = some hits := by
  obtain ⟨outcome, heval⟩ : ∃ outcome, e.evaluate ctxs .rank query = some outcome := evaluate_normal .rank h
  exact ⟨_, by rw [rankedHits, heval]; rfl⟩

theorem flatHits_ends (hk : 0 < k) : e.flatHits query ctxs k restrict ≠ some none := by
  intro h
  rw [flatHits] at h
  split_ifs at h
  rcases Option.or_eq_some_iff.mp h with h | ⟨-, h⟩
  · exact executeTopKRetrieval_ends hk _ h
  · exact executeGroupedRetrieval_ends hk _ _ h

theorem rankFields_normal (h : query.Normal) (hk : 0 < k) (skip : FieldCtx → Bool)
    (byDoc : SortedMap DocId (SearchHit F)) :
    ∃ byDoc', e.rankFields query k restrict skip ctxs byDoc = some byDoc' := by
  induction ctxs generalizing byDoc with
  | nil => exact ⟨byDoc, rfl⟩
  | cons ctx ctxs ih =>
    rw [rankFields]
    split_ifs
    · exact ih byDoc
    · have hsingle : ∃ byDoc', e.rankSingleField query ctx k restrict byDoc = some byDoc' := by
        rw [rankSingleField]
        split
        case h_1 hits hwalk =>
          split_ifs at hwalk
          cases hits with
          | none => exact absurd hwalk (executeTopKRetrieval_ends hk _)
          | some hits => exact ⟨_, rfl⟩
        case h_2 =>
          obtain ⟨hits, hhits⟩ : ∃ hits, e.rankedHits query [ctx] restrict = some hits := rankedHits_normal h
          exact ⟨_, by rw [hhits]; rfl⟩
      obtain ⟨byDoc', hbyDoc⟩ := hsingle
      rw [hbyDoc]
      exact ih byDoc'

variable [LinearOrder F]

theorem bestFields_normal (h : query.Normal) (hk : 0 < k) :
    ∃ hits, e.bestFields query ctxs k restrict = some hits := by
  rw [bestFields]
  cases hflat : e.flatHits query ctxs k restrict with
  | none =>
    obtain ⟨byDoc, hbyDoc⟩ : ∃ byDoc, e.rankFields query k restrict (fun _ => false) ctxs SortedMap.empty = some byDoc :=
      rankFields_normal h hk _ _
    exact ⟨_, by simp only [hbyDoc]; rfl⟩
  | some hits =>
    cases hits with
    | none => exact absurd hflat (flatHits_ends hk)
    | some hits =>
      obtain ⟨byDoc, hbyDoc⟩ : ∃ byDoc, e.rankFields query k restrict (fun ctx => !ctx.rowKeyed) ctxs
          (mergeHits e.fl SortedMap.empty (hits.map (wandHitToSearchHit e.fl))) = some byDoc :=
        rankFields_normal h hk _ _
      exact ⟨_, by simp only [Option.bind_some, hbyDoc]; rfl⟩

theorem crossFields_normal (h : query.Normal) (hk : 0 < k) :
    ∃ hits, e.crossFields query ctxs k restrict = some hits := by
  rw [crossFields.eq_def]
  split
  · exact bestFields_normal h hk
  · exact bestFields_normal h hk
  · obtain ⟨hits, hhits⟩ : ∃ hits, e.rankedHits query ctxs restrict = some hits := rankedHits_normal h
    -- without a walk, and after one that found it has nothing to walk, all hits are ranked
    have hranked : ∃ hits, (e.crossFieldHits query ctxs restrict).map (fun hits => topKFromHits hits k) = some hits :=
      ⟨_, by rw [crossFieldHits, hhits]; rfl⟩
    dsimp only
    split_ifs
    · match hwalk : e.executeGroupedRetrieval query ctxs k restrict true none with
      | some none => exact absurd hwalk (executeGroupedRetrieval_ends hk _ _)
      | some (some hits) => exact ⟨_, rfl⟩
      | none => exact hranked
    · exact hranked

theorem rankRetrieve_normal (h : query.Normal) (mode : MatchMode) :
    ∃ hits, e.rankRetrieve (some query) ctxs k restrict mode = some hits := by
  rw [rankRetrieve.eq_def]
  split_ifs with hnone
  · exact ⟨[], rfl⟩
  · have hk : 0 < k := Nat.pos_of_ne_zero fun hzero => hnone (.inl hzero)
    split
    · exact ⟨_, rfl⟩
    · exact ⟨_, rfl⟩
    case h_3 query' _ heq =>
      obtain rfl := Option.some.inj heq
      cases mode with
      | bestFields => exact bestFields_normal h hk
      | crossFields => exact crossFields_normal h hk

end Ranking

end QueryExecutor

/-- Whatever was typed, what the analysis leaves of it has no empty combination, and evaluating it,
ranking by it and counting its results return on every index, as long as no number of hits or of ids
in a range is asked for that no capacity can have. -/
theorem QueryAnalyzer.analyzed_returns {a : QueryAnalyzer} {query result : Query}
    (h : a.analyze query = some result) : result.Normal ∧
      ∀ {F : Type} [LinearOrder F] (e : QueryExecutor F) (ctxs : List FieldCtx),
        (∀ range ∈ e.index.docRange, range.2 - range.1 < 2 ^ 56) →
        (∀ mode, ∃ outcome, e.evaluate ctxs mode result = some outcome) ∧
        (∀ k < 2 ^ 56, ∀ restrict mode, ∃ hits, e.rankRetrieve (some result) ctxs k restrict mode = some hits) ∧
        ∀ restrict, ∃ count, e.totalHitCount (some result) ctxs restrict = some count := by
  have hnormal := normal_analyze h
  refine ⟨hnormal, fun e ctxs _ => ⟨fun mode => QueryExecutor.evaluate_normal mode hnormal,
    fun k _ restrict mode => QueryExecutor.rankRetrieve_normal hnormal mode, fun restrict => ?_⟩⟩
  obtain ⟨outcome, heval⟩ : ∃ outcome, e.evaluate ctxs .filter result = some outcome :=
    QueryExecutor.evaluate_normal .filter hnormal
  exact ⟨_, by rw [QueryExecutor.totalHitCount, heval]; rfl⟩

def stopWord : QueryAnalyzer where
  analyzeQuery text := if text = "the" then [] else [⟨text, 0⟩]
  toLowercase := id

def SearchIndex.redWine : SearchIndex where
  lookup term _ := if term = "red" ∨ term = "wine" then .single ⟨7, [0], 1⟩ else .new
  lookupPrefix _ _ := .new
  lookupWildcard _ _ := .new
  numericRange _ _ _ := .new
  boolTrueIds _ := ∅
  boolFalseIds _ := ∅
  docRange := some (7, 7)
  isDeleted _ := false
  docOfRow _ := none

theorem QueryAnalyzer.analyzed_returns_stopWord :
    let result := Query.and [.term "red", .or [.term "wine", .prefixed "a"]]
    result.Normal ∧ ∃ hits, (QueryExecutor.counting SearchIndex.redWine).rankRetrieve (some result)
      [⟨1, none, false⟩] 3 none .crossFields = some hits := by
  have hanalyzed : stopWord.analyze (.and [.term "red", .term "the", .and [],
      .or [.term "wine", .prefixed "a"]]) = some (.and [.term "red", .or [.term "wine", .prefixed "a"]]) := by
    simp [analyze, analyzeEach, analyzeTerm, combine, nonEmpty, stopWord]
  have hreturns := analyzed_returns hanalyzed
  have hrange : ∀ range ∈ (QueryExecutor.counting SearchIndex.redWine).index.docRange,
      range.2 - range.1 < 2 ^ 56 := by
    decide
  exact ⟨hreturns.1, (hreturns.2 _ _ hrange).2.1 3 (by decide) none .crossFields⟩

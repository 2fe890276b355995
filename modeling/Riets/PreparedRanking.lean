/-
Ranking and counting with a prepared query.

A prepared list is the one the index has, with one exception.  A leaf without
text reads nothing, so nothing is kept for the empty word, while the walks for
flat queries ask the index for it.  Everything that is computed from the lists
is the same as without preparing, exactly when the index has no document under
the empty word.
-/
import Riets.PreparedQuery
import Riets.RankRetrieve

open List QueryExecutor PostingList

/-- The same list, or two lists without postings, and the same document frequency. -/
def SameRead (a b : PostingList × ℕ) : Prop :=
  a = b ∨ a.1.items = [] ∧ b.1.items = [] ∧ a.2 = b.2

theorem SameRead.items {a b : PostingList × ℕ} (h : SameRead a b) : a.1.items = b.1.items := by
  rcases h with rfl | ⟨ha, hb, -⟩
  · rfl
  · rw [ha, hb]

namespace QueryExecutor

open List

variable {F : Type} {e : QueryExecutor F} {p : PreparedQuery}

/-- A prepared query of an index without documents under the empty word. -/
structure Prepares (e : QueryExecutor F) (p : PreparedQuery) : Prop where
  plain : e.prepared = fun _ _ => none
  faithful : e.Faithful p
  noEmpty : ∀ x, (e.index.lookup "" x).items = []

theorem fetchTermList_withPrepared (h : e.Prepares p) (term : String) (x : XPathId) :
    SameRead ((e.withPrepared p).fetchTermList term x) (e.fetchTermList term x) := by
  simp only [fetchTermList, withPrepared, h.plain, Option.getD_none]
  cases hlist : p.lists x (.term term) with
  | none => exact .inl rfl
  | some list =>
    obtain rfl := h.faithful x (.term term) list hlist
    rw [Option.getD_some, fetchLeaf]
    split_ifs with hempty
    · subst hempty
      refine .inr ⟨rfl, h.noEmpty x, ?_⟩
      simp only [leafDocFreq, h.noEmpty x]
      rfl
    · exact .inl rfl

theorem executePhrase_withPrepared (h : e.Prepares p) (terms : List PhraseTerm) (x : XPathId) :
    (e.withPrepared p).executePhrase terms x = e.executePhrase terms x := by
  simp only [executePhrase]
  have hitems : ∀ term : PhraseTerm, ((e.withPrepared p).fetchTermList term.text x).1.items =
      (e.fetchTermList term.text x).1.items :=
    fun term => (fetchTermList_withPrepared h term.text x).items
  have hcond : (terms = [] ∨ (terms.map fun term => ((e.withPrepared p).fetchTermList term.text x).1).any
      (fun list => list.items = []) = true) ↔
      (terms = [] ∨ (terms.map fun term => (e.fetchTermList term.text x).1).any
        (fun list => list.items = []) = true) := by
    simp only [any_map, Function.comp_def, hitems]
  by_cases hnone : terms = [] ∨ (terms.map fun term => (e.fetchTermList term.text x).1).any
      (fun list => list.items = []) = true
  · rw [if_pos hnone, if_pos (hcond.mpr hnone)]
  · -- every list has postings, so every list is the same
    have hlists : (terms.map fun term => ((e.withPrepared p).fetchTermList term.text x).1) =
        terms.map fun term => (e.fetchTermList term.text x).1 := by
      refine map_congr_left fun term hterm => ?_
      rcases fetchTermList_withPrepared h term.text x with heq | ⟨-, hempty, -⟩
      · rw [heq]
      · exact absurd (.inr (any_eq_true.mpr ⟨_, mem_map_of_mem hterm, decide_eq_true hempty⟩)) hnone
    rw [if_neg hnone, if_neg fun hsome => hnone (hcond.mp hsome), hlists]

theorem fetchLeaf_withPrepared (h : e.Prepares p) (key : LeafKey) (x : XPathId) :
    (e.withPrepared p).fetchLeaf key x = e.fetchLeaf key x := by
  cases key with
  | phrase terms => exact executePhrase_withPrepared h terms x
  | _ => rfl

theorem leaf_withPrepared (h : e.Prepares p) (query : Query) (ctx : FieldCtx) :
    (e.withPrepared p).leaf query ctx = e.leaf query ctx := by
  rw [leaf, leaf]
  refine congrArg (fun f => (leafKey query ctx).map f) (funext fun kx => ?_)
  have hlist : ((e.withPrepared p).prepared kx.2 kx.1).getD ((e.withPrepared p).fetchLeaf kx.1 kx.2) =
      (e.prepared kx.2 kx.1).getD (e.fetchLeaf kx.1 kx.2) := by
    rw [fetchLeaf_withPrepared h, h.plain, Option.getD_none]
    change (p.lists kx.2 kx.1).getD _ = _
    cases hkept : p.lists kx.2 kx.1 with
    | none => rfl
    | some list => exact h.faithful kx.2 kx.1 list hkept
  rw [hlist]
  rfl

/-! ### What a query finds -/

theorem scoreLeaf_withPrepared (h : e.Prepares p) (query : Query) (ctxs : List FieldCtx)
    (minDocFreqs : List (Option ℕ)) :
    (e.withPrepared p).scoreLeaf query ctxs minDocFreqs = e.scoreLeaf query ctxs minDocFreqs := by
  have hhits : ∀ ctx floor, (e.withPrepared p).leafHits query ctx floor = e.leafHits query ctx floor := by
    intro ctx floor
    rw [leafHits, leafHits, leaf_withPrepared h]
    rfl
  simp only [scoreLeaf, hhits]

theorem evalLeaf_withPrepared (h : e.Prepares p) (query : Query) (ctxs : List FieldCtx) (mode : EvalMode) :
    (e.withPrepared p).evalLeaf query ctxs mode = e.evalLeaf query ctxs mode := by
  cases mode with
  | filter => simp only [evalLeaf, leaf_withPrepared h]
  | rank => simp only [evalLeaf, scoreLeaf_withPrepared h]

theorem phraseDocs_withPrepared (h : e.Prepares p) (terms : List PhraseTerm) (ctxs : List FieldCtx) :
    (e.withPrepared p).phraseDocs terms ctxs = e.phraseDocs terms ctxs := by
  simp only [phraseDocs, executePhrase_withPrepared h]

theorem scorePhraseAsWords_withPrepared (h : e.Prepares p) (terms : List PhraseTerm) (ctxs : List FieldCtx) :
    (e.withPrepared p).scorePhraseAsWords terms ctxs = e.scorePhraseAsWords terms ctxs := by
  have hword : ∀ (docs : Finset DocId) (x : XPathId) (term : PhraseTerm),
      (e.withPrepared p).scoreTermInto (postingsOf ((e.withPrepared p).fetchTermList term.text x).1 docs) x
          ((e.withPrepared p).fetchTermList term.text x).2 =
        e.scoreTermInto (postingsOf (e.fetchTermList term.text x).1 docs) x (e.fetchTermList term.text x).2 := by
    intro docs x term
    rcases fetchTermList_withPrepared h term.text x with heq | ⟨hnil, hnil', -⟩
    · rw [heq]
      rfl
    · simp only [scoreTermInto, postingsOf, retain, hnil, hnil', filter_nil, map_nil]
  simp only [scorePhraseAsWords, phraseDocs_withPrepared h, hword]

theorem typedDocFreqs_withPrepared (h : e.Prepares p) (forms : List (Query × ℕ)) (ctxs : List FieldCtx) :
    (e.withPrepared p).typedDocFreqs forms ctxs = e.typedDocFreqs forms ctxs := by
  unfold typedDocFreqs
  split
  · simp only [leaf_withPrepared h]
  · rfl

mutual

theorem evaluate_withPrepared (h : e.Prepares p) (ctxs : List FieldCtx) :
    ∀ (query : Query) (mode : EvalMode),
      (e.withPrepared p).evaluate ctxs mode query = e.evaluate ctxs mode query
  | .term v, mode => by simp only [evaluate, evalLeaf_withPrepared h]
  | .prefixed v, mode => by simp only [evaluate, evalLeaf_withPrepared h]
  | .wildcard pattern, mode => by simp only [evaluate, evalLeaf_withPrepared h]
  | .phrase terms, mode => by simp only [evaluate, evalLeaf_withPrepared h]
  | .exactly v, mode => by simp only [evaluate, evalLeaf_withPrepared h]
  | .fuzzy raw fuzziness spec, .filter => by rw [evaluate, evaluate]; rfl
  | .fuzzy raw fuzziness spec, .rank => by rw [evaluate, evaluate]; rfl
  | .range lo hi, mode => by rw [evaluate, evaluate]; rfl
  | .bool value, mode => by rw [evaluate, evaluate]; rfl
  | .wand parts, mode => by rw [evaluate, evaluate, evaluateEach_withPrepared h ctxs parts]
  | .or parts, mode => by rw [evaluate, evaluate, evaluateEach_withPrepared h ctxs parts]
  | .and parts, .filter => by rw [evaluate, evaluate, evaluateEach_withPrepared h ctxs parts]
  | .and parts, .rank => by rw [evaluate, evaluate, scoreEach_withPrepared h ctxs parts]
  | .synonym forms, .filter => by rw [evaluate, evaluate, evaluateForms_withPrepared h ctxs forms]
  | .synonym forms, .rank => by
    rw [evaluate, evaluate, typedDocFreqs_withPrepared h, evaluateForms_withPrepared h ctxs forms]
  | .sameElement _, mode => by rw [evaluate, evaluate]
  | .matchAll, mode => by rw [evaluate, evaluate]; rfl

theorem evaluateEach_withPrepared (h : e.Prepares p) (ctxs : List FieldCtx) :
    ∀ (parts : List Query) (mode : EvalMode),
      (e.withPrepared p).evaluateEach ctxs mode parts = e.evaluateEach ctxs mode parts
  | [], mode => by rw [evaluateEach, evaluateEach]
  | part :: parts, mode => by
    rw [evaluateEach, evaluateEach, evaluate_withPrepared h ctxs part,
      evaluateEach_withPrepared h ctxs parts]

theorem scoreEach_withPrepared (h : e.Prepares p) (ctxs : List FieldCtx) :
    ∀ parts : List Query, (e.withPrepared p).scoreEach ctxs parts = e.scoreEach ctxs parts
  | [] => by rw [scoreEach, scoreEach]
  | part :: parts => by
    rw [scoreEach, scoreEach, evaluate_withPrepared h ctxs part, scoreEach_withPrepared h ctxs parts]

theorem evaluateForms_withPrepared (h : e.Prepares p) (ctxs : List FieldCtx) :
    ∀ (forms : List (Query × ℕ)) (mode : EvalMode) (typed : List (Option ℕ)),
      (e.withPrepared p).evaluateForms ctxs mode typed forms = e.evaluateForms ctxs mode typed forms
  | [], mode, typed => by rw [evaluateForms, evaluateForms]
  | (form, weight) :: forms, mode, typed => by
    rw [evaluateForms.eq_def, evaluateForms.eq_def e]
    simp only [evaluate_withPrepared h ctxs form, scoreLeaf_withPrepared h, scorePhraseAsWords_withPrepared h,
      evaluateForms_withPrepared h ctxs forms]

end

end QueryExecutor

/-! ### What the walks read -/

section Walks

variable {F : Type} {bm : Bm25 F} {stats : SearchStats F}

variable {read read' : String → XPathId → PostingList × ℕ}

theorem wandTopKMultiField_sameRead
    (h : ∀ term x, SameRead (read term x) (read' term x)) (terms : List String) (xpaths : List XPathId) (k : ℕ)
    (restrict : Option (Finset DocId)) :
    wandTopKMultiField bm stats (xpaths.map fun x => ⟨x, terms.map fun term => termRef (read term x)⟩)
        k restrict =
      wandTopKMultiField bm stats (xpaths.map fun x => ⟨x, terms.map fun term => termRef (read' term x)⟩)
        k restrict := by
  have hterms : multiFieldTerms bm stats
        (xpaths.map fun x => ⟨x, terms.map fun term => termRef (read term x)⟩) =
      multiFieldTerms bm stats
        (xpaths.map fun x => ⟨x, terms.map fun term => termRef (read' term x)⟩) := by
    simp only [multiFieldTerms, flatMap_map, filterMap_map]
    refine flatMap_congr fun x _ => filterMap_congr fun term _ => ?_
    rcases h term x with heq | ⟨hnil, hnil', -⟩
    · simp only [Function.comp_apply, heq]
    · -- a list without postings is left out
      simp only [Function.comp_apply, termRef, PostingCursor.isExhausted, PostingCursor.new, hnil, hnil']
      rfl
  rw [wandTopKMultiField, wandTopKMultiField, hterms]
  simp only [map_eq_nil_iff]

theorem conjunctiveTopKMultiField_sameRead
    (h : ∀ term x, SameRead (read term x) (read' term x)) (terms : List String) (xpaths : List XPathId) (k : ℕ)
    (restrict : Option (Finset DocId)) :
    conjunctiveTopKMultiField bm stats
        (xpaths.map fun x => ⟨x, terms.map fun term => termRef (read term x)⟩) k restrict =
      conjunctiveTopKMultiField bm stats
        (xpaths.map fun x => ⟨x, terms.map fun term => termRef (read' term x)⟩) k restrict := by
  have hfields : (xpaths.map fun x => (⟨x, terms.map fun term => termRef (read term x)⟩ : FieldTerms)).filterMap
        FieldConjunction.new =
      (xpaths.map fun x => (⟨x, terms.map fun term => termRef (read' term x)⟩ : FieldTerms)).filterMap
        FieldConjunction.new := by
    rw [filterMap_map, filterMap_map]
    refine filterMap_congr fun x _ => ?_
    have hitems : ∀ term, (read term x).1.items = (read' term x).1.items := fun term => (h term x).items
    simp only [Function.comp_apply, FieldConjunction.new, map_eq_nil_iff, any_map, map_map,
      Function.comp_def, termRef, hitems]
    split_ifs with hnone
    · rfl
    · -- every list has postings, so every list is the same
      refine congrArg (fun l => some (FieldConjunction.mk x l false)) (map_congr_left fun term hterm => ?_)
      rcases h term x with heq | ⟨-, hnil', -⟩
      · rw [heq]
      · exact absurd (.inr (any_eq_true.mpr ⟨term, hterm, decide_eq_true hnil'⟩)) hnone
  rw [conjunctiveTopKMultiField, conjunctiveTopKMultiField, hfields]

variable (bm stats) in
def builtClauses (fields : List FieldClauses) : List (List (Option (ClauseCursor F))) :=
  fields.map fun field => field.clauses.map (ClauseCursor.new bm stats)

theorem groupedClauses_eq (fields : List FieldClauses) :
    groupedClauses bm stats fields = (builtClauses bm stats fields).flatMap fun clauses => clauses.filterMap id := by
  rw [groupedClauses, builtClauses, flatMap_map]
  refine flatMap_congr fun field _ => ?_
  rw [filterMap_map]
  rfl

theorem clauseCursors_eq (field : FieldClauses) :
    clauseCursors bm stats field =
      (fun clauses : List (Option (ClauseCursor F)) => if clauses = [] then none else clauses.mapM id)
        (field.clauses.map (ClauseCursor.new bm stats)) := by
  rw [clauseCursors]
  simp only [map_eq_nil_iff, mapM_map, Function.id_comp]

variable {fields fields' : List FieldClauses}

theorem wandTopKGrouped_congr
    (h : builtClauses bm stats fields = builtClauses bm stats fields') (k : ℕ) (coverage : Option F)
    (restrict : Option (Finset DocId)) :
    wandTopKGrouped bm stats fields k coverage restrict = wandTopKGrouped bm stats fields' k coverage restrict := by
  have hclauses : groupedClauses bm stats fields = groupedClauses bm stats fields' := by
    rw [groupedClauses_eq, groupedClauses_eq, h]
  simp only [wandTopKGrouped, directTopK, pivotTopK, hclauses]

theorem conjunctiveTopKGrouped_congr (h : builtClauses bm stats fields = builtClauses bm stats fields') (k : ℕ)
    (restrict : Option (Finset DocId)) :
    conjunctiveTopKGrouped bm stats fields k restrict = conjunctiveTopKGrouped bm stats fields' k restrict := by
  have hsources : ∀ fields : List FieldClauses, fields.filterMap (clauseCursors bm stats) =
      (builtClauses bm stats fields).filterMap fun clauses : List (Option (ClauseCursor F)) =>
        if clauses = [] then none else clauses.mapM id := by
    intro fields
    rw [builtClauses, filterMap_map]
    exact filterMap_congr fun field _ => clauseCursors_eq field
  rw [conjunctiveTopKGrouped, conjunctiveTopKGrouped, hsources, hsources, h]

theorem formCursor_new_sameRead {α : Type} {read read' : α → PostingList × ℕ} (h : ∀ a, SameRead (read a) (read' a))
    (x : XPathId) (field : ℕ) (l : List α) (weight : ℕ) :
    FormCursor.new bm stats ⟨x, field, l.map fun a => termRef (read a), weight⟩ =
      FormCursor.new bm stats ⟨x, field, l.map fun a => termRef (read' a), weight⟩ := by
  have hitems : ∀ a, (read a).1.items = (read' a).1.items := fun a => (h a).items
  have hcond : ∀ read : α → PostingList × ℕ,
      ((l.map fun a => termRef (read a)) = [] ∨
        (l.map fun a => termRef (read a)).any (fun list => list.postings.items = []) = true) ↔
      (l = [] ∨ l.any (fun a => (read a).1.items = []) = true) := by
    intro read
    simp only [map_eq_nil_iff, any_map, Function.comp_def, termRef]
  by_cases hnone : l = [] ∨ l.any (fun a => (read a).1.items = []) = true
  · rw [FormCursor.new, FormCursor.new, if_pos ((hcond read).mpr hnone), if_pos ((hcond read').mpr ?_)]
    simpa only [hitems] using hnone
  · have hlists : (l.map fun a => termRef (read a)) =
        l.map fun a => termRef (read' a) := by
      refine map_congr_left fun a ha => ?_
      rcases h a with heq | ⟨hnil, -, -⟩
      · rw [heq]
      · exact absurd (.inr (any_eq_true.mpr ⟨a, ha, decide_eq_true hnil⟩)) hnone
    rw [hlists]

theorem clauseCursor_new_congr {forms forms' : List FormRef}
    (h : forms.filterMap (FormCursor.new bm stats) = forms'.filterMap (FormCursor.new bm stats)) :
    ClauseCursor.new bm stats forms = ClauseCursor.new bm stats forms' := by
  rw [ClauseCursor.new, ClauseCursor.new, h]

end Walks

namespace QueryExecutor

open List Option

variable {F : Type} {e : QueryExecutor F} {p : PreparedQuery}

section

variable (h : e.Prepares p)
include h

theorem executeTopKRetrieval_withPrepared (query : Query) (xpaths : List XPathId) (k : ℕ)
    (restrict : Option (Finset DocId)) :
    (e.withPrepared p).executeTopKRetrieval query xpaths k restrict =
      e.executeTopKRetrieval query xpaths k restrict := by
  rw [executeTopKRetrieval.eq_def, executeTopKRetrieval.eq_def e]
  cases additiveTerms query with
  | some terms =>
    refine congrArg (fun hits => some (some hits)) ?_
    exact wandTopKMultiField_sameRead (fetchTermList_withPrepared h) terms xpaths k restrict
  | none =>
    refine congrArg (fun f => (conjunctiveTerms query).map f) (funext fun terms => ?_)
    exact conjunctiveTopKMultiField_sameRead (fetchTermList_withPrepared h) terms xpaths k restrict

theorem leafForm_withPrepared (query : Query) (ctx : FieldCtx) (floor : Option ℕ)
    (weight field : ℕ) :
    (e.withPrepared p).leafForm query ctx floor weight field = e.leafForm query ctx floor weight field := by
  rw [leafForm, leafForm, leaf_withPrepared h]

theorem groupForm_withPrepared (form : Query) (ctx : FieldCtx) (floor : Option ℕ)
    (weight field : ℕ) :
    ((e.withPrepared p).groupForm form ctx floor weight field).bind (FormCursor.new e.bm e.stats) =
      (e.groupForm form ctx floor weight field).bind (FormCursor.new e.bm e.stats) := by
  cases form with
  | term v => rw [groupForm, groupForm, leafForm_withPrepared h]
  | exactly v => rw [groupForm, groupForm, leafForm_withPrepared h]
  | and words => simp only [groupForm, wordsForm, leaf_withPrepared h]
  | phrase terms =>
    rw [groupForm, groupForm, phraseForm, phraseForm, leaf_withPrepared h, bind_map, bind_map]
    refine congrArg (fun f => (e.leaf (.phrase terms) ctx).bind f) (funext fun leaf => ?_)
    refine formCursor_new_sameRead (fun term : PhraseTerm => ?_) ctx.xpath field terms weight
    rcases fetchTermList_withPrepared h term.text ctx.xpath with heq | ⟨hnil, hnil', hfreq⟩
    · rw [heq]
      exact .inl rfl
    · refine .inr ⟨?_, ?_, hfreq⟩
      · simp only [postingsOf, retain, hnil, filter_nil]
      · simp only [postingsOf, retain, hnil', filter_nil]
  | _ => rfl

theorem clauseForms_withPrepared (part : Query) (ctx : FieldCtx) (field : ℕ) :
    ((e.withPrepared p).clauseForms part ctx field).filterMap (FormCursor.new e.bm e.stats) =
      (e.clauseForms part ctx field).filterMap (FormCursor.new e.bm e.stats) := by
  rw [clauseForms.eq_def, clauseForms.eq_def e]
  cases part with
  | synonym forms =>
    have hfloor : (e.withPrepared p).typedFloor forms ctx = e.typedFloor forms ctx := by
      unfold typedFloor
      simp only [leaf_withPrepared h]
    simp only [filterMap_filterMap]
    refine filterMap_congr fun form _ => ?_
    rw [hfloor]
    exact groupForm_withPrepared h form.1.1 ctx _ form.1.2 field
  | _ => simp only [leafForm_withPrepared h]

theorem builtClauses_withPrepared (parts : List Query) (ctxs : List FieldCtx)
    (crossFields : Bool) :
    builtClauses e.bm e.stats ((e.withPrepared p).groupedFields parts ctxs crossFields) =
      builtClauses e.bm e.stats (e.groupedFields parts ctxs crossFields) := by
  unfold groupedFields builtClauses
  split_ifs with hcross
  · refine congrArg (fun l => [l]) ?_
    simp only [List.map_map]
    refine map_congr_left fun part _ => clauseCursor_new_congr ?_
    rw [filterMap_flatMap, filterMap_flatMap]
    exact flatMap_congr fun ctx _ => clauseForms_withPrepared h part ctx.1 ctx.2
  · rw [List.map_map, List.map_map]
    refine map_congr_left fun ctx _ => ?_
    simp only [Function.comp_apply, List.map_map]
    exact map_congr_left fun part _ => clauseCursor_new_congr (clauseForms_withPrepared h part ctx.1 ctx.2)

theorem executeGroupedRetrieval_withPrepared (query : Query) (ctxs : List FieldCtx) (k : ℕ)
    (restrict : Option (Finset DocId)) (crossFields : Bool) (coverage : Option F) :
    (e.withPrepared p).executeGroupedRetrieval query ctxs k restrict crossFields coverage =
      e.executeGroupedRetrieval query ctxs k restrict crossFields coverage := by
  rw [executeGroupedRetrieval.eq_def, executeGroupedRetrieval.eq_def e]
  refine congrArg (fun f => (groupedParts query (!crossFields)).map f) (funext fun parts => ?_)
  have hbuilt := builtClauses_withPrepared h parts.2 ctxs crossFields
  have hall := conjunctiveTopKGrouped_congr hbuilt k restrict
  have hany := wandTopKGrouped_congr hbuilt k coverage restrict
  simp only
  split_ifs
  · exact hall
  · exact congrArg some hany

end

theorem rankedHits_withPrepared (h : e.Prepares p) (query : Query) (ctxs : List FieldCtx)
    (restrict : Option (Finset DocId)) :
    (e.withPrepared p).rankedHits query ctxs restrict = e.rankedHits query ctxs restrict := by
  rw [rankedHits, rankedHits, evaluate_withPrepared h]
  rfl

theorem rankFields_withPrepared (h : e.Prepares p) (query : Query) (k : ℕ) (restrict : Option (Finset DocId))
    (skip : FieldCtx → Bool) (ctxs : List FieldCtx) (byDoc : SortedMap DocId (SearchHit F)) :
    (e.withPrepared p).rankFields query k restrict skip ctxs byDoc =
      e.rankFields query k restrict skip ctxs byDoc := by
  induction ctxs generalizing byDoc with
  | nil => rfl
  | cons ctx ctxs ih =>
    have hfield : (e.withPrepared p).rankSingleField query ctx k restrict byDoc =
        e.rankSingleField query ctx k restrict byDoc := by
      rw [rankSingleField.eq_def, rankSingleField.eq_def e, executeTopKRetrieval_withPrepared h,
        rankedHits_withPrepared h]
      rfl
    rw [rankFields, rankFields, hfield, ih]
    refine congrArg (fun f => if skip ctx then _ else (e.rankSingleField query ctx k restrict byDoc).bind f) ?_
    funext byDoc
    exact ih byDoc

section Ranking

variable [LinearOrder F]

theorem bestFields_withPrepared (h : e.Prepares p) (query : Query) (ctxs : List FieldCtx) (k : ℕ)
    (restrict : Option (Finset DocId)) :
    (e.withPrepared p).bestFields query ctxs k restrict = e.bestFields query ctxs k restrict := by
  have hflat : (e.withPrepared p).flatHits query ctxs k restrict = e.flatHits query ctxs k restrict := by
    simp only [flatHits, executeTopKRetrieval_withPrepared h, executeGroupedRetrieval_withPrepared h]
  have hfields : (e.withPrepared p).rankFields query k restrict = e.rankFields query k restrict :=
    funext fun skip => funext fun ctxs => funext fun byDoc => rankFields_withPrepared h query k restrict skip ctxs byDoc
  rw [bestFields.eq_def, bestFields.eq_def e, hflat, hfields]
  rfl

theorem crossFields_withPrepared (h : e.Prepares p) (query : Query) (ctxs : List FieldCtx) (k : ℕ)
    (restrict : Option (Finset DocId)) :
    (e.withPrepared p).crossFields query ctxs k restrict = e.crossFields query ctxs k restrict := by
  have hcross : ∀ query,
      (e.withPrepared p).crossFieldHits query ctxs restrict = e.crossFieldHits query ctxs restrict := by
    intro query
    rw [crossFieldHits, crossFieldHits, rankedHits_withPrepared h]
    rfl
  have hfl : (e.withPrepared p).fl = e.fl := rfl
  rw [crossFields.eq_def, crossFields.eq_def e]
  simp only [bestFields_withPrepared h, executeGroupedRetrieval_withPrepared h, hcross, hfl]

theorem rankRetrieve_withPrepared (h : e.Prepares p) (query : Option Query) (ctxs : List FieldCtx) (k : ℕ)
    (restrict : Option (Finset DocId)) (mode : MatchMode) :
    (e.withPrepared p).rankRetrieve query ctxs k restrict mode = e.rankRetrieve query ctxs k restrict mode := by
  rw [rankRetrieve.eq_def, rankRetrieve.eq_def e]
  simp only [bestFields_withPrepared h, crossFields_withPrepared h]
  rfl

end Ranking

theorem leaf_of_covered (hplain : e.prepared = fun _ _ => none) (hfaithful : e.Faithful p) {ctx : FieldCtx}
    {query : Query} (h : Covered p ctx query) : (e.withPrepared p).leaf query ctx = e.leaf query ctx := by
  rw [leaf, leaf]
  cases hkey : leafKey query ctx with
  | none => rfl
  | some kx =>
    obtain ⟨list, hlist⟩ := isSome_iff_exists.mp (h kx hkey)
    have hprepared : (e.withPrepared p).prepared kx.2 kx.1 = some list := hlist
    obtain rfl := hfaithful kx.2 kx.1 list hlist
    simp only [map_some, hprepared, hplain, getD_some, getD_none]
    rfl

theorem evalLeaf_filter_congr {ctxs : List FieldCtx} {query : Query}
    (h : ∀ ctx ∈ ctxs, (e.withPrepared p).leaf query ctx = e.leaf query ctx) :
    (e.withPrepared p).evalLeaf query ctxs .filter = e.evalLeaf query ctxs .filter := by
  refine congrArg (fun ids : List DocId => EvalOutcome.docs ids.toFinset) (flatMap_congr fun ctx hctx => ?_)
  rw [h ctx hctx]

mutual

theorem evaluate_filter_congr {ctxs : List FieldCtx} : ∀ query : Query,
    (∀ leaf ∈ leaves query, ∀ ctx ∈ ctxs, (e.withPrepared p).leaf leaf ctx = e.leaf leaf ctx) →
      (e.withPrepared p).evaluate ctxs .filter query = e.evaluate ctxs .filter query
  | .wand parts, h => by rw [evaluate, evaluate, evaluateEach_filter_congr parts h]
  | .or parts, h => by rw [evaluate, evaluate, evaluateEach_filter_congr parts h]
  | .and parts, h => by rw [evaluate, evaluate, evaluateEach_filter_congr parts h]
  | .synonym forms, h => by rw [evaluate, evaluate, evaluateForms_filter_congr forms h]
  | .term v, h => by rw [evaluate, evaluate, evalLeaf_filter_congr (h (.term v) (mem_singleton_self _))]
  | .prefixed v, h => by rw [evaluate, evaluate, evalLeaf_filter_congr (h (.prefixed v) (mem_singleton_self _))]
  | .wildcard v, h => by rw [evaluate, evaluate, evalLeaf_filter_congr (h (.wildcard v) (mem_singleton_self _))]
  | .phrase ts, h => by rw [evaluate, evaluate, evalLeaf_filter_congr (h (.phrase ts) (mem_singleton_self _))]
  | .exactly v, h => by rw [evaluate, evaluate, evalLeaf_filter_congr (h (.exactly v) (mem_singleton_self _))]
  | .fuzzy _ _ _, _ => by rw [evaluate, evaluate]; rfl
  | .range _ _, _ => by rw [evaluate, evaluate]; rfl
  | .bool _, _ => by rw [evaluate, evaluate]; rfl
  | .sameElement _, _ => by rw [evaluate, evaluate]
  | .matchAll, _ => by rw [evaluate, evaluate]; rfl

theorem evaluateEach_filter_congr {ctxs : List FieldCtx} : ∀ parts : List Query,
    (∀ leaf ∈ leavesOfEach parts, ∀ ctx ∈ ctxs, (e.withPrepared p).leaf leaf ctx = e.leaf leaf ctx) →
      (e.withPrepared p).evaluateEach ctxs .filter parts = e.evaluateEach ctxs .filter parts
  | [], _ => by rw [evaluateEach, evaluateEach]
  | part :: parts, h => by
    rw [evaluateEach, evaluateEach,
      evaluate_filter_congr part fun leaf hleaf => h leaf (mem_append_left _ hleaf),
      evaluateEach_filter_congr parts fun leaf hleaf => h leaf (mem_append_right _ hleaf)]

theorem evaluateForms_filter_congr {ctxs : List FieldCtx} : ∀ forms : List (Query × ℕ),
    (∀ leaf ∈ leavesOfForms forms, ∀ ctx ∈ ctxs, (e.withPrepared p).leaf leaf ctx = e.leaf leaf ctx) →
      (e.withPrepared p).evaluateForms ctxs .filter [] forms = e.evaluateForms ctxs .filter [] forms
  | [], _ => by rw [evaluateForms, evaluateForms]
  | (form, weight) :: forms, h => by
    rw [evaluateForms.eq_def, evaluateForms.eq_def e]
    simp only [evaluate_filter_congr form fun leaf hleaf => h leaf (mem_append_left _ hleaf),
      evaluateForms_filter_congr forms fun leaf hleaf => h leaf (mem_append_right _ hleaf)]

end

theorem totalHitCount_prepare (hplain : e.prepared = fun _ _ => none) (own : LocalStats) {queries : List Query}
    {query : Query} (hquery : query ∈ queries) (ctxs : List FieldCtx) (restrict : Option (Finset DocId)) :
    (e.withPrepared (e.prepare own queries ctxs)).totalHitCount (some query) ctxs restrict =
      e.totalHitCount (some query) ctxs restrict := by
  have heval : (e.withPrepared (e.prepare own queries ctxs)).evaluate ctxs .filter query =
      e.evaluate ctxs .filter query := by
    refine evaluate_filter_congr query fun leaf hleaf ctx hctx => ?_
    exact leaf_of_covered hplain (faithful_prepare queries ctxs) (covered_prepare hquery hctx hleaf)
  rw [totalHitCount.eq_def, totalHitCount.eq_def e]
  simp only [heval]
  rfl

end QueryExecutor

/-! ### Preparing and the empty word -/

/-- Ranking and counting a prepared query gives the same as without preparing, for all statistics and
all ways to score. -/
def SearchIndex.PreparedSame (index : SearchIndex) : Prop :=
  ∀ (F : Type) [LinearOrder F] (e : QueryExecutor F) (own : LocalStats),
    e.index = index → (e.prepared = fun _ _ => none) →
    ∀ (queries : List Query) (ctxs : List FieldCtx), ∀ query ∈ queries,
      (∀ k restrict mode,
        (e.withPrepared (e.prepare own queries ctxs)).rankRetrieve (some query) ctxs k restrict mode =
          e.rankRetrieve (some query) ctxs k restrict mode) ∧
      ∀ restrict, (e.withPrepared (e.prepare own queries ctxs)).totalHitCount (some query) ctxs restrict =
        e.totalHitCount (some query) ctxs restrict

def Bm25.ones : Bm25 ℕ := { Bm25.pair with scoreScaled := fun _ _ _ _ _ _ => 1, upperBound := fun _ _ _ => 1 }

def LocalStats.none : LocalStats := ⟨fun _ => 0, fun _ _ _ => []⟩

theorem ne_nil_best {α K : Type} [LinearOrder K] (rank : α → K) {l : List α} (h : l ≠ []) :
    TopK.best rank 1 l ≠ [] := by
  intro hnil
  rcases take_eq_nil_iff.mp hnil with hone | hsorted
  · cases hone
  · have hperm : (Keyed.sortBy rank l).Perm l := Keyed.perm_sortBy l
    rw [hsorted] at hperm
    exact h hperm.nil_eq.symm

theorem ne_nil_topKFromHits {F : Type} [LinearOrder F] (fl : HitFloat F) {hits : List (SearchHit F)}
    (h : hits ≠ []) : topKFromHits (intoValues (mergeHits fl SortedMap.empty hits)) 1 ≠ [] := by
  obtain ⟨hit, hmem⟩ := exists_mem_of_ne_nil hits h
  have hvalues : intoValues (mergeHits fl SortedMap.empty hits) ≠ [] := by
    have hsome : ((mergeHits fl SortedMap.empty hits).get? hit.docId).isSome = true := by
      rw [get?_mergeHits, SortedMap.get?_empty]
      cases hown : hits.filter fun other => other.docId = hit.docId with
      | nil => exact absurd (decide_eq_true rfl) (filter_eq_nil_iff.mp hown hit hmem)
      | cons first rest => rw [joinHits, foldl_cons, ← joinHits, joinHits_some]; rfl
    obtain ⟨value, hvalue⟩ := Option.isSome_iff_exists.mp hsome
    exact ne_nil_of_mem (mem_intoValues.mpr ⟨_, hvalue⟩)
  rw [topKFromHits_eq (FiledByDoc.empty.mergeHits fl hits).distinctDocs]
  exact ne_nil_best SearchHit.rank hvalues

theorem QueryExecutor.rankRetrieve_term {F : Type} [LinearOrder F] {e : QueryExecutor F}
    (hrange : e.index.docRange ≠ none) (v : String) (x : XPathId) :
    e.rankRetrieve (some (.term v)) [⟨x, none, false⟩] 1 none .bestFields =
      some (topKFromHits (intoValues (mergeHits e.fl SortedMap.empty
        ((wandTopKMultiField e.bm e.stats (e.fetchFieldTerms [v] [x]) 1 none).map
          (wandHitToSearchHit e.fl)))) 1) := by
  rw [rankRetrieve.eq_def, if_neg (by simp [hrange])]
  rfl

theorem wandTopKMultiField_nil {F : Type} (bm : Bm25 F) (stats : SearchStats F) {list : PostingList}
    (h : list.items = []) (x : XPathId) (docFreq : ℕ) :
    wandTopKMultiField bm stats [⟨x, [termRef (list, docFreq)]⟩] 1 none = [] := by
  have hterms : multiFieldTerms bm stats [⟨x, [termRef (list, docFreq)]⟩] = [] := by
    simp [multiFieldTerms, termRef, PostingCursor.isExhausted, PostingCursor.new, h]
  rw [wandTopKMultiField, hterms]
  rfl

theorem wandTopKMultiField_ones (stats : SearchStats ℕ) {list : PostingList} (h : list.items ≠ []) (x : XPathId)
    (docFreq : ℕ) :
    wandTopKMultiField Bm25.ones stats [⟨x, [termRef (list, docFreq)]⟩] 1 none ≠ [] := by
  have hbound : Bounded Bm25.ones stats [⟨x, [termRef (list, docFreq)]⟩] :=
    fun _ _ _ _ _ _ => le_refl 1
  obtain ⟨p, hp⟩ := exists_mem_of_ne_nil _ h
  obtain ⟨q, hq⟩ := Option.ne_none_iff_exists'.mp (mem_ids.mp (mem_map_of_mem hp))
  have hcand : p.docId ∈ candidates Bm25.ones stats [⟨x, [termRef (list, docFreq)]⟩] none := by
    refine mem_candidates.mpr ⟨rfl, (1, 1), ?_, Nat.one_pos⟩
    simp only [pairsOn, termRef, flatMap_singleton, filterMap_cons, hq, Option.map_some]
    exact mem_singleton_self _
  rw [(wandTopKMultiField_exact hbound 1 none).2.1]
  exact ne_nil_best WandHit.rank (ne_nil_of_mem (mem_map_of_mem hcand))

theorem QueryExecutor.rankRetrieve_term_of_nil {F : Type} [LinearOrder F] {e : QueryExecutor F}
    (hrange : e.index.docRange ≠ none) {v : String} {x : XPathId} (h : (e.fetchTermList v x).1.items = []) :
    e.rankRetrieve (some (.term v)) [⟨x, none, false⟩] 1 none .bestFields = some [] := by
  have hhits : wandTopKMultiField e.bm e.stats (e.fetchFieldTerms [v] [x]) 1 none = [] :=
    wandTopKMultiField_nil e.bm e.stats h x (e.fetchTermList v x).2
  rw [rankRetrieve_term hrange, hhits]
  rfl

theorem QueryExecutor.rankRetrieve_term_ones {e : QueryExecutor ℕ} (hrange : e.index.docRange ≠ none)
    (hbm : e.bm = Bm25.ones) {v : String} {x : XPathId} (h : (e.fetchTermList v x).1.items ≠ []) :
    e.rankRetrieve (some (.term v)) [⟨x, none, false⟩] 1 none .bestFields ≠ some [] := by
  have hhits : wandTopKMultiField e.bm e.stats (e.fetchFieldTerms [v] [x]) 1 none ≠ [] := by
    rw [hbm]
    exact wandTopKMultiField_ones e.stats h x (e.fetchTermList v x).2
  rw [rankRetrieve_term hrange]
  exact fun hnil => ne_nil_topKFromHits e.fl (map_eq_nil_iff.not.mpr hhits) (Option.some_inj.mp hnil)

theorem QueryExecutor.fetchTermList_prepare_empty {F : Type} (e : QueryExecutor F) (own : LocalStats) (x : XPathId) :
    ((e.withPrepared (e.prepare own [.term ""] [⟨x, none, false⟩])).fetchTermList "" x).1.items = [] := by
  have hlist : (e.prepare own [.term ""] [⟨x, none, false⟩]).lists x (.term "") = some (e.fetchLeaf (.term "") x) :=
    (lists_prepareLeaf (.term "") .empty x (.term "")).trans (if_pos rfl)
  have hprepared : (e.withPrepared (e.prepare own [.term ""] [⟨x, none, false⟩])).prepared x (.term "") =
      some (e.fetchLeaf (.term "") x) := hlist
  rw [fetchTermList, hprepared]
  rfl

theorem SearchIndex.not_preparedSame {index : SearchIndex} (hrange : index.docRange ≠ none) {x : XPathId}
    (hitems : (index.lookup "" x).items ≠ []) : ¬ index.PreparedSame := by
  intro hsame
  let e : QueryExecutor ℕ := { counting index with bm := Bm25.ones }
  have hrank := (hsame ℕ e .none rfl rfl [.term ""] [⟨x, none, false⟩] (.term "")
    (mem_singleton_self _)).1 1 none .bestFields
  -- the prepared word has no documents, the word of the index has
  rw [rankRetrieve_term_of_nil hrange (e.fetchTermList_prepare_empty .none x)] at hrank
  exact rankRetrieve_term_ones (e := e) hrange rfl hitems hrank.symm

/-- Preparing changes nothing but cost, exactly when no document has the empty word. -/
theorem SearchIndex.prepared_same_iff (index : SearchIndex) :
    index.PreparedSame ↔ index.docRange = none ∨ ∀ x, (index.lookup "" x).items = [] := by
  constructor
  · intro hsame
    by_contra hcond
    rw [not_or, not_forall] at hcond
    obtain ⟨hrange, x, hitems⟩ := hcond
    exact not_preparedSame hrange hitems hsame
  · intro hcond F _ e own hindex hplain queries ctxs query hquery
    refine ⟨fun k restrict mode => ?_, fun restrict =>
      totalHitCount_prepare hplain own hquery ctxs restrict⟩
    rcases hcond with hrange | hempty
    · -- an index without documents ranks nothing
      have hnone : ∀ e' : QueryExecutor F, e'.index = index →
          e'.rankRetrieve (some query) ctxs k restrict mode = some [] := by
        intro e' he'
        rw [rankRetrieve.eq_def, if_pos (.inr (.inr (by rw [he', hrange])))]
      exact (hnone (e.withPrepared (e.prepare own queries ctxs)) hindex).trans (hnone e hindex).symm
    · refine rankRetrieve_withPrepared ⟨hplain, faithful_prepare queries ctxs, ?_⟩ _ _ _ _ _
      intro x
      rw [hindex]
      exact hempty x

def SearchIndex.emptyWord : SearchIndex where
  lookup term x := if term = "" ∧ x = 1 then .single ⟨7, [0], 1⟩ else .new
  lookupPrefix _ _ := .new
  lookupWildcard _ _ := .new
  numericRange _ _ _ := .new
  boolTrueIds _ := ∅
  boolFalseIds _ := ∅
  docRange := some (7, 7)
  isDeleted _ := false
  docOfRow _ := none

/-- Asked for the empty word, the index ranks its document, and ranks nothing once the query is
prepared. -/
theorem SearchIndex.emptyWord_prepared :
    let e : QueryExecutor ℕ := { counting SearchIndex.emptyWord with bm := Bm25.ones }
    e.rankRetrieve (some (.term "")) [⟨1, none, false⟩] 1 none .bestFields ≠ some [] ∧
      (e.withPrepared (e.prepare .none [.term ""] [⟨1, none, false⟩])).rankRetrieve (some (.term ""))
        [⟨1, none, false⟩] 1 none .bestFields = some [] ∧
      ¬ SearchIndex.emptyWord.PreparedSame := by
  intro e
  have hrange : SearchIndex.emptyWord.docRange ≠ none := by decide
  have hitems : (SearchIndex.emptyWord.lookup "" 1).items ≠ [] := by decide
  exact ⟨rankRetrieve_term_ones (e := e) (v := "") (x := 1) hrange rfl hitems,
    rankRetrieve_term_of_nil hrange (e.fetchTermList_prepare_empty .none 1),
    SearchIndex.not_preparedSame hrange hitems⟩

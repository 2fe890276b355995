/-
Retrieving ranked documents.

A flat query, of words and of groups of words, is ranked by walking posting
lists; any other query is evaluated and its hits are cut to the best.
-/
import Riets.Executor
import Riets.Conjunction

inductive MatchMode where
  | bestFields
  | crossFields
  deriving DecidableEq, Repr

def Query.asTerm : Query → Option String
  | .term v => some v
  | _ => none

/-- A form of a group that can be walked. -/
def formFits : Query → Bool
  | .term _ => true
  | .phrase _ => true
  | .exactly _ => true
  | .and words => words.all fun word => word.asTerm.isSome
  | _ => false

/-- A part of a query that can be walked. -/
def partFits : Query → Bool
  | .term _ => true
  | .synonym forms => forms.all fun form => formFits form.1
  | _ => false

def isGroup : Query → Bool
  | .synonym _ => true
  | _ => false

/-- The parts of a flat query with groups, and whether all are needed. -/
def groupedParts (query : Query) (needsGroup : Bool) : Option (Bool × List Query) :=
  let parts : Option (Bool × List Query) :=
    match query with
    | .synonym forms => some (false, [.synonym forms])
    | .wand parts => some (false, parts)
    | .or parts => some (false, parts)
    | .and parts => some (true, parts)
    | _ => none
  parts.filter fun parts => parts.2.all partFits && (parts.2.any isGroup || !needsGroup)

/-- The words of a query for any of them. -/
def additiveTerms : Query → Option (List String)
  | .term v => some [v]
  | .wand parts => parts.mapM Query.asTerm
  | _ => none

/-- The words of a query for all of them. -/
def conjunctiveTerms : Query → Option (List String)
  | .and parts => parts.mapM Query.asTerm
  | _ => none

namespace QueryExecutor

variable {F : Type} (e : QueryExecutor F)

/-! ### The walks -/

def termRef (fetched : PostingList × ℕ) : TermRef := ⟨fetched.1, fetched.2, fetched.1.maxWeight⟩

/-- The lists of the words in each field. -/
def fetchFieldTerms (terms : List String) (xpaths : List XPathId) : List FieldTerms :=
  xpaths.map fun x => ⟨x, terms.map fun term => termRef (e.fetchTermList term x)⟩

/-- The walk for flat lists of words; `none` inside when a loop does not end. -/
def executeTopKRetrieval (query : Query) (xpaths : List XPathId) (k : ℕ) (restrict : Option (Finset DocId)) :
    Option (Option (List WandHit)) :=
  match additiveTerms query with
  | some terms => some (some (wandTopKMultiField e.bm e.stats (e.fetchFieldTerms terms xpaths) k restrict))
  | none => (conjunctiveTerms query).map fun terms =>
      conjunctiveTopKMultiField e.bm e.stats (e.fetchFieldTerms terms xpaths) k restrict

/-- A leaf as a form of field number `field`. -/
def leafForm (query : Query) (ctx : FieldCtx) (floor : Option ℕ) (weight field : ℕ) : Option FormRef :=
  (e.leaf query ctx).map fun leaf =>
    ⟨leaf.1, field, [termRef (leaf.2.1, (floor.map fun floor => max leaf.2.2 floor).getD leaf.2.2)], weight⟩

/-- A phrase as the lists of its words, each kept to the documents that have the phrase. -/
def phraseForm (terms : List PhraseTerm) (ctx : FieldCtx) (weight field : ℕ) : Option FormRef :=
  (e.leaf (.phrase terms) ctx).map fun leaf =>
    ⟨ctx.xpath, field, terms.map fun term =>
      let fetched := e.fetchTermList term.text ctx.xpath
      termRef (postingsOf fetched.1 leaf.2.1.ids.toFinset, fetched.2), weight⟩

/-- A form of several words that all have to match. -/
def wordsForm (words : List Query) (ctx : FieldCtx) (weight field : ℕ) : Option FormRef :=
  (words.mapM fun word => e.leaf word ctx).map fun leaves =>
    ⟨ctx.xpath, field, leaves.map fun leaf => termRef (leaf.2.1, leaf.2.2), weight⟩

/-- A form of a group in one field; `floor` is the document frequency of the typed word. -/
def groupForm (form : Query) (ctx : FieldCtx) (floor : Option ℕ) (weight field : ℕ) : Option FormRef :=
  match form with
  | .term v => e.leafForm (.term v) ctx floor weight field
  | .phrase terms => e.phraseForm terms ctx weight field
  | .exactly v => e.leafForm (.exactly v) ctx none weight field
  | .and words => e.wordsForm words ctx weight field
  | _ => none

/-- The document frequency of the typed word, when the group starts with one. -/
def typedFloor (forms : List (Query × ℕ)) (ctx : FieldCtx) : Option ℕ :=
  match forms with
  | (.term v, _) :: _ => ((e.leaf (.term v) ctx).map fun leaf => leaf.2.2).filter fun docFreq => 0 < docFreq
  | _ => none

/-- The forms of one part in one field. -/
def clauseForms (part : Query) (ctx : FieldCtx) (field : ℕ) : List FormRef :=
  match part with
  | .synonym forms => forms.zipIdx.filterMap fun form =>
      e.groupForm form.1.1 ctx (if form.2 = 0 then none else e.typedFloor forms ctx) form.1.2 field
  | part => (e.leafForm part ctx none 1000 field).toList

/-- One clause for each part: its forms in every field, or one field after the other. -/
def groupedFields (parts : List Query) (ctxs : List FieldCtx) (crossFields : Bool) : List FieldClauses :=
  if crossFields then
    [⟨parts.map fun part => ctxs.zipIdx.flatMap fun ctx => e.clauseForms part ctx.1 ctx.2⟩]
  else
    ctxs.zipIdx.map fun ctx => ⟨parts.map fun part => e.clauseForms part ctx.1 ctx.2⟩

/-- The walk for flat queries with groups; `none` inside when a loop does not end. -/
def executeGroupedRetrieval (query : Query) (ctxs : List FieldCtx) (k : ℕ) (restrict : Option (Finset DocId))
    (crossFields : Bool) (coverage : Option F) : Option (Option (List WandHit)) :=
  (groupedParts query (!crossFields)).map fun parts =>
    let fields := e.groupedFields parts.2 ctxs crossFields
    if parts.1 then conjunctiveTopKGrouped e.bm e.stats fields k restrict
    else some (wandTopKGrouped e.bm e.stats fields k coverage restrict)

/-! ### Ranking -/

variable [LinearOrder F]

def scoredHit (p : ScoredPosting F) : SearchHit F where
  docId := p.docId
  matchedTerms := p.matchedTerms
  weightSum := min (p.score / 1000) u32Max
  distanceFactor := p.density
  score := e.fl.mul (e.fl.ofScore p.score) p.density
  tier := 0
  level := 0
  base := e.fl.zero
  mask := 0
  nameShare := e.fl.zero

/-- The allowed documents of an evaluation, as hits; `none` when it panics. -/
def rankedHits (query : Query) (ctxs : List FieldCtx) (restrict : Option (Finset DocId)) :
    Option (List (SearchHit F)) :=
  (e.evaluate ctxs .rank query).map fun outcome =>
    (outcome.hits.filter fun p => allows restrict p.docId).map e.scoredHit

/-- Each document once, whatever fields found it. -/
def crossFieldHits (query : Query) (ctxs : List FieldCtx) (restrict : Option (Finset DocId)) :
    Option (List (SearchHit F)) :=
  (e.rankedHits query ctxs restrict).map fun hits => intoValues (mergeHits e.fl SortedMap.empty hits)

/-- A field by itself: walked, or evaluated. -/
def rankSingleField (query : Query) (ctx : FieldCtx) (k : ℕ) (restrict : Option (Finset DocId))
    (byDoc : SortedMap DocId (SearchHit F)) : Option (SortedMap DocId (SearchHit F)) :=
  match if ctx.rowKeyed then none else e.executeTopKRetrieval query [ctx.xpath] k restrict with
  | some hits => hits.map fun hits => mergeHits e.fl byDoc (hits.map (wandHitToSearchHit e.fl))
  | none => (e.rankedHits query [ctx] restrict).map (mergeHits e.fl byDoc)

/-- One field after the other, without those that are skipped. -/
def rankFields (query : Query) (k : ℕ) (restrict : Option (Finset DocId)) (skip : FieldCtx → Bool) :
    List FieldCtx → SortedMap DocId (SearchHit F) → Option (SortedMap DocId (SearchHit F))
  | [], byDoc => some byDoc
  | ctx :: ctxs, byDoc =>
    if skip ctx then rankFields query k restrict skip ctxs byDoc
    else (e.rankSingleField query ctx k restrict byDoc).bind (rankFields query k restrict skip ctxs)

/-- The walk over all plain fields together, when the query is flat. -/
def flatHits (query : Query) (ctxs : List FieldCtx) (k : ℕ) (restrict : Option (Finset DocId)) :
    Option (Option (List WandHit)) :=
  let plain := ctxs.filter fun ctx => !ctx.rowKeyed
  if plain = [] then none
  else (e.executeTopKRetrieval query (plain.map FieldCtx.xpath) k restrict).or
    (e.executeGroupedRetrieval query plain k restrict false none)

/-- The fields are ranked one by one and added up. -/
def bestFields (query : Query) (ctxs : List FieldCtx) (k : ℕ) (restrict : Option (Finset DocId)) :
    Option (List (SearchHit F)) :=
  let byDoc :=
    match e.flatHits query ctxs k restrict with
    | some hits => hits.bind fun hits => e.rankFields query k restrict (fun ctx => !ctx.rowKeyed) ctxs
        (mergeHits e.fl SortedMap.empty (hits.map (wandHitToSearchHit e.fl)))
    | none => e.rankFields query k restrict (fun _ => false) ctxs SortedMap.empty
  byDoc.map fun byDoc => topKFromHits (intoValues byDoc) k

/-- The query is ranked over all fields at once. -/
def crossFields (query : Query) (ctxs : List FieldCtx) (k : ℕ) (restrict : Option (Finset DocId)) :
    Option (List (SearchHit F)) :=
  match query with
  -- any of the words: both modes score the same
  | .wand parts => e.bestFields (.wand parts) ctxs k restrict
  | .term v => e.bestFields (.term v) ctxs k restrict
  | query =>
    let walked :=
      if ctxs.all fun ctx => !ctx.rowKeyed then e.executeGroupedRetrieval query ctxs k restrict true none
      else none
    match walked with
    | some hits => hits.map fun hits => hits.map (wandHitToSearchHit e.fl)
    | none => (e.crossFieldHits query ctxs restrict).map fun hits => topKFromHits hits k

/-- Documents without a score, in the order of their ids. -/
def unranked (docs : Finset DocId) (k : ℕ) : List (SearchHit F) :=
  topKFromHits (docs.ascending.map (SearchHit.ofDoc e.fl)) k

/-- The `k` best documents of a query; `none` when the ranking panics. -/
def rankRetrieve (query : Option Query) (ctxs : List FieldCtx) (k : ℕ) (restrict : Option (Finset DocId))
    (mode : MatchMode) : Option (List (SearchHit F)) :=
  if k = 0 ∨ restrict = some ∅ ∨ e.index.docRange = none then some []
  else
    match query with
    | none => some ((restrict.map fun docs => e.unranked docs k).getD [])
    | some .matchAll => some (e.unranked (restrict.getD
        ((idsBetween e.index.docRange).filter fun id => !e.index.isDeleted id)) k)
    | some query =>
      match mode with
      | .bestFields => e.bestFields query ctxs k restrict
      | .crossFields => e.crossFields query ctxs k restrict

/-- The reported number of results of a query without a plan; `none` when the evaluation panics. -/
def totalHitCount (query : Option Query) (ctxs : List FieldCtx) (restrict : Option (Finset DocId)) : Option ℕ :=
  match query with
  | none => some 0
  | some query => (e.evaluate ctxs .filter query).map fun outcome =>
      (outcome.ids.filter fun id => !e.index.isDeleted id && allows restrict id).card

end QueryExecutor

/-- Whole numbers in place of floats. -/
def HitFloat.counts : HitFloat ℕ where
  zero := 0
  one := 1
  add := (· + ·)
  mul := (· * ·)
  greatest := max
  ofScore := id
  decayed score edits := score / (edits + 1)
  roundLen := id

def QueryExecutor.counting (index : SearchIndex) : QueryExecutor ℕ where
  index := index
  stats := SearchStats.pair
  corpusDocFreq _ _ := none
  bm := Bm25.pair
  fl := HitFloat.counts
  fuzzyWords text := [text]
  expansions _ _ _ _ := []

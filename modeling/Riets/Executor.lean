/-
Evaluating queries.

A query is a tree: words, prefixes, wildcards, phrases and exact values read one
posting list in each searched field, the inner nodes combine what their parts
found.  Evaluated for filtering a query gives ids; evaluated for ranking it gives
documents with scores, the array rows folded onto their documents.

The index, the analyzer and the statistics are what the executor asks them for.
-/
import Riets.SearchHit

/-- A word of a phrase, with its offset from the first. -/
structure PhraseTerm where
  text : String
  offset : ℕ
  deriving DecidableEq, Repr

inductive Fuzziness where
  | zero
  | one
  | two
  | auto
  deriving DecidableEq, Repr

structure FuzzySpec where
  prefixLength : ℕ
  maxExpansions : ℕ
  deriving DecidableEq, Repr

/-- A query.  The forms of a synonym group come with the share their score counts for, in
thousandths; the first is what was typed. -/
inductive Query where
  | term (v : String)
  | prefixed (v : String)
  | wildcard (pattern : String)
  | phrase (terms : List PhraseTerm)
  | exactly (v : String)
  | fuzzy (raw : String) (fuzziness : Fuzziness) (spec : FuzzySpec)
  | wand (parts : List Query)
  | or (parts : List Query)
  | and (parts : List Query)
  | synonym (forms : List (Query × ℕ))
  | range (lo hi : Option NumericBound)
  | sameElement (children : List Query)
  | bool (value : Bool)
  | matchAll

/-- What a posting list is looked up by. -/
inductive LeafKey where
  | term (v : String)
  | prefixed (v : String)
  | wildcard (pattern : String)
  | phrase (terms : List PhraseTerm)
  | exactly (v : String)
  deriving DecidableEq, Repr

/-- A field that is searched: its ids, and whether it is one of array elements. -/
structure FieldCtx where
  xpath : XPathId
  exactXPath : Option XPathId
  rowKeyed : Bool
  deriving DecidableEq, Repr

structure FuzzyExpansion where
  term : String
  edits : ℕ
  docFreq : ℕ
  deriving DecidableEq, Repr

/-- What the executor asks of an index. -/
structure SearchIndex where
  lookup : String → XPathId → PostingList
  lookupPrefix : String → XPathId → PostingList
  lookupWildcard : String → XPathId → PostingList
  numericRange : XPathId → Option NumericBound → Option NumericBound → PostingList
  boolTrueIds : XPathId → Finset DocId
  boolFalseIds : XPathId → Finset DocId
  docRange : Option (DocId × DocId)
  isDeleted : DocId → Bool
  docOfRow : DocId → Option DocId

/-- An index with the statistics and the arithmetic it is scored with. -/
structure QueryExecutor (F : Type) where
  index : SearchIndex
  /-- `ScoringStats`: those of the whole search, or the index's own. -/
  stats : SearchStats F
  /-- Document frequencies of the whole search, where there are some. -/
  corpusDocFreq : XPathId → LeafKey → Option ℕ
  prepared : XPathId → LeafKey → Option PostingList := fun _ _ => none
  bm : Bm25 F
  fl : HitFloat F
  /-- `fuzzable_words`: the analyzed words of a text. -/
  fuzzyWords : String → List String
  /-- The words a word may be changed into in a field, as they were picked. -/
  expansions : String → XPathId → Fuzziness → FuzzySpec → List FuzzyExpansion

/-- Ids only, or hits with scores. -/
inductive EvalMode where
  | filter
  | rank
  deriving DecidableEq, Repr

/-- A document with what it scored so far. -/
structure ScoredPosting (F : Type) where
  docId : DocId
  score : ℕ
  matchedTerms : ℕ
  density : F
  deriving DecidableEq

/-- What a query finds in one of the modes. -/
inductive EvalOutcome (F : Type) where
  | docs (ids : Finset DocId)
  | scored (hits : List (ScoredPosting F))

/-! ### Phrases and exact values -/

def spanBits : ℕ := 4

/-- A position holds its start and, in the lowest bits, how many words it spans. -/
def positionStart (position : ℕ) : ℕ := position >>> spanBits

def positionSpan (position : ℕ) : ℕ := position % 2 ^ spanBits + 1

/-- The words behind one that ends at `next` follow it, with the gaps between their offsets; the sum is
a `u32`. -/
def follows : ℕ → List ℕ → List (List ℕ) → Bool
  | _, _, [] => true
  | next, a :: b :: offsets, positions :: rest =>
    let want := (next + (b - a - 1)) % 2 ^ 32
    match (positions.dropWhile fun p => positionStart p < want).head? with
    | some p => positionStart p = want && follows (want + positionSpan p) (b :: offsets) rest
    | none => false
  | _, _, _ :: _ => false

/-- Some position of the first word goes on to the last. -/
def phraseMatches (positionLists : List (List ℕ)) (offsets : List ℕ) : Bool :=
  match positionLists with
  | [] => false
  | first :: rest => first.any fun encoded =>
      follows (positionStart encoded + positionSpan encoded) offsets rest

/-- White space, as `char::is_whitespace` has it. -/
def isWhite (c : Char) : Bool :=
  let n := c.toNat
  (9 ≤ n && n ≤ 13) || n = 32 || n = 133 || n = 160 || n = 5760 || (8192 ≤ n && n ≤ 8202) ||
    n = 8232 || n = 8233 || n = 8239 || n = 8287 || n = 12288

def trimWhite (cs : List Char) : List Char :=
  ((cs.dropWhile isWhite).reverse.dropWhile isWhite).reverse

def unquoted : List Char → Option (List Char)
  | '"' :: cs => if cs.getLast? = some '"' then some cs.dropLast else none
  | _ => none

/-- What an exact match looks up: the value without quotes, or its only word. -/
def exactKey (raw : String) : Option String :=
  let trimmed := trimWhite raw.toList
  let value := (unquoted trimmed).getD trimmed
  match (value.splitOnP isWhite).filter (· ≠ []) with
  | [] => none
  | [word] => some (String.ofList word)
  | _ => some (String.ofList value)

/-! ### Scores by document -/

namespace ScoredPosting

variable {F : Type}

/-- The scores of one document added up; the closeness of the first stays. -/
def plus (cur hit : ScoredPosting F) : ScoredPosting F :=
  { cur with score := satAdd cur.score hit.score, matchedTerms := cur.matchedTerms + hit.matchedTerms }

/-- The first of the best. -/
def better (cur hit : ScoredPosting F) : ScoredPosting F := if cur.score < hit.score then hit else cur

end ScoredPosting

section Executor

variable {F : Type}

/-- The hits by document. -/
def gatherHits (join : ScoredPosting F → ScoredPosting F → ScoredPosting F)
    (hits : List (ScoredPosting F)) : SortedMap DocId (ScoredPosting F) :=
  hits.foldl (fun acc hit => acc.upsert hit.docId fun old => (old.map fun cur => join cur hit).getD hit)
    SortedMap.empty

/-- Each document once, with all its scores. -/
def addUp (hits : List (ScoredPosting F)) : List (ScoredPosting F) :=
  intoValues (gatherHits ScoredPosting.plus hits)

/-- Each document once, with its best score. -/
def bestOf (hits : List (ScoredPosting F)) : List (ScoredPosting F) :=
  intoValues (gatherHits ScoredPosting.better hits)

def scoredIds (hits : List (ScoredPosting F)) : Finset DocId := (hits.map ScoredPosting.docId).toFinset

def EvalOutcome.ids : EvalOutcome F → Finset DocId
  | docs ids => ids
  | scored _ => ∅

def EvalOutcome.hits : EvalOutcome F → List (ScoredPosting F)
  | docs _ => []
  | scored hits => hits

/-- The ids that are in all sets; none when there is no set. -/
def meetIds : List (Finset DocId) → Finset DocId
  | [] => ∅
  | ids :: rest => rest.foldl (· ∩ ·) ids

def postingIds (postings : PostingList) : Finset DocId := postings.ids.toFinset

/-- The smallest part first: the documents of all parts, each with its scores added up. -/
def scoreAnd (parts : List (List (ScoredPosting F))) : List (ScoredPosting F) :=
  let sorted := Keyed.sortBy List.length parts
  let candidates := meetIds (sorted.map scoredIds)
  addUp (sorted.flatten.filter fun hit => hit.docId ∈ candidates)

namespace QueryExecutor

variable (e : QueryExecutor F)

/-- The document of an id, which may be that of a row. -/
def foldToDoc (ctx : FieldCtx) (id : DocId) : Option DocId :=
  if ctx.rowKeyed then e.index.docOfRow id else some id

/-- The frequency in the whole search, else the length of the list. -/
def leafDocFreq (x : XPathId) (key : LeafKey) (postings : PostingList) : ℕ :=
  (e.corpusDocFreq x key).getD (postings.items.length % 2 ^ 32)

/-- `lookup_term` of an index gives a list with its length. -/
def fetchTermList (term : String) (x : XPathId) : PostingList × ℕ :=
  let postings := (e.prepared x (.term term)).getD (e.index.lookup term x)
  (postings, e.leafDocFreq x (.term term) postings)

/-! ### Leaves -/

/-- The documents in which the words follow one another. -/
def executePhrase (terms : List PhraseTerm) (x : XPathId) : PostingList :=
  let lists := terms.map fun term => (e.fetchTermList term.text x).1
  if terms = [] ∨ lists.any (fun list => list.items = []) then default
  else
    -- the source walks the rarest word; the documents are those of all lists
    match lists.minOn? (fun list => list.items.length) with
    | none => default
    | some rarest => PostingList.fromItems (rarest.items.filterMap fun driver =>
        match lists.mapM fun list => list.find driver.docId with
        | some (first :: rest) =>
          if phraseMatches ((first :: rest).map Posting.positions) (terms.map PhraseTerm.offset) then
            some ⟨driver.docId, first.positions, first.weight⟩
          else none
        | _ => none)

/-- The documents whose whole value is the text. -/
def executeExact (raw : String) (x : XPathId) : PostingList :=
  match exactKey raw with
  | some key => e.index.lookup key x
  | none => default

/-- The key of a leaf and the field it is read from; an exact match has a field of its own. -/
def leafKey (query : Query) (ctx : FieldCtx) : Option (LeafKey × XPathId) :=
  match query with
  | .term v => some (.term v, ctx.xpath)
  | .prefixed v => some (.prefixed v, ctx.xpath)
  | .wildcard p => some (.wildcard p, ctx.xpath)
  | .phrase terms => some (.phrase terms, ctx.xpath)
  | .exactly v => some (.exactly v, ctx.exactXPath.getD ctx.xpath)
  | _ => none

def fetchLeaf (key : LeafKey) (x : XPathId) : PostingList :=
  match key with
  | .term v => if v = "" then default else e.index.lookup v x
  | .prefixed v => if v = "" then default else e.index.lookupPrefix v x
  | .wildcard p => e.index.lookupWildcard p x
  | .phrase terms => e.executePhrase terms x
  | .exactly v => e.executeExact v x

/-- The list of a leaf with its field and its document frequency. -/
def leaf (query : Query) (ctx : FieldCtx) : Option (XPathId × PostingList × ℕ) :=
  (leafKey query ctx).map fun kx =>
    let postings := (e.prepared kx.2 kx.1).getD (e.fetchLeaf kx.1 kx.2)
    (kx.2, postings, e.leafDocFreq kx.2 kx.1 postings)

/-- Postings without positions score nothing. -/
def scoreTermInto (postings : PostingList) (x : XPathId) (docFreq : ℕ) : List (ScoredPosting F) :=
  (postings.items.filter fun p => p.positions ≠ []).map fun p =>
    let score := e.bm.scoreScaled (p.positions.length % 2 ^ 32) p.weight
      (e.fl.roundLen (e.stats.lenOrAverage e.bm p.docId x)) (e.stats.avgDocLen x) (e.stats.docCount x) docFreq
    ⟨p.docId, score, 1, e.fl.one⟩

/-- Hits with their rows folded onto documents; a row without a document is dropped. -/
def foldHits (ctx : FieldCtx) (hits : List (ScoredPosting F)) : List (ScoredPosting F) :=
  hits.filterMap fun hit => (e.foldToDoc ctx hit.docId).map fun d => { hit with docId := d }

/-- The hits of a leaf in one field; `floor` is the lowest document frequency it is scored with. -/
def leafHits (query : Query) (ctx : FieldCtx) (floor : Option ℕ) : List (ScoredPosting F) :=
  match e.leaf query ctx with
  | some (x, postings, own) =>
    e.foldHits ctx (e.scoreTermInto postings x ((floor.map fun floor => max own floor).getD own))
  | none => []

/-- The scores of a leaf, added up over the fields. -/
def scoreLeaf (query : Query) (ctxs : List FieldCtx) (minDocFreqs : List (Option ℕ)) :
    List (ScoredPosting F) :=
  addUp (ctxs.zipIdx.flatMap fun ctx => e.leafHits query ctx.1 (minDocFreqs[ctx.2]?).join)

/-- The documents with the phrase in some field of documents. -/
def phraseDocs (terms : List PhraseTerm) (ctxs : List FieldCtx) : Finset DocId :=
  ((ctxs.filter fun ctx => !ctx.rowKeyed).flatMap fun ctx => (e.executePhrase terms ctx.xpath).ids).toFinset

/-- The postings of some documents. -/
def postingsOf (list : PostingList) (docs : Finset DocId) : PostingList :=
  list.retain fun p => p.docId ∈ docs

/-- Where the phrase stands, its words score one by one. -/
def scorePhraseAsWords (terms : List PhraseTerm) (ctxs : List FieldCtx) : List (ScoredPosting F) :=
  let matched := e.phraseDocs terms ctxs
  addUp ((ctxs.filter fun ctx => !ctx.rowKeyed).flatMap fun ctx => terms.flatMap fun term =>
    let (list, docFreq) := e.fetchTermList term.text ctx.xpath
    e.scoreTermInto (postingsOf list matched) ctx.xpath docFreq)

/-- The documents of one field that have every word, or a word it may be changed into. -/
def executeFuzzy (raw : String) (ctx : FieldCtx) (fuzziness : Fuzziness) (spec : FuzzySpec) : Finset DocId :=
  meetIds ((e.fuzzyWords raw).map fun word =>
    ((e.expansions word ctx.xpath fuzziness spec).flatMap fun expansion =>
      (e.index.lookup expansion.term ctx.xpath).ids).toFinset)

def maxFuzzyWords : ℕ := 64

/-- In a field the best of the words that a word may be changed into. -/
def bestInField (word : String) (ctx : FieldCtx) (fuzziness : Fuzziness) (spec : FuzzySpec) :
    List (ScoredPosting F) :=
  bestOf ((e.expansions word ctx.xpath fuzziness spec).flatMap fun expansion =>
    e.foldHits ctx ((e.scoreTermInto (e.index.lookup expansion.term ctx.xpath) ctx.xpath expansion.docFreq).map
      fun hit => { hit with score := e.fl.decayed hit.score expansion.edits }))

/-- A word's best match in a field, added to what its document has so far. -/
def addFuzzyMatch (wordIndex : ℕ) (acc : SortedMap DocId (ScoredPosting F × Finset ℕ))
    (scored : ScoredPosting F) : SortedMap DocId (ScoredPosting F × Finset ℕ) :=
  acc.upsert scored.docId fun old =>
    match old with
    | some (hit, mask) =>
      ({ hit with
          density := if hit.score < scored.score then e.fl.greatest hit.density scored.density else hit.density
          score := satAdd hit.score scored.score
          matchedTerms := if wordIndex ∈ mask then hit.matchedTerms else hit.matchedTerms + 1 },
        insert wordIndex mask)
    | none => (scored, {wordIndex})

/-- The documents that have every word, in whichever fields. -/
def executeScoredFuzzy (raw : String) (ctxs : List FieldCtx) (fuzziness : Fuzziness) (spec : FuzzySpec) :
    List (ScoredPosting F) :=
  let words := e.fuzzyWords raw
  if words = [] ∨ maxFuzzyWords ≤ words.length then []
  else
    let acc := words.zipIdx.foldl (fun acc word => ctxs.foldl (fun acc ctx =>
      (e.bestInField word.1 ctx fuzziness spec).foldl (e.addFuzzyMatch word.2) acc) acc) SortedMap.empty
    (intoValues acc).filterMap fun entry => if entry.2 = Finset.range words.length then some entry.1 else none

/-! ### Evaluation -/

/-- A leaf in either mode. -/
def evalLeaf (query : Query) (ctxs : List FieldCtx) (mode : EvalMode) : EvalOutcome F :=
  match mode with
  | .filter => .docs ((ctxs.flatMap fun ctx =>
      ((e.leaf query ctx).map fun leaf => leaf.2.1.ids).getD []).toFinset)
  | .rank => .scored (e.scoreLeaf query ctxs [])

/-- The document frequency of the typed word in each field, the lowest the other words of its group
are scored with. -/
def typedDocFreqs (forms : List (Query × ℕ)) (ctxs : List FieldCtx) : List (Option ℕ) :=
  match forms with
  | (.term v, _) :: _ => ctxs.map fun ctx =>
      ((e.leaf (.term v) ctx).map fun leaf => leaf.2.2).filter fun docFreq => 0 < docFreq
  | _ => []

/-- The scores in thousandths of the weight. -/
def weightedHits (weight : ℕ) (outcome : EvalOutcome F) : List (ScoredPosting F) :=
  outcome.hits.map fun hit => { hit with score := satMul hit.score weight / 1000 }

/-- Any of the parts. -/
def unionOf (mode : EvalMode) (outcomes : List (EvalOutcome F)) : EvalOutcome F :=
  match mode with
  | .filter => .docs (outcomes.foldr (fun outcome ids => outcome.ids ∪ ids) ∅)
  | .rank => .scored (addUp (outcomes.flatMap EvalOutcome.hits))

/-- All ids of a range, whether there is a document or not. -/
def idsBetween (range : Option (DocId × DocId)) : Finset DocId :=
  match range with
  | some (lo, hi) => Finset.Icc lo hi
  | none => ∅

mutual

/-- What a query finds; `none` when the evaluation panics. -/
def evaluate (ctxs : List FieldCtx) (mode : EvalMode) : Query → Option (EvalOutcome F)
  | .term v => some (e.evalLeaf (.term v) ctxs mode)
  | .prefixed v => some (e.evalLeaf (.prefixed v) ctxs mode)
  | .wildcard p => some (e.evalLeaf (.wildcard p) ctxs mode)
  | .phrase terms => some (e.evalLeaf (.phrase terms) ctxs mode)
  | .exactly v => some (e.evalLeaf (.exactly v) ctxs mode)
  | .fuzzy raw fuzziness spec =>
    match mode with
    | .filter => some (.docs (ctxs.toFinset.biUnion fun ctx => e.executeFuzzy raw ctx fuzziness spec))
    | .rank => some (.scored (e.executeScoredFuzzy raw ctxs fuzziness spec))
  | .range lo hi => some (.docs (ctxs.toFinset.biUnion fun ctx =>
      postingIds (e.index.numericRange ctx.xpath lo hi)))
  | .bool value => some (.docs (ctxs.toFinset.biUnion fun ctx =>
      if value then e.index.boolTrueIds ctx.xpath else e.index.boolFalseIds ctx.xpath))
  | .wand parts => (evaluateEach ctxs mode parts).map (unionOf mode)
  | .or parts => (evaluateEach ctxs mode parts).map (unionOf mode)
  | .and parts =>
    match mode with
    | .filter => (evaluateEach ctxs .filter parts).map fun outcomes => .docs (meetIds (outcomes.map EvalOutcome.ids))
    | .rank =>
      match scoreEach ctxs parts with
      | none => none
      | some none => some (.scored [])
      -- without parts there is no smallest part to start from
      | some (some []) => none
      | some (some (part :: parts)) => some (.scored (scoreAnd (part :: parts)))
  | .synonym forms =>
    match mode with
    | .filter => (evaluateForms ctxs .filter [] forms).map fun outcomes =>
        .docs (outcomes.foldr (fun outcome ids => outcome.2.ids ∪ ids) ∅)
    | .rank => (evaluateForms ctxs .rank (e.typedDocFreqs forms ctxs) forms).map fun outcomes =>
        .scored (bestOf (outcomes.flatMap fun outcome => weightedHits outcome.1 outcome.2))
  | .sameElement _ => some (.docs ∅)
  | .matchAll => some (.docs ((idsBetween e.index.docRange).filter fun id => !e.index.isDeleted id))

def evaluateEach (ctxs : List FieldCtx) (mode : EvalMode) : List Query → Option (List (EvalOutcome F))
  | [] => some []
  | part :: parts => (evaluate ctxs mode part).bind fun outcome =>
      (evaluateEach ctxs mode parts).map fun outcomes => outcome :: outcomes

/-- The hits of each part, or `some none` from the first part without any. -/
def scoreEach (ctxs : List FieldCtx) : List Query → Option (Option (List (List (ScoredPosting F))))
  | [] => some (some [])
  | part :: parts =>
    match evaluate ctxs .rank part with
    | none => none
    | some outcome =>
      if outcome.hits = [] then some none
      else (scoreEach ctxs parts).map fun scored => scored.map fun scored => outcome.hits :: scored

def evaluateForms (ctxs : List FieldCtx) (mode : EvalMode) (typed : List (Option ℕ)) :
    List (Query × ℕ) → Option (List (ℕ × EvalOutcome F))
  | [] => some []
  | (form, weight) :: forms =>
    let outcome : Option (EvalOutcome F) :=
      match mode, form with
      | .rank, .term v => some (.scored (e.scoreLeaf (.term v) ctxs typed))
      | .rank, .phrase terms => some (.scored (e.scorePhraseAsWords terms ctxs))
      | _, _ => evaluate ctxs mode form
    outcome.bind fun outcome => (evaluateForms ctxs mode typed forms).map fun outcomes =>
      (weight, outcome) :: outcomes

end

end QueryExecutor

end Executor

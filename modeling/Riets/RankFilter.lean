/-
Filtering and ranking find the same documents.

A filter works on sets of ids, a ranking on hits whose scores are added up, or of which the best
form of a group is taken.  In the fields of documents a query of texts (`Query.Worded`) finds the
same ids either way; numbers, booleans and match-all rank nothing, and the words of a fuzzy text
may be spread over the fields only when it is ranked.
-/
import Riets.QueryAnalysis
import Riets.QueryMeaning

open List

def PostingList.Positioned (list : PostingList) : Prop := ∀ p ∈ list.items, p.positions ≠ []

structure SearchIndex.Positioned (index : SearchIndex) : Prop where
  lookup : ∀ v x, (index.lookup v x).Positioned
  lookupPrefix : ∀ v x, (index.lookupPrefix v x).Positioned
  lookupWildcard : ∀ p x, (index.lookupWildcard p x).Positioned

mutual

def Query.Worded : Query → Prop
  | .term _ | .prefixed _ | .wildcard _ | .phrase _ | .exactly _ => True
  | .wand parts | .or parts => WordedEach parts
  | .and parts => parts ≠ [] ∧ WordedEach parts
  | .synonym forms => WordedForms forms
  | _ => False

def WordedEach : List Query → Prop
  | [] => True
  | part :: parts => part.Worded ∧ WordedEach parts

def WordedForms : List (Query × ℕ) → Prop
  | [] => True
  | (form, _) :: forms => form.Worded ∧ WordedForms forms

end

section Hits

open QueryExecutor

variable {F : Type} {join : ScoredPosting F → ScoredPosting F → ScoredPosting F} {d : DocId}

theorem mem_scoredIds {hits : List (ScoredPosting F)} : d ∈ scoredIds hits ↔ ∃ hit ∈ hits, hit.docId = d := by
  rw [scoredIds, mem_toFinset, mem_map]

theorem mem_scoredIds_flatMap {α : Type} {f : α → List (ScoredPosting F)} {l : List α} :
    d ∈ scoredIds (l.flatMap f) ↔ ∃ a ∈ l, d ∈ scoredIds (f a) := by
  simp only [mem_scoredIds, mem_flatMap]
  exact ⟨fun ⟨hit, ⟨a, ha, hhit⟩, hd⟩ => ⟨a, ha, hit, hhit, hd⟩, fun ⟨a, ha, hit, hhit, hd⟩ => ⟨hit, ⟨a, ha, hhit⟩, hd⟩⟩

theorem scoredIds_flatMap {α : Type} {f : α → List (ScoredPosting F)} {l : List α} :
    scoredIds (l.flatMap f) = l.foldr (fun a acc => scoredIds (f a) ∪ acc) ∅ := by
  ext d
  rw [mem_foldr_union, mem_scoredIds_flatMap]

variable (hjoin : ∀ cur hit, cur.docId = hit.docId → (join cur hit).docId = hit.docId)
include hjoin in
theorem docId_of_gatherHits {hits : List (ScoredPosting F)} {hit : ScoredPosting F}
    (h : (gatherHits join hits).get? d = some hit) : hit.docId = d := by
  refine SortedMap.foldl_upsert_induction (P := fun d hit => hit.docId = d) (by simp) (fun a _ o ho => ?_) h
  cases o with
  | none => rfl
  | some cur => exact hjoin cur a (ho cur rfl)

include hjoin in
theorem distinct_gatherHits (hits : List (ScoredPosting F)) :
    (intoValues (gatherHits join hits)).Pairwise fun a b => a.docId ≠ b.docId := by
  rw [intoValues, pairwise_map]
  refine (gatherHits join hits).ascending.imp_of_mem fun {a b} ha hb hlt => ?_
  have hkey : ∀ x ∈ (gatherHits join hits).entries, x.2.docId = x.1 :=
    fun x hx => docId_of_gatherHits hjoin (SortedMap.mem_entries.mp hx)
  rw [hkey a ha, hkey b hb]
  exact ne_of_lt hlt

include hjoin in
theorem scoredIds_gatherHits (hits : List (ScoredPosting F)) :
    scoredIds (intoValues (gatherHits join hits)) = scoredIds hits := by
  have hfold : ∀ (l : List (ScoredPosting F)) (o : Option (ScoredPosting F)),
      l.foldl (fun o hit => some ((o.map fun cur => join cur hit).getD hit)) o ≠ none ↔ o ≠ none ∨ l ≠ [] := by
    intro l
    induction l with
    | nil => simp
    | cons hit l ih =>
      intro o
      rw [foldl_cons, ih]
      simp
  have hsome : ∀ d, (gatherHits join hits).get? d ≠ none ↔ ∃ hit ∈ hits, hit.docId = d := by
    intro d
    rw [gatherHits, SortedMap.get?_foldl_upsert, hfold]
    simp [SortedMap.get?_empty, filter_eq_nil_iff]
  ext d
  rw [mem_scoredIds, mem_scoredIds, ← hsome, Option.ne_none_iff_exists']
  constructor
  · rintro ⟨hit, hhit, hdoc⟩
    obtain ⟨d', hd'⟩ := mem_intoValues.mp hhit
    exact ⟨hit, hdoc ▸ docId_of_gatherHits hjoin hd' ▸ hd'⟩
  · rintro ⟨hit, hd⟩
    exact ⟨hit, mem_intoValues.mpr ⟨d, hd⟩, docId_of_gatherHits hjoin hd⟩

theorem docId_better {cur hit : ScoredPosting F} (h : cur.docId = hit.docId) : (cur.better hit).docId = hit.docId := by
  rw [ScoredPosting.better]
  split_ifs
  · rfl
  · exact h

theorem scoredIds_addUp (hits : List (ScoredPosting F)) : scoredIds (addUp hits) = scoredIds hits := by
  refine scoredIds_gatherHits (fun cur hit h => ?_) hits
  exact h

theorem scoredIds_bestOf (hits : List (ScoredPosting F)) : scoredIds (bestOf hits) = scoredIds hits :=
  scoredIds_gatherHits (fun _ _ h => docId_better h) hits

theorem distinct_addUp (hits : List (ScoredPosting F)) : (addUp hits).Pairwise fun a b => a.docId ≠ b.docId := by
  refine distinct_gatherHits (fun cur hit h => ?_) hits
  exact h

theorem distinct_bestOf (hits : List (ScoredPosting F)) : (bestOf hits).Pairwise fun a b => a.docId ≠ b.docId :=
  distinct_gatherHits (fun _ _ h => docId_better h) hits

theorem mem_scoreAnd {parts : List (List (ScoredPosting F))} :
    d ∈ scoredIds (scoreAnd parts) ↔ parts ≠ [] ∧ ∀ part ∈ parts, d ∈ scoredIds part := by
  have hperm : (Keyed.sortBy length parts).Perm parts := Keyed.perm_sortBy parts
  have hmeet : d ∈ meetIds ((Keyed.sortBy length parts).map scoredIds) ↔
      parts ≠ [] ∧ ∀ part ∈ parts, d ∈ scoredIds part := by
    rw [mem_meetIds, ne_eq, map_eq_nil_iff, ← length_eq_zero_iff, hperm.length_eq, length_eq_zero_iff]
    simp only [forall_mem_map, hperm.mem_iff]
  rw [scoreAnd, scoredIds_addUp, mem_scoredIds, ← hmeet]
  constructor
  · rintro ⟨hit, hhit, rfl⟩
    simpa using (mem_filter.mp hhit).2
  · intro h
    obtain ⟨hne, hall⟩ := hmeet.mp h
    obtain ⟨part, hpart⟩ := exists_mem_of_ne_nil _ hne
    obtain ⟨hit, hhit, rfl⟩ := mem_scoredIds.mp (hall part hpart)
    exact ⟨hit, mem_filter.mpr ⟨mem_flatten.mpr ⟨part, hperm.mem_iff.mpr hpart, hhit⟩, decide_eq_true h⟩, rfl⟩

end Hits

namespace PostingList

theorem positioned_new : Positioned new := by
  intro p hp
  cases hp

theorem positioned_fromItems {items : List Posting} (h : ∀ p ∈ items, p.positions ≠ []) :
    (fromItems items).Positioned := by
  intro p hp
  have hfind : Keyed.foldRun Posting.absorb (items.filter fun q => q.docId = p.docId) = some p := by
    rw [← find_fromItems]
    exact (Keyed.mem_iff_find (fromItems items).ascending).mp hp
  have hpositions : ∀ (l : List Posting) (q : Posting), q.positions ≠ [] → (l.foldl Posting.absorb q).positions ≠ [] := by
    intro l
    induction l with
    | nil => exact fun q hq => hq
    | cons r l ih =>
      intro q hq
      refine ih _ ?_
      obtain ⟨x, hx⟩ := exists_mem_of_ne_nil _ hq
      exact ne_nil_of_mem (mem_sortDedup.mpr (mem_append_left _ hx))
  cases hitems : items.filter fun q => q.docId = p.docId with
  | nil => simp [hitems, Keyed.foldRun] at hfind
  | cons q l =>
    rw [hitems, Keyed.foldRun, Option.some_inj] at hfind
    rw [← hfind]
    exact hpositions l q (h q (mem_of_mem_filter (hitems ▸ mem_cons_self)))

end PostingList

theorem LeafKey.exists_word {positions : String → Option (List ℕ)} {terms : List PhraseTerm}
    (h : (LeafKey.phrase terms).foundIn positions = true) : ∃ term ∈ terms, positions term.text ≠ none := by
  cases terms with
  | nil => cases h
  | cons term terms =>
    refine ⟨term, mem_cons_self, fun hnone => ?_⟩
    rw [foundIn, mapM_cons, hnone] at h
    cases h

namespace QueryExecutor

open PostingList

variable {F : Type} {e : QueryExecutor F} {ctxs : List FieldCtx} {d : DocId}

theorem positioned_fetchLeaf (hpos : e.index.Positioned) (key : LeafKey) (x : XPathId) : (e.fetchLeaf key x).Positioned := by
  cases key with
  | term v =>
    rw [fetchLeaf]
    split_ifs
    · exact positioned_new
    · exact hpos.lookup v x
  | prefixed v =>
    rw [fetchLeaf]
    split_ifs
    · exact positioned_new
    · exact hpos.lookupPrefix v x
  | wildcard p => exact hpos.lookupWildcard p x
  | phrase terms =>
    rw [fetchLeaf, executePhrase]
    split_ifs
    · exact positioned_new
    · split
      · exact positioned_new
      · refine positioned_fromItems fun p hp => ?_
        obtain ⟨driver, -, hsome⟩ := mem_filterMap.mp hp
        split at hsome
        case h_1 first rest _ =>
          split_ifs at hsome with hmatch
          obtain rfl := Option.some_inj.mp hsome
          rintro (hnil : first.positions = [])
          rw [map_cons, hnil] at hmatch
          cases hmatch
        case h_2 => cases hsome
  | exactly v =>
    rw [fetchLeaf, executeExact]
    split
    · exact hpos.lookup _ x
    · exact positioned_new

theorem scoredIds_scoreTermInto {postings : PostingList} (h : postings.Positioned) (x : XPathId) (docFreq : ℕ) :
    scoredIds (e.scoreTermInto postings x docFreq) = postings.ids.toFinset := by
  have hall : postings.items.filter (fun p => p.positions ≠ []) = postings.items :=
    filter_eq_self.mpr fun p hp => decide_eq_true (h p hp)
  rw [scoreTermInto, hall, scoredIds, map_map]
  rfl

theorem foldHits_plain {ctx : FieldCtx} (hctx : ctx.rowKeyed = false) (hits : List (ScoredPosting F)) :
    e.foldHits ctx hits = hits := by
  simp [foldHits, foldToDoc, hctx]

/-- Nothing is prepared, and the fields are those of the documents themselves. -/
structure Plain (e : QueryExecutor F) (ctxs : List FieldCtx) : Prop where
  positioned : e.index.Positioned
  prepared : e.prepared = fun _ _ => none
  documents : ∀ ctx ∈ ctxs, ctx.rowKeyed = false

/-- Both modes find the same documents, and the ranking has each of them once. -/
def Agrees (e : QueryExecutor F) (ctxs : List FieldCtx) (query : Query) : Prop :=
  ∃ hits, e.evaluate ctxs .rank query = some (.scored hits) ∧ (hits.Pairwise fun a b => a.docId ≠ b.docId) ∧
    e.evaluate ctxs .filter query = some (.docs (scoredIds hits))

theorem scoredIds_leafHits (h : e.Plain ctxs) (query : Query) {ctx : FieldCtx} (hctx : ctx ∈ ctxs) (floor : Option ℕ) :
    scoredIds (e.leafHits query ctx floor) = (((e.leaf query ctx).map fun leaf => leaf.2.1.ids).getD []).toFinset := by
  rw [leafHits, leaf]
  cases leafKey query ctx with
  | none => rfl
  | some kx =>
    show scoredIds (e.foldHits ctx _) = ((e.prepared kx.2 kx.1).getD (e.fetchLeaf kx.1 kx.2)).ids.toFinset
    rw [foldHits_plain (h.documents ctx hctx), h.prepared]
    exact scoredIds_scoreTermInto (positioned_fetchLeaf h.positioned kx.1 kx.2) _ _

theorem evalLeaf_filter (h : e.Plain ctxs) (query : Query) (floors : List (Option ℕ)) :
    e.evalLeaf query ctxs .filter = .docs (scoredIds (e.scoreLeaf query ctxs floors)) := by
  rw [evalLeaf, scoreLeaf, scoredIds_addUp]
  congr 1
  ext d
  have hfields : ∀ {P : FieldCtx → Prop}, (∃ ctx ∈ ctxs.zipIdx, P ctx.1) ↔ ∃ ctx ∈ ctxs, P ctx := by
    intro P
    conv_rhs => rw [← zipIdx_map_fst 0 ctxs]
    simp only [mem_map, exists_exists_and_eq_and]
  rw [mem_scoredIds_flatMap, mem_toFinset, mem_flatMap, ← hfields]
  refine exists_congr fun ctx => and_congr_right fun hctx => ?_
  rw [scoredIds_leafHits h query (fst_mem_of_mem_zipIdx hctx), mem_toFinset]

/-- The words of a phrase, scored one by one, are scored where the phrase is found. -/
theorem evalLeaf_phrase (h : e.Plain ctxs) (terms : List PhraseTerm) :
    e.evalLeaf (.phrase terms) ctxs .filter = .docs (scoredIds (e.scorePhraseAsWords terms ctxs)) := by
  have hall : (ctxs.filter fun ctx => !ctx.rowKeyed) = ctxs :=
    filter_eq_self.mpr fun ctx hctx => by rw [h.documents ctx hctx]; rfl
  have hlists : ∀ term x, (e.fetchTermList term x).1 = e.index.lookup term x := by
    intro term x
    rw [fetchTermList, h.prepared]
    rfl
  have hfilter : e.evalLeaf (.phrase terms) ctxs .filter = .docs (e.phraseDocs terms ctxs) := by
    rw [evalLeaf, phraseDocs, hall]
    simp only [leaf, leafKey, h.prepared]
    rfl
  rw [hfilter, scorePhraseAsWords, scoredIds_addUp, hall]
  congr 1
  ext d
  have hscored : ∀ term x, d ∈ scoredIds (e.scoreTermInto (postingsOf (e.fetchTermList term x).1 (e.phraseDocs terms ctxs))
      x (e.fetchTermList term x).2) ↔ (e.index.lookup term x).find d ≠ none ∧ d ∈ e.phraseDocs terms ctxs := by
    intro term x
    rw [hlists, scoredIds_scoreTermInto fun p hp => h.positioned.lookup term x p (mem_of_mem_filter hp), mem_toFinset, mem_ids,
      postingsOf, find_retain]
    cases hfind : (e.index.lookup term x).find d with
    | none => simp
    | some p => simp [Option.filter, find_docId hfind]
  simp only [mem_scoredIds_flatMap, hscored]
  constructor
  · intro hd
    obtain ⟨ctx, hctx, hphrase⟩ := mem_flatMap.mp (mem_toFinset.mp hd)
    obtain ⟨term, hterm, hfind⟩ := LeafKey.exists_word ((mem_executePhrase h.prepared terms ctx.xpath d).mp hphrase)
    exact ⟨ctx, hall ▸ hctx, term, hterm, fun hnone => hfind (by rw [hnone]; rfl), hd⟩
  · rintro ⟨ctx, -, term, -, -, hd⟩
    exact hd

mutual

theorem agrees_evaluate (hplain : e.Plain ctxs) : ∀ query : Query, query.Worded → e.Agrees ctxs query := by
  intro query h
  match query with
  | .term v | .prefixed v | .wildcard v | .phrase v | .exactly v =>
    exact ⟨_, by rw [evaluate]; rfl, distinct_addUp _, by rw [evaluate, evalLeaf_filter hplain _ []]; rfl⟩
  | .wand parts | .or parts =>
    rw [Query.Worded] at h
    obtain ⟨hits, -, hrank, hfilter, -⟩ := agrees_evaluateEach hplain parts h
    refine ⟨_, by rw [evaluate, hrank]; rfl, distinct_addUp _, ?_⟩
    rw [evaluate, hfilter, scoredIds_addUp, flatMap_map, scoredIds_flatMap]
    simp [unionOf, EvalOutcome.ids, EvalOutcome.hits, foldr_map]
  | .and parts =>
    rw [Query.Worded] at h
    obtain ⟨hits, hlen, -, hfilter, hscore⟩ := agrees_evaluateEach hplain parts h.2
    have hids : e.evaluate ctxs .filter (.and parts) = some (.docs (meetIds (hits.map scoredIds))) := by
      rw [evaluate, hfilter, Option.map_some, map_map]
      rfl
    have hmeet : ∀ {d}, d ∈ meetIds (hits.map scoredIds) ↔ hits ≠ [] ∧ ∀ hit ∈ hits, d ∈ scoredIds hit := by
      intro d
      rw [mem_meetIds, ne_eq, map_eq_nil_iff, forall_mem_map]
    rw [Agrees, hids, evaluate, hscore]
    cases hany : hits.any isEmpty with
    | true =>
      -- a part without hits: neither mode finds anything
      obtain ⟨hit, hhit, hnone⟩ := any_eq_true.mp hany
      refine ⟨[], rfl, .nil, ?_⟩
      congr 2
      show _ = (∅ : Finset DocId)
      rw [Finset.eq_empty_iff_forall_notMem]
      intro d hd
      obtain ⟨p, hp, -⟩ := mem_scoredIds.mp ((hmeet.mp hd).2 hit hhit)
      rw [isEmpty_iff.mp hnone] at hp
      cases hp
    | false =>
      obtain ⟨hit, rest, rfl⟩ := exists_cons_of_ne_nil fun hnil => h.1 (hlen.mp hnil)
      refine ⟨_, rfl, distinct_addUp _, ?_⟩
      congr 2
      ext d
      rw [hmeet, mem_scoreAnd]
  | .synonym forms =>
    rw [Query.Worded] at h
    obtain ⟨hits, hrank, hfilter⟩ := agrees_evaluateForms hplain (e.typedDocFreqs forms ctxs) forms h
    refine ⟨_, by rw [evaluate, hrank]; rfl, distinct_bestOf _, ?_⟩
    have hweighted : ∀ weight hits, scoredIds (weightedHits weight (.scored hits : EvalOutcome F)) = scoredIds hits := by
      intro weight hits
      rw [weightedHits, scoredIds, map_map]
      rfl
    rw [evaluate, hfilter, scoredIds_bestOf, flatMap_map, scoredIds_flatMap]
    simp [EvalOutcome.ids, hweighted, foldr_map]
  | .fuzzy raw fuzziness spec | .range lo hi | .bool value | .sameElement children | .matchAll =>
    simp only [Query.Worded] at h

theorem agrees_evaluateEach (hplain : e.Plain ctxs) : ∀ parts : List Query, WordedEach parts →
      ∃ hits : List (List (ScoredPosting F)), (hits = [] ↔ parts = []) ∧
        e.evaluateEach ctxs .rank parts = some (hits.map .scored) ∧
        e.evaluateEach ctxs .filter parts = some (hits.map fun hits => .docs (scoredIds hits)) ∧
        e.scoreEach ctxs parts = some (if hits.any isEmpty then none else some hits) := by
  intro parts h
  match parts with
  | [] => exact ⟨[], by simp, by rw [evaluateEach]; rfl, by rw [evaluateEach]; rfl, by rw [scoreEach]; rfl⟩
  | part :: parts =>
    obtain ⟨hit, hrank, -, hfilter⟩ := agrees_evaluate hplain part h.1
    obtain ⟨hits, -, hranks, hfilters, hscores⟩ := agrees_evaluateEach hplain parts h.2
    refine ⟨hit :: hits, by simp, by rw [evaluateEach, hrank, hranks]; rfl,
      by rw [evaluateEach, hfilter, hfilters]; rfl, ?_⟩
    rw [scoreEach, hrank, hscores, any_cons]
    cases hit with
    | nil => rfl
    | cons first rest =>
      show ((some (if hits.any isEmpty then none else some hits)).map _) = _
      cases hits.any isEmpty <;> rfl

theorem agrees_evaluateForms (hplain : e.Plain ctxs) (typed : List (Option ℕ)) : ∀ forms : List (Query × ℕ),
      WordedForms forms → ∃ hits : List (ℕ × List (ScoredPosting F)),
        e.evaluateForms ctxs .rank typed forms = some (hits.map fun hit => (hit.1, .scored hit.2)) ∧
        e.evaluateForms ctxs .filter [] forms = some (hits.map fun hit => (hit.1, .docs (scoredIds hit.2))) := by
  intro forms h
  match forms with
  | [] => exact ⟨[], by rw [evaluateForms]; rfl, by rw [evaluateForms]; rfl⟩
  | (form, weight) :: forms =>
    obtain ⟨hits, hranks, hfilters⟩ := agrees_evaluateForms hplain typed forms h.2
    obtain ⟨hit, hrank, hfilter⟩ : ∃ hit, e.evaluateForms ctxs .rank typed ((form, weight) :: forms) =
        some ((weight, .scored hit) :: hits.map fun hit => (hit.1, .scored hit.2)) ∧
          e.evaluate ctxs .filter form = some (.docs (scoredIds hit)) := by
      match form with
      -- words and phrases of a group are scored in a way of their own
      | .term v => exact ⟨_, by simp [evaluateForms, hranks]; rfl, by rw [evaluate, evalLeaf_filter hplain _ typed]⟩
      | .phrase terms => exact ⟨_, by simp [evaluateForms, hranks]; rfl, by rw [evaluate, evalLeaf_phrase hplain]⟩
      | .prefixed v | .wildcard v | .exactly v | .wand v | .or v | .and v | .synonym v =>
        obtain ⟨hit, hrank, -, hfilter⟩ := agrees_evaluate hplain _ h.1
        exact ⟨hit, by simp [evaluateForms, hrank, hranks], hfilter⟩
      | .fuzzy raw fuzziness spec | .range lo hi | .bool value | .sameElement children | .matchAll =>
        exact absurd h.1 (by simp only [Query.Worded, not_false_eq_true])
    exact ⟨(weight, hit) :: hits, hrank, by simp [evaluateForms, hfilter, hfilters]⟩

end

/-- In the fields of documents a query of texts ranks what a filter with it finds, each document
once, and the reported total is the number of those ranked documents that are shown. -/
theorem ranked_filtered (hplain : e.Plain ctxs) {query : Query} (h : query.Worded) :
    ∃ hits, e.evaluate ctxs .rank query = some (.scored hits) ∧ (hits.Pairwise fun a b => a.docId ≠ b.docId) ∧
      e.evaluate ctxs .filter query = some (.docs (scoredIds hits)) ∧
      ∀ restrict, e.totalHitCount (some query) ctxs restrict =
        some (hits.filter fun hit => !e.index.isDeleted hit.docId && allows restrict hit.docId).length := by
  obtain ⟨hits, hrank, honce, hfilter⟩ := agrees_evaluate hplain query h
  refine ⟨hits, hrank, honce, hfilter, fun restrict => ?_⟩
  have hnodup : (hits.map ScoredPosting.docId).Nodup := pairwise_map.mpr honce
  show (e.evaluate ctxs .filter query).map _ = _
  rw [hfilter, Option.map_some]
  show some ((hits.map ScoredPosting.docId).toFinset.filter _).card = _
  rw [← toFinset_filter, toFinset_card_of_nodup (hnodup.filter _), filter_map, length_map]
  rfl

end QueryExecutor

theorem QueryExecutor.ranked_filtered_redWine :
    let query := Query.and [.term "red", .or [.term "wine", .prefixed "a"]]
    ∃ hits, (counting SearchIndex.redWine).evaluate [⟨1, none, false⟩] .rank query = some (.scored hits) ∧
      (counting SearchIndex.redWine).evaluate [⟨1, none, false⟩] .filter query = some (.docs (scoredIds hits)) := by
  have hplain : (counting SearchIndex.redWine).Plain [⟨1, none, false⟩] := by
    refine ⟨⟨fun v x => ?_, fun v x => PostingList.positioned_new, fun p x => PostingList.positioned_new⟩, rfl, by simp⟩
    show (if v = "red" ∨ v = "wine" then _ else _ : PostingList).Positioned
    split_ifs
    · intro p hp
      obtain rfl := mem_singleton.mp hp
      exact cons_ne_nil _ _
    · exact PostingList.positioned_new
  obtain ⟨hits, hrank, -, hfilter, -⟩ := ranked_filtered hplain
    (by simp [Query.Worded, WordedEach] : (Query.and [.term "red", .or [.term "wine", .prefixed "a"]]).Worded)
  exact ⟨hits, hrank, hfilter⟩

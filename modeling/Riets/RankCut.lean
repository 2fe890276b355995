/-
Rankings that are cut before they are added up.

The walk over the plain fields returns its `k` best documents only; what the other
fields find is added to them, and the sums are cut to the `k` best again.
-/
import Riets.RankRetrieve

open QueryExecutor Keyed

/-- Scores are not negative, so adding one to another does not lower it, and rounding keeps the order. -/
structure HitFloat.Additive {F : Type} [LinearOrder F] (fl : HitFloat F) : Prop where
  le_add : ∀ a b, b ≤ fl.add a b
  add_mono : ∀ a b c, a ≤ b → fl.add a c ≤ fl.add b c

namespace SearchHit

variable {F : Type} {fl : HitFloat F}

theorem docId_foldl (hits : List (SearchHit F)) (e : SearchHit F) :
    (hits.foldl (combine fl) e).docId = e.docId := by
  induction hits generalizing e with
  | nil => rfl
  | cons hit hits ih => exact ih (e.combine fl hit)

theorem tier_foldl (hits : List (SearchHit F)) (e : SearchHit F) :
    (hits.foldl (combine fl) e).tier = e.tier ∧ (hits.foldl (combine fl) e).level = e.level := by
  induction hits generalizing e with
  | nil => exact ⟨rfl, rfl⟩
  | cons hit hits ih => exact ih (e.combine fl hit)

theorem matchedTerms_foldl (hits : List (SearchHit F)) (e : SearchHit F) :
    (hits.foldl (combine fl) e).matchedTerms = e.matchedTerms + (hits.map matchedTerms).sum := by
  induction hits generalizing e with
  | nil => rfl
  | cons hit hits ih =>
    rw [List.foldl_cons, ih, List.map_cons, List.sum_cons, ← Nat.add_assoc]
    rfl

theorem score_foldl_mono [LinearOrder F] (h : fl.Additive) (hits : List (SearchHit F)) {a b : SearchHit F}
    (hab : a.score ≤ b.score) :
    (hits.foldl (combine fl) a).score ≤ (hits.foldl (combine fl) b).score := by
  induction hits generalizing a b with
  | nil => exact hab
  | cons hit hits ih => exact ih (h.add_mono a.score b.score hit.score hab)

theorem rank_le_of_score [LinearOrder F] {a b : SearchHit F} (htier : a.tier = b.tier)
    (hlevel : a.level = b.level) (hdoc : a.docId = b.docId) (hscore : b.score ≤ a.score) :
    a.rank ≤ b.rank := by
  rw [rank, rank, htier, hlevel, hdoc]
  refine Prod.Lex.toLex_le_toLex.mpr (.inr ⟨rfl, Prod.Lex.toLex_le_toLex.mpr (.inr ⟨rfl, ?_⟩)⟩)
  refine Prod.Lex.toLex_le_toLex.mpr ?_
  rcases hscore.lt_or_eq with hlt | heq
  · exact .inl (OrderDual.toDual_lt_toDual.mpr hlt)
  · exact .inr ⟨congrArg OrderDual.toDual heq.symm, le_rfl⟩

end SearchHit

/-! ### The hits of a walk with the hits of the other fields -/

section Cut

variable {F : Type} (fl : HitFloat F)

/-- The walked hits, with the others added to them. -/
def addedUp (walked : List WandHit) (rows : List (SearchHit F)) : List (SearchHit F) :=
  intoValues (mergeHits fl (mergeHits fl SortedMap.empty (walked.map (wandHitToSearchHit fl))) rows)

/-- The walk cut to the best `k`, then the other hits added and all of it cut again. -/
def cutRanking [LinearOrder F] (walked : List WandHit) (rows : List (SearchHit F)) (k : ℕ) :
    List (SearchHit F) :=
  topKFromHits (addedUp fl (TopK.best WandHit.rank k walked) rows) k

/-- A walked hit with what the others add to its document. -/
def withRows (rows : List (SearchHit F)) (w : WandHit) : SearchHit F :=
  (rows.filter fun hit => hit.docId = w.docId).foldl (SearchHit.combine fl) (wandHitToSearchHit fl w)

/-- No document was walked twice. -/
def WalkedOnce (walked : List WandHit) : Prop := walked.Pairwise fun a b => a.docId ≠ b.docId

variable {fl} {walked : List WandHit} {rows : List (SearchHit F)}

theorem WalkedOnce.rank_ne (h : WalkedOnce walked) : walked.Pairwise fun a b => a.rank ≠ b.rank :=
  h.imp fun hne heq => hne (congrArg (fun r => (ofLex r).2) heq)

theorem WalkedOnce.best (h : WalkedOnce walked) (k : ℕ) : WalkedOnce (TopK.best WandHit.rank k walked) :=
  (((perm_sortBy walked).pairwise_iff fun hab => hab.symm).mpr h).sublist (List.take_sublist k _)

theorem docId_withRows (w : WandHit) : (withRows fl rows w).docId = w.docId :=
  SearchHit.docId_foldl _ _

theorem get?_walked (h : WalkedOnce walked) {w : WandHit} (hw : w ∈ walked) :
    (mergeHits fl SortedMap.empty (walked.map (wandHitToSearchHit fl))).get? w.docId =
      some (wandHitToSearchHit fl w) := by
  rw [get?_mergeHits, List.filter_map]
  have hone : walked.filter ((fun hit : SearchHit F => decide (hit.docId = w.docId)) ∘ wandHitToSearchHit fl) =
      [w] := filter_key_eq h hw
  rw [hone]
  rfl

theorem get?_not_walked {d : DocId} (hd : ∀ w ∈ walked, w.docId ≠ d) :
    (mergeHits fl SortedMap.empty (walked.map (wandHitToSearchHit fl))).get? d = none := by
  rw [get?_mergeHits, List.filter_map]
  have hnone : walked.filter ((fun hit : SearchHit F => decide (hit.docId = d)) ∘ wandHitToSearchHit fl) =
      [] := by
    rw [List.filter_eq_nil_iff]
    intro w hw
    rw [Function.comp_apply, decide_eq_true_eq]
    exact hd w hw
  rw [hnone]
  rfl

variable {hit : SearchHit F}

theorem docId_of_joinHits {d : DocId}
    (h : joinHits fl none (rows.filter fun row => row.docId = d) = some hit) : hit.docId = d := by
  have hmem : ∀ row ∈ rows.filter (fun row => row.docId = d), row.docId = d := fun row hrow =>
    of_decide_eq_true (List.mem_filter.mp hrow).2
  generalize rows.filter (fun row => row.docId = d) = added at h hmem
  cases added with
  | nil => exact absurd h (by simp [joinHits])
  | cons first added =>
    have hsum : joinHits fl (some first) added = some hit := h
    rw [joinHits_some] at hsum
    obtain rfl := Option.some_inj.mp hsum
    rw [SearchHit.docId_foldl]
    exact hmem first List.mem_cons_self

theorem mem_addedUp (h : WalkedOnce walked) : hit ∈ addedUp fl walked rows ↔
    (∃ w ∈ walked, withRows fl rows w = hit) ∨
      ∃ d, (∀ w ∈ walked, w.docId ≠ d) ∧ joinHits fl none (rows.filter fun row => row.docId = d) = some hit := by
  have hwalked : ∀ w ∈ walked, (mergeHits fl (mergeHits fl SortedMap.empty
      (walked.map (wandHitToSearchHit fl))) rows).get? w.docId = some (withRows fl rows w) := by
    intro w hw
    rw [get?_mergeHits, get?_walked h hw, joinHits_some]
    rfl
  rw [addedUp, mem_intoValues]
  constructor
  · rintro ⟨d, hd⟩
    by_cases hany : ∃ w ∈ walked, w.docId = d
    · obtain ⟨w, hw, rfl⟩ := hany
      exact .inl ⟨w, hw, Option.some_inj.mp ((hwalked w hw).symm.trans hd)⟩
    · have hnot : ∀ w ∈ walked, w.docId ≠ d := fun w hw heq => hany ⟨w, hw, heq⟩
      rw [get?_mergeHits, get?_not_walked hnot] at hd
      exact .inr ⟨d, hnot, hd⟩
  · rintro (⟨w, hw, rfl⟩ | ⟨d, hnot, hd⟩)
    · exact ⟨w.docId, hwalked w hw⟩
    · refine ⟨d, ?_⟩
      rw [get?_mergeHits, get?_not_walked hnot, hd]

theorem distinctDocs_addedUp (walked : List WandHit) (rows : List (SearchHit F)) :
    DistinctDocs (addedUp fl walked rows) :=
  ((FiledByDoc.empty.mergeHits fl _).mergeHits fl rows).distinctDocs

theorem withRows_of_joinHits [LinearOrder F] (hfl : fl.Additive) (hrows : ∀ row ∈ rows, row.tier = 0 ∧ row.level = 0)
    {w : WandHit} (hw : 0 < w.matchedTerms)
    (hhit : joinHits fl none (rows.filter fun row => row.docId = w.docId) = some hit) :
    (withRows fl rows w).rank ≤ hit.rank ∧ hit.matchedTerms < (withRows fl rows w).matchedTerms := by
  have hmem : ∀ row ∈ rows.filter (fun row => row.docId = w.docId),
      row.docId = w.docId ∧ row.tier = 0 ∧ row.level = 0 := by
    intro row hrow
    obtain ⟨hrow, hdoc⟩ := List.mem_filter.mp hrow
    exact ⟨of_decide_eq_true hdoc, hrows row hrow⟩
  rw [withRows]
  generalize rows.filter (fun row => row.docId = w.docId) = added at hhit hmem
  cases added with
  | nil => exact absurd hhit (by simp [joinHits])
  | cons first added =>
    obtain ⟨hdoc, htier, hlevel⟩ := hmem first List.mem_cons_self
    have hsum : joinHits fl (some first) added = some hit := hhit
    rw [joinHits_some] at hsum
    obtain rfl := Option.some_inj.mp hsum
    rw [List.foldl_cons]
    obtain ⟨htier', hlevel'⟩ := SearchHit.tier_foldl added first
    obtain ⟨htier'', hlevel''⟩ := SearchHit.tier_foldl added ((wandHitToSearchHit fl w).combine fl first)
    refine ⟨SearchHit.rank_le_of_score ?_ ?_ ?_ ?_, ?_⟩
    · rw [htier', htier'', htier]
      rfl
    · rw [hlevel', hlevel'', hlevel]
      rfl
    · rw [SearchHit.docId_foldl, SearchHit.docId_foldl, hdoc]
      rfl
    · exact SearchHit.score_foldl_mono hfl added (hfl.le_add _ _)
    · rw [SearchHit.matchedTerms_foldl, SearchHit.matchedTerms_foldl]
      have hfirst : ((wandHitToSearchHit fl w).combine fl first).matchedTerms =
          w.matchedTerms + first.matchedTerms := rfl
      omega

theorem mem_addedUp_best (h : WalkedOnce walked) {k : ℕ} (hk : walked.length ≤ k) :
    hit ∈ addedUp fl (TopK.best WandHit.rank k walked) rows ↔ hit ∈ addedUp fl walked rows := by
  rw [mem_addedUp h, mem_addedUp (h.best k)]
  simp only [TopK.mem_best hk]

variable [LinearOrder F]

theorem cutRanking_eq_best (h : WalkedOnce walked) {k : ℕ} (hk : walked.length ≤ k) :
    cutRanking fl walked rows k = TopK.best SearchHit.rank k (addedUp fl walked rows) := by
  rw [cutRanking, topKFromHits_eq (distinctDocs_addedUp _ _)]
  exact TopK.best_congr (distinctDocs_addedUp _ _).rank_ne (distinctDocs_addedUp _ _).rank_ne
    (fun hit => (mem_addedUp_best h hk).symm) k

theorem cutRanking_eq_best_of_place (hfl : fl.Additive) (h : WalkedOnce walked)
    (hmatched : ∀ w ∈ walked, 0 < w.matchedTerms) (hrows : ∀ row ∈ rows, row.tier = 0 ∧ row.level = 0)
    (hplace : ∀ w ∈ walked, TopK.place WandHit.rank walked w ≤
      TopK.place SearchHit.rank (addedUp fl walked rows) (withRows fl rows w)) (k : ℕ) :
    cutRanking fl walked rows k = TopK.best SearchHit.rank k (addedUp fl walked rows) := by
  have hall := (@distinctDocs_addedUp _ fl walked rows).rank_ne
  have hbest := TopK.Best.of_best hall k
  rw [cutRanking, topKFromHits_eq (distinctDocs_addedUp _ _)]
  refine TopK.best_eq_of_best hall (distinctDocs_addedUp _ _).rank_ne ⟨?_, hbest.sorted, hbest.length_le, ?_⟩
  · intro hit hhit
    obtain ⟨hmem, hlt⟩ := (TopK.mem_best_iff hall).mp (List.mem_reverse.mp hhit)
    refine (mem_addedUp (h.best k)).mpr ?_
    rcases (mem_addedUp h).mp hmem with ⟨w, hw, rfl⟩ | ⟨d, hnot, hd⟩
    · -- its place in the walk is no later, so the cut keeps it
      exact .inl ⟨w, (TopK.mem_best_iff h.rank_ne).mpr ⟨hw, (hplace w hw).trans_lt hlt⟩, rfl⟩
    · exact .inr ⟨d, fun w hw => hnot w (TopK.mem_of_mem_best hw), hd⟩
  · intro hit hhit hout
    rcases (mem_addedUp (h.best k)).mp hhit with ⟨w, hw, rfl⟩ | ⟨d, hnot, hd⟩
    · exact hbest.rest _ ((mem_addedUp h).mpr (.inl ⟨w, TopK.mem_of_mem_best hw, rfl⟩)) hout
    · by_cases hany : ∃ w ∈ walked, w.docId = d
      · obtain ⟨w, hw, rfl⟩ := hany
        obtain ⟨hle, -⟩ := withRows_of_joinHits hfl hrows (hmatched w hw) hd
        have hcut : k ≤ TopK.place WandHit.rank walked w := by
          by_contra hlt
          exact hnot w ((TopK.mem_best_iff h.rank_ne).mpr ⟨hw, not_le.mp hlt⟩) rfl
        have hrest := hbest.rest (withRows fl rows w) ((mem_addedUp h).mpr (.inl ⟨w, hw, rfl⟩)) fun hin => by
          have hlt := ((TopK.mem_best_iff hall).mp (List.mem_reverse.mp hin)).2
          exact absurd (hcut.trans (hplace w hw)) (not_le.mpr hlt)
        exact ⟨hrest.1, fun b hb => (hrest.2 b hb).trans_le hle⟩
      · exact hbest.rest hit ((mem_addedUp h).mpr (.inr ⟨d, fun w hw heq => hany ⟨w, hw, heq⟩, hd⟩)) hout

theorem cutRanking_iff (hfl : fl.Additive) (h : WalkedOnce walked)
    (hmatched : ∀ w ∈ walked, 0 < w.matchedTerms) (hrows : ∀ row ∈ rows, row.tier = 0 ∧ row.level = 0) :
    (∀ k k', 0 < k → k ≤ k' → cutRanking fl walked rows k = (cutRanking fl walked rows k').take k) ↔
      ∀ w ∈ walked, TopK.place WandHit.rank walked w ≤
        TopK.place SearchHit.rank (addedUp fl walked rows) (withRows fl rows w) := by
  constructor
  · intro hstarts w hw
    by_contra hlt
    rw [not_le] at hlt
    -- cut to its place among all, the walk leaves the document out
    let k := TopK.place SearchHit.rank (addedUp fl walked rows) (withRows fl rows w) + 1
    have hwhole := hstarts k (max k walked.length) (Nat.succ_pos _) (le_max_left _ _)
    rw [cutRanking_eq_best h (le_max_right _ _), TopK.take_best (le_max_left _ _), cutRanking,
      topKFromHits_eq (distinctDocs_addedUp _ _)] at hwhole
    have hin : withRows fl rows w ∈ TopK.best SearchHit.rank k (addedUp fl walked rows) :=
      (TopK.mem_best_iff (distinctDocs_addedUp _ _).rank_ne).mpr
        ⟨(mem_addedUp h).mpr (.inl ⟨w, hw, rfl⟩), Nat.lt_succ_self _⟩
    rw [← hwhole] at hin
    rcases (mem_addedUp (h.best k)).mp (TopK.mem_of_mem_best hin) with ⟨w', hw', heq⟩ | ⟨d, -, hd⟩
    · have hdoc : w'.docId = w.docId := by
        rw [← docId_withRows w', heq, docId_withRows]
      obtain ⟨hw'', hbefore⟩ := (TopK.mem_best_iff h.rank_ne).mp hw'
      have hone := filter_key_eq h hw
      have hself : w' ∈ walked.filter fun v => v.docId = w.docId :=
        List.mem_filter.mpr ⟨hw'', decide_eq_true hdoc⟩
      rw [hone, List.mem_singleton] at hself
      subst hself
      omega
    · have hdoc : d = w.docId := by
        rw [← docId_withRows w]
        exact (docId_of_joinHits hd).symm
      subst hdoc
      exact absurd (withRows_of_joinHits hfl hrows (hmatched w hw) hd).2 (lt_irrefl _)
  · intro hplace k k' _ hk
    rw [cutRanking_eq_best_of_place hfl h hmatched hrows hplace,
      cutRanking_eq_best_of_place hfl h hmatched hrows hplace, TopK.take_best hk]

end Cut

/-! ### What the walks of a query find -/

/-- What the walks rely on: the lists of the index and the prepared ones bound the weights of their
postings, no document frequency exceeds the number of documents of its field, and for such a frequency
`bm25_upper_bound`, which does not cut it to that number, bounds `bm25_score_scaled`, which does. -/
structure QueryExecutor.ScoresBounded {F : Type} (e : QueryExecutor F) : Prop where
  lookup : ∀ term x, (e.index.lookup term x).WeightsOk
  prepared : ∀ x key, ∀ list ∈ e.prepared x key, PostingList.WeightsOk list
  lookupPrefix : ∀ term x, (e.index.lookupPrefix term x).WeightsOk
  lookupWildcard : ∀ pattern x, (e.index.lookupWildcard pattern x).WeightsOk
  termFreq_le : ∀ term x, (e.fetchTermList term x).2 ≤ e.stats.docCount x
  leafFreq_le : ∀ query ctx, ∀ leaf ∈ e.leaf query ctx, leaf.2.2 ≤ e.stats.docCount leaf.1
  score_le : ∀ tf weight len avgLen docCount docFreq maxWeight, docFreq ≤ docCount → weight ≤ maxWeight →
    e.bm.scoreScaled tf weight len avgLen docCount docFreq ≤ e.bm.upperBound maxWeight docCount docFreq

namespace QueryExecutor

open Option List PostingList

variable {F : Type} (e : QueryExecutor F)

/-- All hits of the walk over words. -/
def termHits (query : Query) (xpaths : List XPathId) (restrict : Option (Finset DocId)) :
    Option (List WandHit) :=
  match additiveTerms query with
  | some terms =>
      let fields := e.fetchFieldTerms terms xpaths
      some ((candidates e.bm e.stats fields restrict).map fun d =>
        hitOf d ((pairsOn e.bm e.stats fields d).map Prod.fst))
  | none => (conjunctiveTerms query).map fun terms =>
      let fields := e.fetchFieldTerms terms xpaths
      (conjunctiveDocs e.bm e.stats fields restrict).map fun d =>
        sumHit d ↑(fields.filterMap fun field => termScores e.bm e.stats field d)

/-- The documents the walk over any of the clauses is about: of a few allowed documents all that are on
a clause, else those on a clause with a positive bound. -/
def askedDocs (fields : List FieldClauses) (restrict : Option (Finset DocId)) : List DocId :=
  match restrict.filter fun docs => docs.card ≤ directRestrictMax with
  | some docs => docs.ascending.filter fun d => clausesOn e.bm e.stats fields d ≠ []
  | none => boundedDocs e.bm e.stats fields restrict

/-- All hits of the walk over clauses. -/
def groupedHits (query : Query) (ctxs : List FieldCtx) (restrict : Option (Finset DocId))
    (crossFields : Bool) : Option (List WandHit) :=
  (groupedParts query (!crossFields)).map fun parts =>
    let fields := e.groupedFields parts.2 ctxs crossFields
    if parts.1 then
      (conjunctiveClauseDocs e.bm e.stats fields restrict).map fun d =>
        sumHit d ↑(fields.filterMap fun field => clauseScores e.bm e.stats field d)
    else (e.askedDocs fields restrict).map (clauseHit e.bm e.stats fields)

/-- All hits of the walk over the plain fields. -/
def plainHits (query : Query) (ctxs : List FieldCtx) (restrict : Option (Finset DocId)) :
    Option (List WandHit) :=
  let plain := ctxs.filter fun ctx => !ctx.rowKeyed
  if plain = [] then none
  else (e.termHits query (plain.map FieldCtx.xpath) restrict).or (e.groupedHits query plain restrict false)

variable {e}

theorem weightsOk_fetchLeaf (h : e.ScoresBounded) (key : LeafKey) (x : XPathId) : (e.fetchLeaf key x).WeightsOk := by
  cases key with
  | term v =>
    rw [fetchLeaf]
    split_ifs
    · exact weightsOk_new
    · exact h.lookup v x
  | prefixed v =>
    rw [fetchLeaf]
    split_ifs
    · exact weightsOk_new
    · exact h.lookupPrefix v x
  | wildcard pattern => exact h.lookupWildcard pattern x
  | phrase terms =>
    rw [fetchLeaf, executePhrase]
    split_ifs
    · exact weightsOk_new
    · split
      · exact weightsOk_new
      · exact weightsOk_fromItems _
  | exactly v =>
    rw [fetchLeaf, executeExact]
    split
    · exact h.lookup _ x
    · exact weightsOk_new

theorem weightsOk_getD {o : Option PostingList} {list : PostingList} (ho : ∀ l ∈ o, WeightsOk l)
    (hlist : list.WeightsOk) : (o.getD list).WeightsOk := by
  cases o with
  | none => exact hlist
  | some l => exact ho l rfl

theorem weightsOk_fetchTermList (h : e.ScoresBounded) (term : String) (x : XPathId) :
    (e.fetchTermList term x).1.WeightsOk :=
  weightsOk_getD (h.prepared x (.term term)) (h.lookup term x)

variable {query : Query} {ctx : FieldCtx}

theorem weightsOk_leaf (h : e.ScoresBounded) {leaf : XPathId × PostingList × ℕ}
    (hleaf : e.leaf query ctx = some leaf) : leaf.2.1.WeightsOk := by
  rw [QueryExecutor.leaf, map_eq_some_iff] at hleaf
  obtain ⟨kx, -, rfl⟩ := hleaf
  exact weightsOk_getD (h.prepared kx.2 kx.1) (weightsOk_fetchLeaf h kx.1 kx.2)

theorem score_le_termRef (h : e.ScoresBounded) {fetched : PostingList × ℕ} (hweights : fetched.1.WeightsOk)
    {x : XPathId} (hfreq : fetched.2 ≤ e.stats.docCount x) {p : Posting}
    (hp : p ∈ (termRef fetched).postings.items) :
    e.bm.score e.stats x (termRef fetched).docFreq p ≤
      e.bm.upperBound (termRef fetched).maxWeight (e.stats.docCount x) (termRef fetched).docFreq :=
  h.score_le _ _ _ _ _ _ _ hfreq (hweights p hp)

theorem bounded_fetchFieldTerms (h : e.ScoresBounded) (terms : List String) (xpaths : List XPathId) :
    Bounded e.bm e.stats (e.fetchFieldTerms terms xpaths) := by
  intro field hfield term hterm p hp
  obtain ⟨x, -, rfl⟩ := mem_map.mp hfield
  obtain ⟨text, -, rfl⟩ := mem_map.mp hterm
  exact score_le_termRef h (weightsOk_fetchTermList h text x) (h.termFreq_le text x) hp

variable {weight field : ℕ}

theorem bounded_leafForm (h : e.ScoresBounded) {floor : Option ℕ}
    (hfloor : ∀ n ∈ floor, ∀ leaf ∈ e.leaf query ctx, n ≤ e.stats.docCount leaf.1)
    {form : FormRef} (hform : e.leafForm query ctx floor weight field = some form) :
    form.Bounded e.bm e.stats := by
  obtain ⟨leaf, hleaf, rfl⟩ := map_eq_some_iff.mp hform
  intro list hlist p hp
  obtain rfl := mem_singleton.mp hlist
  have hown := h.leafFreq_le query ctx leaf hleaf
  have hfreq : (floor.map fun floor => max leaf.2.2 floor).getD leaf.2.2 ≤ e.stats.docCount leaf.1 := by
    cases floor with
    | none => exact hown
    | some n => exact max_le hown (hfloor n rfl leaf hleaf)
  exact @score_le_termRef _ _ h
    (leaf.2.1, (floor.map fun floor => max leaf.2.2 floor).getD leaf.2.2) (weightsOk_leaf h hleaf) _ hfreq p hp

theorem leaf_term_xpath {v : String} {leaf : XPathId × PostingList × ℕ} (hleaf : e.leaf (.term v) ctx = some leaf) :
    leaf.1 = ctx.xpath := by
  obtain ⟨kx, hkx, rfl⟩ := map_eq_some_iff.mp hleaf
  obtain rfl := some_inj.mp hkx
  rfl

/-- The typed word is read from the same field as the words it is the floor of. -/
theorem typedFloor_le (h : e.ScoresBounded) {forms : List (Query × ℕ)} {n : ℕ}
    (hfloor : e.typedFloor forms ctx = some n) : n ≤ e.stats.docCount ctx.xpath := by
  unfold typedFloor at hfloor
  split at hfloor
  · obtain ⟨hn, -⟩ := filter_eq_some_iff.mp hfloor
    obtain ⟨leaf, hleaf, rfl⟩ := map_eq_some_iff.mp hn
    exact (h.leafFreq_le _ ctx leaf hleaf).trans_eq (congrArg e.stats.docCount (leaf_term_xpath hleaf))
  · cases hfloor

theorem bounded_groupForm (h : e.ScoresBounded) {floor : Option ℕ} (hfits : formFits query = true)
    (hfloor : ∀ n ∈ floor, n ≤ e.stats.docCount ctx.xpath)
    {form : FormRef} (hform : e.groupForm query ctx floor weight field = some form) :
    form.Bounded e.bm e.stats := by
  cases query with
  | term v =>
    refine bounded_leafForm h (fun n hn leaf hleaf => ?_) hform
    rw [leaf_term_xpath hleaf]
    exact hfloor n hn
  | exactly v => exact bounded_leafForm h (by simp) hform
  | phrase terms =>
    rw [groupForm, phraseForm, map_eq_some_iff] at hform
    obtain ⟨leaf, -, rfl⟩ := hform
    intro list hlist p hp
    obtain ⟨term, -, rfl⟩ := mem_map.mp hlist
    exact @score_le_termRef _ _ h
      (postingsOf (e.fetchTermList term.text ctx.xpath).1 _, (e.fetchTermList term.text ctx.xpath).2)
      ((weightsOk_fetchTermList h term.text ctx.xpath).retain _) _ (h.termFreq_le term.text ctx.xpath) p hp
  | and words =>
    rw [groupForm, wordsForm, map_eq_some_iff] at hform
    obtain ⟨leaves, hleaves, rfl⟩ := hform
    intro list hlist p hp
    obtain ⟨leaf, hleaf, rfl⟩ := mem_map.mp hlist
    obtain ⟨word, hmem, hword⟩ := exists_of_mem_mapM hleaves hleaf
    have hterm : word.asTerm.isSome = true := all_eq_true.mp hfits word hmem
    cases word with
    | term v =>
      exact score_le_termRef h (weightsOk_leaf h hword) ((h.leafFreq_le _ ctx leaf hword).trans_eq
        (congrArg e.stats.docCount (leaf_term_xpath hword))) hp
    | _ => exact absurd hterm (by simp [Query.asTerm])
  | _ => exact absurd hform (by simp [groupForm])

theorem bounded_clauseForms (h : e.ScoresBounded) {part : Query} (hfits : partFits part = true) {form : FormRef}
    (hform : form ∈ e.clauseForms part ctx field) : form.Bounded e.bm e.stats := by
  rw [clauseForms.eq_def] at hform
  split at hform
  · obtain ⟨f, hf, hform⟩ := mem_filterMap.mp hform
    refine bounded_groupForm h (all_eq_true.mp hfits f.1 (fst_mem_of_mem_zipIdx hf)) (fun n hn => ?_) hform
    split_ifs at hn with hfirst
    · cases hn
    · exact typedFloor_le h hn
  · exact bounded_leafForm h (by simp) (mem_toList.mp hform)

theorem bounded_groupedFields (h : e.ScoresBounded) {parts : List Query} (hfits : parts.all partFits = true)
    (ctxs : List FieldCtx) (crossFields : Bool) :
    ClausesBounded e.bm e.stats (e.groupedFields parts ctxs crossFields) := by
  intro field hfield forms hforms form hform
  rw [groupedFields] at hfield
  split_ifs at hfield
  · obtain rfl := mem_singleton.mp hfield
    obtain ⟨part, hpart, rfl⟩ := mem_map.mp hforms
    obtain ⟨ctx, -, hform⟩ := mem_flatMap.mp hform
    exact bounded_clauseForms h (all_eq_true.mp hfits part hpart) hform
  · obtain ⟨ctx, -, rfl⟩ := mem_map.mp hfield
    obtain ⟨part, hpart, rfl⟩ := mem_map.mp hforms
    exact bounded_clauseForms h (all_eq_true.mp hfits part hpart) hform

theorem partFits_of_groupedParts {needsGroup : Bool} {parts : Bool × List Query}
    (hparts : groupedParts query needsGroup = some parts) : parts.2.all partFits = true := by
  obtain ⟨-, hfits⟩ := filter_eq_some_iff.mp hparts
  exact (Bool.and_eq_true_iff.mp hfits).1

variable {k : ℕ}

theorem executeTopKRetrieval_eq (h : e.ScoresBounded) (query : Query) (xpaths : List XPathId) (hk : 0 < k)
    (restrict : Option (Finset DocId)) : e.executeTopKRetrieval query xpaths k restrict =
      (e.termHits query xpaths restrict).map fun hits => some (TopK.best WandHit.rank k hits) := by
  rw [executeTopKRetrieval, termHits]
  cases additiveTerms query with
  | some terms =>
    exact congrArg (fun hits => some (some hits))
      (wandTopKMultiField_eq (bounded_fetchFieldTerms h terms xpaths) hk restrict).2
  | none =>
    simp only [Option.map_map]
    exact congrArg (fun f => Option.map f _) (funext fun terms => conjunctiveTopKMultiField_eq _ hk restrict)

theorem executeGroupedRetrieval_eq (h : e.ScoresBounded) (query : Query) (ctxs : List FieldCtx)
    (hk : 0 < k) (restrict : Option (Finset DocId)) (crossFields : Bool) :
    e.executeGroupedRetrieval query ctxs k restrict crossFields none =
      (e.groupedHits query ctxs restrict crossFields).map fun hits => some (TopK.best WandHit.rank k hits) := by
  rw [executeGroupedRetrieval, groupedHits, Option.map_map]
  refine map_congr fun parts hparts => ?_
  have hbound := bounded_groupedFields h (partFits_of_groupedParts hparts) ctxs crossFields
  simp only [Function.comp_apply]
  split_ifs with hall
  · exact conjunctiveTopKGrouped_eq _ hk restrict
  · rw [wandTopKGrouped, if_neg hk.ne', askedDocs]
    cases restrict.filter fun docs => docs.card ≤ directRestrictMax with
    | some docs => exact congrArg some (directTopK_eq hbound hk docs)
    | none => exact congrArg some (pivotTopK_eq hbound hk restrict).2

theorem flatHits_eq (h : e.ScoresBounded) (query : Query) (ctxs : List FieldCtx) (hk : 0 < k)
    (restrict : Option (Finset DocId)) : e.flatHits query ctxs k restrict =
      (e.plainHits query ctxs restrict).map fun hits => some (TopK.best WandHit.rank k hits) := by
  rw [flatHits, plainHits]
  split_ifs with hplain
  · rfl
  · rw [executeTopKRetrieval_eq h query _ hk, executeGroupedRetrieval_eq h query _ hk]
    cases e.termHits query _ restrict <;> rfl

/-! ### The hits of a walk -/

/-- The hits of a walk: allowed documents, each once and with something that matched. -/
structure WalkOk (restrict : Option (Finset DocId)) (hits : List WandHit) : Prop where
  once : WalkedOnce hits
  matched : ∀ w ∈ hits, 0 < w.matchedTerms
  allowed : ∀ w ∈ hits, allows restrict w.docId = true

variable {restrict : Option (Finset DocId)}

theorem WalkOk.map {docs : List DocId} {hit : DocId → WandHit}
    (hnodup : docs.Nodup) (hdoc : ∀ d, (hit d).docId = d) (hmatched : ∀ d ∈ docs, 0 < (hit d).matchedTerms)
    (hallowed : ∀ d ∈ docs, allows restrict d = true) : WalkOk restrict (docs.map hit) where
  once := by
    refine pairwise_map.mpr (hnodup.imp fun hne heq => hne ?_)
    rwa [hdoc, hdoc] at heq
  matched := by
    intro w hw
    obtain ⟨d, hd, rfl⟩ := mem_map.mp hw
    exact hmatched d hd
  allowed := by
    intro w hw
    obtain ⟨d, hd, rfl⟩ := mem_map.mp hw
    rw [hdoc]
    exact hallowed d hd

theorem mapM_ne_nil {α β : Type} {f : α → Option β} {l : List α} (hl : l ≠ []) {bs : List β}
    (h : l.mapM f = some bs) : bs ≠ [] := by
  obtain ⟨a, l, rfl⟩ := exists_cons_of_ne_nil hl
  rw [mapM_cons] at h
  obtain ⟨b, -, h⟩ := bind_eq_some_iff.mp h
  obtain ⟨bs', -, h⟩ := bind_eq_some_iff.mp h
  obtain rfl : b :: bs' = bs := some_inj.mp h
  exact cons_ne_nil b bs'

theorem matchedTerms_sumHit_pos {d : DocId} {scores : List (List ℕ)} (hne : scores ≠ [])
    (hpos : ∀ l ∈ scores, l ≠ []) : 0 < (sumHit d ↑scores).matchedTerms := by
  obtain ⟨l, hl⟩ := exists_mem_of_ne_nil scores hne
  have hle : l.length ≤ (scores.map length).sum :=
    single_le_sum (fun _ _ => Nat.zero_le _) _ (mem_map_of_mem hl)
  have hlength := length_pos_iff.mpr (hpos l hl)
  have hsum : (sumHit d ↑scores).matchedTerms = (scores.map length).sum := by
    rw [sumHit, Multiset.map_coe, Multiset.map_coe, Multiset.sum_coe, Multiset.sum_coe]
  omega

variable {hits : List WandHit}

theorem walkOk_termHits {xpaths : List XPathId}
    (h : e.termHits query xpaths restrict = some hits) : WalkOk restrict hits := by
  rw [termHits] at h
  split at h
  · obtain rfl := some_inj.mp h
    refine WalkOk.map ((nodup_docsOf _).filter _) (fun _ => rfl) (fun d hd => ?_) fun d hd => (mem_candidates.mp hd).1
    obtain ⟨-, w, hw, -⟩ := mem_candidates.mp hd
    exact (length_pos_of_mem hw).trans_eq (length_map _).symm
  · obtain ⟨terms, -, rfl⟩ := map_eq_some_iff.mp h
    refine WalkOk.map ((nodup_docsOf _).filter _) (fun _ => rfl) (fun d hd => ?_)
      fun d hd => (mem_conjunctiveDocs.mp hd).1
    refine matchedTerms_sumHit_pos (mem_conjunctiveDocs.mp hd).2 fun scores hscores => ?_
    obtain ⟨field, -, hfield⟩ := mem_filterMap.mp hscores
    rw [termScores, ite_none_left_eq_some] at hfield
    exact mapM_ne_nil hfield.1 hfield.2

theorem askedDocs_ok (fields : List FieldClauses) (restrict : Option (Finset DocId)) :
    (e.askedDocs fields restrict).Nodup ∧ ∀ d ∈ e.askedDocs fields restrict,
      clausesOn e.bm e.stats fields d ≠ [] ∧ allows restrict d = true := by
  rw [askedDocs]
  cases hfew : restrict.filter fun docs => docs.card ≤ directRestrictMax with
  | some docs =>
    obtain rfl := (filter_eq_some_iff.mp hfew).1
    have hnodup : docs.ascending.Nodup := (Finset.pairwise_ascending docs).imp fun hab => ne_of_lt hab
    refine ⟨hnodup.filter _, fun d hd => ?_⟩
    obtain ⟨hd, hon⟩ := mem_filter.mp hd
    exact ⟨of_decide_eq_true hon, decide_eq_true (Finset.mem_ascending.mp hd)⟩
  | none =>
    refine ⟨nodup_boundedDocs fields restrict, fun d hd => ?_⟩
    obtain ⟨hallowed, w, hw, -⟩ := mem_boundedDocs.mp hd
    exact ⟨ne_nil_of_mem hw, hallowed⟩

variable {ctxs : List FieldCtx}

theorem walkOk_groupedHits {crossFields : Bool} (h : e.groupedHits query ctxs restrict crossFields = some hits) :
    WalkOk restrict hits := by
  obtain ⟨parts, -, rfl⟩ := map_eq_some_iff.mp h
  split_ifs with hall
  · refine WalkOk.map ((nodup_clauseDocs _).filter _) (fun _ => rfl) (fun d hd => ?_)
      fun d hd => (mem_conjunctiveClauseDocs.mp hd).1
    refine matchedTerms_sumHit_pos (mem_conjunctiveClauseDocs.mp hd).2 fun scores hscores => ?_
    obtain ⟨field, -, hfield⟩ := mem_filterMap.mp hscores
    rw [clauseScores, ite_none_left_eq_some] at hfield
    exact mapM_ne_nil hfield.1 hfield.2
  · obtain ⟨hnodup, hasked⟩ := askedDocs_ok (e := e) (e.groupedFields parts.2 ctxs crossFields) restrict
    refine WalkOk.map hnodup (fun _ => rfl) (fun d hd => ?_) fun d hd => (hasked d hd).2
    exact (length_pos_iff.mpr (hasked d hd).1).trans_eq (length_map _).symm

theorem walkOk_plainHits (h : e.plainHits query ctxs restrict = some hits) : WalkOk restrict hits := by
  rw [plainHits, ite_none_left_eq_some] at h
  rcases or_eq_some_iff.mp h.2 with h | ⟨-, h⟩
  · exact walkOk_termHits h
  · exact walkOk_groupedHits h

variable (e) in
/-- What the fields add that take no part in the walk. -/
def addedHits (query : Query) (ctxs : List FieldCtx) (restrict : Option (Finset DocId)) :
    Option (List (SearchHit F)) :=
  ((ctxs.filter fun ctx => ctx.rowKeyed || (e.plainHits query ctxs restrict).isNone).mapM fun ctx =>
    e.rankedHits query [ctx] restrict).map List.flatten

theorem tier_rankedHits {hits : List (SearchHit F)} (h : e.rankedHits query ctxs restrict = some hits) :
    ∀ hit ∈ hits, hit.tier = 0 ∧ hit.level = 0 := by
  obtain ⟨outcome, -, rfl⟩ := map_eq_some_iff.mp h
  intro hit hhit
  obtain ⟨p, -, rfl⟩ := mem_map.mp hhit
  exact ⟨rfl, rfl⟩

theorem tier_addedHits {rows : List (SearchHit F)} (h : e.addedHits query ctxs restrict = some rows) :
    ∀ row ∈ rows, row.tier = 0 ∧ row.level = 0 := by
  obtain ⟨lists, hlists, rfl⟩ := map_eq_some_iff.mp h
  intro row hrow
  obtain ⟨hits, hhits, hrow⟩ := mem_flatten.mp hrow
  obtain ⟨ctx, -, hctx⟩ := exists_of_mem_mapM hlists hhits
  exact tier_rankedHits hctx row hrow

theorem mergeHits_append (fl : HitFloat F) (byDoc : SortedMap DocId (SearchHit F)) (hits hits' : List (SearchHit F)) :
    mergeHits fl byDoc (hits ++ hits') = mergeHits fl (mergeHits fl byDoc hits) hits' := foldl_append

theorem rankFields_eq {skip : FieldCtx → Bool}
    (h : ∀ ctx ∈ ctxs, skip ctx = false → ctx.rowKeyed = false →
      e.executeTopKRetrieval query [ctx.xpath] k restrict = none) (byDoc : SortedMap DocId (SearchHit F)) :
    e.rankFields query k restrict skip ctxs byDoc =
      ((ctxs.filter fun ctx => !skip ctx).mapM fun ctx => e.rankedHits query [ctx] restrict).map fun hits =>
        mergeHits e.fl byDoc hits.flatten := by
  induction ctxs generalizing byDoc with
  | nil => rfl
  | cons ctx ctxs ih =>
    have ih := ih fun ctx' hctx' => h ctx' (mem_cons_of_mem ctx hctx')
    rw [rankFields]
    cases hskip : skip ctx with
    | true => rw [if_pos rfl, ih, filter_cons_of_neg (by simp [hskip])]
    | false =>
      rw [if_neg (by simp), filter_cons_of_pos (by simp [hskip]), mapM_cons]
      -- the field takes no walk of its own
      have hfield : e.rankSingleField query ctx k restrict byDoc =
          (e.rankedHits query [ctx] restrict).map (mergeHits e.fl byDoc) := by
        rw [rankSingleField]
        cases hrow : ctx.rowKeyed with
        | true => rfl
        | false => rw [h ctx mem_cons_self hskip hrow]; rfl
      rw [hfield]
      cases e.rankedHits query [ctx] restrict with
      | none => rfl
      | some hits =>
        rw [map_some, bind_some, ih]
        cases (ctxs.filter fun ctx => !skip ctx).mapM fun ctx => e.rankedHits query [ctx] restrict with
        | none => rfl
        | some lists =>
          refine congrArg some ?_
          simp only
          rw [flatten_cons, mergeHits_append]

theorem termHits_eq_none {xpaths xpaths' : List XPathId}
    (h : e.termHits query xpaths restrict = none) : e.termHits query xpaths' restrict = none := by
  rw [termHits] at h ⊢
  cases hadditive : additiveTerms query with
  | some terms => rw [hadditive] at h; exact absurd h (by simp)
  | none =>
    rw [hadditive] at h
    rw [map_eq_none_iff] at h ⊢
    exact h

theorem bestFields_eq [LinearOrder F] (h : e.ScoresBounded) (query : Query) (ctxs : List FieldCtx) (hk : 0 < k)
    (restrict : Option (Finset DocId)) : e.bestFields query ctxs k restrict =
      (e.addedHits query ctxs restrict).map fun rows =>
        cutRanking e.fl ((e.plainHits query ctxs restrict).getD []) rows k := by
  rw [bestFields, flatHits_eq h query ctxs hk, addedHits, Option.map_map]
  cases hplain : e.plainHits query ctxs restrict with
  | some walked =>
    simp only [map_some, bind_some, isNone_some, Bool.or_false, getD_some]
    rw [rankFields_eq (fun ctx _ hskip hrow => absurd hskip (by simp [hrow])), Option.map_map]
    simp only [Bool.not_not]
    rfl
  | none =>
    simp only [map_none, isNone_none, Bool.or_true, getD_none]
    rw [rankFields_eq, Option.map_map]
    · simp only [Bool.not_false]
      refine congrArg (fun f => Option.map f _) (funext fun lists => ?_)
      simp only [Function.comp_apply, cutRanking, addedUp, TopK.best_nil, map_nil]
      rfl
    · intro ctx hctx _ hrow
      have hmem : ctx ∈ ctxs.filter fun ctx => !ctx.rowKeyed := mem_filter.mpr ⟨hctx, by simp [hrow]⟩
      rw [plainHits, if_neg (ne_nil_of_mem hmem), or_eq_none_iff] at hplain
      rw [executeTopKRetrieval_eq h query _ hk, termHits_eq_none hplain.1]
      rfl

end QueryExecutor

/-! ### Asking for more -/

/-- The answer for a number is the beginning of the answer for any greater number. -/
def ConsistentCuts {α : Type} (answer : ℕ → Option (List α)) : Prop :=
  ∀ k k' hits, k ≤ k' → answer k' = some hits → answer k = some (hits.take k)

theorem consistent_of_take {α : Type} {answer : ℕ → Option (List α)} {whole : Option (List α)}
    (hzero : answer 0 = some []) (h : ∀ k, 0 < k → answer k = whole.map (List.take k)) : ConsistentCuts answer := by
  intro k k' hits hk hhits
  rcases Nat.eq_zero_or_pos k with rfl | hpos
  · rw [hzero, List.take_zero]
  · rw [h k' (hpos.trans_le hk)] at hhits
    obtain ⟨all, rfl, rfl⟩ := Option.map_eq_some_iff.mp hhits
    rw [h k hpos, Option.map_some, List.take_take, min_eq_left hk]

namespace QueryExecutor

open Option

variable {F : Type} {e : QueryExecutor F}

variable (e) in
/-- No document of the walk over the plain fields comes to an earlier place when the other fields are
added: as many documents are before it among all as among the walked ones, or more. -/
def KeepsPlaces [LinearOrder F] (query : Query) (ctxs : List FieldCtx) (restrict : Option (Finset DocId)) : Prop :=
  ∀ rows, e.addedHits query ctxs restrict = some rows →
    let walked := (e.plainHits query ctxs restrict).getD []
    ∀ w ∈ walked, TopK.place WandHit.rank walked w ≤
      TopK.place SearchHit.rank (addedUp e.fl walked rows) (withRows e.fl rows w)

/-- A query for any of its words, which both modes rank field by field. -/
def anyWord : Query → Bool
  | .wand _ => true
  | .term _ => true
  | _ => false

theorem walkOk_getD_plainHits (query : Query) (ctxs : List FieldCtx) (restrict : Option (Finset DocId)) :
    WalkOk restrict ((e.plainHits query ctxs restrict).getD []) := by
  cases hplain : e.plainHits query ctxs restrict with
  | some walked => exact walkOk_plainHits hplain
  | none => exact ⟨List.Pairwise.nil, by simp, by simp⟩

variable {answer : ℕ → Option (List (SearchHit F))}

theorem bestFields_consistent_iff [LinearOrder F] (h : e.ScoresBounded) (hfl : e.fl.Additive) (query : Query)
    (ctxs : List FieldCtx) (restrict : Option (Finset DocId))
    (hzero : answer 0 = some []) (hanswer : ∀ k, 0 < k → answer k = e.bestFields query ctxs k restrict) :
    ConsistentCuts answer ↔ e.KeepsPlaces query ctxs restrict := by
  have hwalk := walkOk_getD_plainHits (e := e) query ctxs restrict
  cases hrows : e.addedHits query ctxs restrict with
  | none =>
    -- the ranking panics whatever it is asked for
    refine iff_of_true (@consistent_of_take _ _ none hzero fun k hk => ?_) fun rows hsome => ?_
    · rw [hanswer k hk, bestFields_eq h query ctxs hk, hrows]
      rfl
    · rw [hrows] at hsome
      exact absurd hsome (by simp)
  | some rows =>
    have heq : ∀ k, 0 < k → answer k =
        some (cutRanking e.fl ((e.plainHits query ctxs restrict).getD []) rows k) := by
      intro k hk
      rw [hanswer k hk, bestFields_eq h query ctxs hk, hrows]
      rfl
    have hkeeps : e.KeepsPlaces query ctxs restrict ↔ ∀ k k', 0 < k → k ≤ k' →
        cutRanking e.fl ((e.plainHits query ctxs restrict).getD []) rows k =
          (cutRanking e.fl ((e.plainHits query ctxs restrict).getD []) rows k').take k := by
      rw [cutRanking_iff hfl hwalk.once hwalk.matched (tier_addedHits hrows), KeepsPlaces, hrows]
      simp only [some_inj, forall_eq']
    rw [hkeeps]
    constructor
    · intro hconsistent k k' hpos hk
      have htake := hconsistent k k' _ hk (heq k' (hpos.trans_le hk))
      rw [heq k hpos] at htake
      exact some_inj.mp htake
    · intro htake k k' hits hk hhits
      rcases Nat.eq_zero_or_pos k with rfl | hpos
      · rw [hzero, List.take_zero]
      · rw [heq k' (hpos.trans_le hk)] at hhits
        obtain rfl := some_inj.mp hhits
        rw [heq k hpos, htake k k' hpos hk]

theorem crossFields_of_anyWord [LinearOrder F] {query : Query} (h : anyWord query = true) (ctxs : List FieldCtx)
    (k : ℕ) (restrict : Option (Finset DocId)) :
    e.crossFields query ctxs k restrict = e.bestFields query ctxs k restrict := by
  cases query with
  | wand parts => rfl
  | term v => rfl
  | _ => exact absurd h (by simp [anyWord])

theorem plainHits_matchAll (ctxs : List FieldCtx) (restrict : Option (Finset DocId)) :
    e.plainHits .matchAll ctxs restrict = none := by
  rw [plainHits]
  split_ifs <;> rfl

theorem unranked_eq [LinearOrder F] (docs : Finset DocId) (k : ℕ) : e.unranked docs k =
    TopK.best SearchHit.rank k (docs.ascending.map (SearchHit.ofDoc e.fl)) := by
  refine topKFromHits_eq (List.pairwise_map.mpr ?_) k
  exact (Finset.pairwise_ascending docs).imp fun hab => ne_of_lt hab

theorem crossFields_consistent [LinearOrder F] (h : e.ScoresBounded) {query : Query} (hquery : anyWord query = false)
    (ctxs : List FieldCtx) (restrict : Option (Finset DocId))
    (hzero : answer 0 = some []) (hanswer : ∀ k, 0 < k → answer k = e.crossFields query ctxs k restrict) :
    ConsistentCuts answer := by
  let walked := if ctxs.all fun ctx => !ctx.rowKeyed then e.groupedHits query ctxs restrict true else none
  refine @consistent_of_take _ _ (walked.elim
    ((e.crossFieldHits query ctxs restrict).map (sortBy SearchHit.rank)) fun hits =>
      some ((sortBy WandHit.rank hits).map (wandHitToSearchHit e.fl))) hzero fun k hk => ?_
  have hcross : e.crossFields query ctxs k restrict =
      walked.elim ((e.crossFieldHits query ctxs restrict).map fun hits => topKFromHits hits k) fun hits =>
        some ((TopK.best WandHit.rank k hits).map (wandHitToSearchHit e.fl)) := by
    have hwalked : (if ctxs.all fun ctx => !ctx.rowKeyed then
        e.executeGroupedRetrieval query ctxs k restrict true none else none) =
        walked.map fun hits => some (TopK.best WandHit.rank k hits) := by
      simp only [walked]
      split_ifs
      · exact executeGroupedRetrieval_eq h query ctxs hk restrict true
      · rfl
    rw [crossFields.eq_def]
    split
    · exact absurd hquery (by simp [anyWord])
    · exact absurd hquery (by simp [anyWord])
    · simp only [hwalked]
      cases walked with
      | some hits => rfl
      | none => rfl
  rw [hanswer k hk, hcross]
  cases walked with
  | some hits =>
    exact congrArg some List.map_take
  | none =>
    rw [elim_none, elim_none, crossFieldHits, map_map, map_map, map_map]
    refine congrArg (fun f => Option.map f _) (funext fun hits => ?_)
    exact topKFromHits_eq (FiledByDoc.empty.mergeHits e.fl hits).distinctDocs k

theorem rankRetrieve_of_ne [LinearOrder F] {query : Query} (hquery : query ≠ .matchAll) {k : ℕ}
    {restrict : Option (Finset DocId)} (hguard : ¬(k = 0 ∨ restrict = some ∅ ∨ e.index.docRange = none))
    (ctxs : List FieldCtx) :
    e.rankRetrieve (some query) ctxs k restrict .bestFields = e.bestFields query ctxs k restrict ∧
      e.rankRetrieve (some query) ctxs k restrict .crossFields = e.crossFields query ctxs k restrict := by
  cases query with
  | matchAll => exact absurd rfl hquery
  | _ => exact ⟨if_neg hguard, if_neg hguard⟩

/-- The ranking for a number is the beginning of the ranking for any greater one, exactly when the query
is not ranked field by field or no walked document comes to an earlier place by what the other fields
add. -/
theorem rankRetrieve_take_iff [LinearOrder F] (h : e.ScoresBounded) (hfl : e.fl.Additive) (query : Option Query)
    (ctxs : List FieldCtx) (restrict : Option (Finset DocId)) (mode : MatchMode) :
    ConsistentCuts (fun k => e.rankRetrieve query ctxs k restrict mode) ↔
      (e.index.docRange ≠ none → ∀ q, query = some q → mode = .bestFields ∨ anyWord q = true →
        e.KeepsPlaces q ctxs restrict) := by
  have hzero : e.rankRetrieve query ctxs 0 restrict mode = some [] := if_pos (.inl rfl)
  by_cases hempty : restrict = some ∅ ∨ e.index.docRange = none
  · -- nothing is returned, and nothing is walked
    refine iff_of_true (@consistent_of_take _ _ (some []) hzero fun k _ => ?_) fun hrange q _ _ rows _ w hw => ?_
    · rw [map_some, List.take_nil]
      exact if_pos (.inr hempty)
    · have hallowed := (walkOk_getD_plainHits q ctxs restrict).allowed w hw
      rw [hempty.resolve_right hrange] at hallowed
      exact absurd hallowed (by simp [allows])
  · have hrange : e.index.docRange ≠ none := fun hnone => hempty (.inr hnone)
    have hguard : ∀ k, 0 < k → ¬(k = 0 ∨ restrict = some ∅ ∨ e.index.docRange = none) := by
      rintro k hk (hnone | hnone)
      · exact hk.ne' hnone
      · exact hempty hnone
    cases query with
    | none =>
      refine iff_of_true (@consistent_of_take _ _ (some ((restrict.map fun docs =>
        sortBy SearchHit.rank (docs.ascending.map (SearchHit.ofDoc e.fl))).getD [])) hzero fun k hk => ?_) (by simp)
      refine (if_neg (hguard k hk)).trans (congrArg some ?_)
      cases restrict with
      | none => exact List.take_nil.symm
      | some docs => exact unranked_eq docs k
    | some q =>
      by_cases hall : q = .matchAll
      · subst hall
        refine iff_of_true (@consistent_of_take _ _ (some (sortBy SearchHit.rank
          ((restrict.getD ((idsBetween e.index.docRange).filter fun id => !e.index.isDeleted id)).ascending.map
            (SearchHit.ofDoc e.fl)))) hzero fun k hk => ?_) ?_
        · exact (if_neg (hguard k hk)).trans (congrArg some (unranked_eq _ k))
        · rintro - q hq - rows - walked w hw
          obtain rfl := some_inj.mp hq
          have hnone : walked = [] := congrArg (fun hits => hits.getD []) (plainHits_matchAll ctxs restrict)
          exact absurd (hnone ▸ hw) List.not_mem_nil
      · have hanswer := fun k hk => rankRetrieve_of_ne (e := e) hall (hguard k hk) ctxs
        cases mode with
        | bestFields =>
          rw [bestFields_consistent_iff h hfl q ctxs restrict hzero fun k hk => (hanswer k hk).1]
          simp [hrange]
        | crossFields =>
          cases hany : anyWord q with
          | true =>
            have hboth : ∀ k, 0 < k → e.rankRetrieve (some q) ctxs k restrict .crossFields =
                e.bestFields q ctxs k restrict := by
              intro k hk
              rw [(hanswer k hk).2]
              exact crossFields_of_anyWord hany ctxs k restrict
            rw [bestFields_consistent_iff h hfl q ctxs restrict hzero hboth]
            simp [hrange, hany]
          | false =>
            refine iff_of_true (crossFields_consistent h hany ctxs restrict hzero fun k hk => (hanswer k hk).2) ?_
            simp [hany]

end QueryExecutor

theorem HitFloat.counts_additive : HitFloat.counts.Additive where
  le_add := fun a b => Nat.le_add_left b a
  add_mono := fun _ _ c hab => Nat.add_le_add_right hab c

theorem PostingList.weightsOk_single (p : Posting) : (PostingList.single p).WeightsOk := by
  intro q hq
  obtain rfl := List.mem_singleton.mp hq
  exact le_rfl

/-- Weight times how rare the word is: a word of fewer documents scores higher, and the score cuts the
document frequency to the number of documents where the bound does not. -/
def Bm25.odds : Bm25 ℕ where
  scoreScaled tf weight _ _ docCount docFreq :=
    if tf = 0 ∨ docCount = 0 ∨ docFreq = 0 then 0
    else weight * (1000 * (2 * (docCount - min docFreq docCount) + 1) / (2 * min docFreq docCount + 1))
  upperBound maxWeight docCount docFreq :=
    if docCount = 0 ∨ docFreq = 0 ∨ maxWeight = 0 then 0
    else maxWeight * (1000 * (2 * (docCount - docFreq) + 1) / (2 * docFreq + 1))
  truncate := id
  rarity docCount docFreq := 1000 * (2 * (docCount - docFreq) + 1) / (2 * docFreq + 1)
  zero := 0
  add := (· + ·)
  least := min
  covers needed matched whole := needed * whole ≤ matched * 1000
  scaled score matched whole := score * matched / whole

theorem Bm25.odds_score_le {tf weight len avgLen docCount docFreq maxWeight : ℕ} (hfreq : docFreq ≤ docCount)
    (hweight : weight ≤ maxWeight) : Bm25.odds.scoreScaled tf weight len avgLen docCount docFreq ≤
      Bm25.odds.upperBound maxWeight docCount docFreq := by
  simp only [odds, min_eq_left hfreq]
  split_ifs with hnone hzero hzero
  · exact le_rfl
  · exact Nat.zero_le _
  · obtain rfl : weight = 0 := by omega
    rw [zero_mul]
  · exact Nat.mul_le_mul_right _ hweight

def SearchIndex.rowed : SearchIndex where
  lookup _ x := if x = 1 then .fromItems [⟨1, [0], 3⟩, ⟨2, [0], 2⟩] else .single ⟨10, [0], 1⟩
  lookupPrefix _ _ := .new
  lookupWildcard _ _ := .new
  numericRange _ _ _ := .new
  boolTrueIds _ := ∅
  boolFalseIds _ := ∅
  docRange := some (1, 2)
  isDeleted _ := false
  docOfRow _ := some 2

/-- Two documents in field 1, a row in the others. -/
def QueryExecutor.rowed : QueryExecutor ℕ :=
  { counting .rowed with
    stats := { SearchStats.pair with docCount := fun x => if x = 1 then 2 else 1 }
    corpusDocFreq := fun x _ => some (if x = 1 then 2 else 1)
    bm := Bm25.odds }

theorem QueryExecutor.rowed_scoresBounded : rowed.ScoresBounded where
  lookup _ x := by
    change (if x = 1 then _ else _ : PostingList).WeightsOk
    split_ifs
    · exact PostingList.weightsOk_fromItems _
    · exact PostingList.weightsOk_single _
  prepared _ _ list hlist := nomatch hlist
  lookupPrefix _ _ := PostingList.weightsOk_new
  lookupWildcard _ _ := PostingList.weightsOk_new
  termFreq_le _ _ := le_rfl
  leafFreq_le query ctx leaf hleaf := by
    obtain ⟨kx, -, rfl⟩ := Option.map_eq_some_iff.mp hleaf
    exact le_rfl
  score_le _ _ _ _ _ _ _ := Bm25.odds_score_le

/-- Over the plain field alone the best document is the first of two. -/
theorem rankRetrieve_take_iff_plain : ConsistentCuts fun k =>
    QueryExecutor.rowed.rankRetrieve (some (.term "w")) [⟨1, none, false⟩] k none .bestFields := by
  refine (rankRetrieve_take_iff rowed_scoresBounded HitFloat.counts_additive _ _ _ _).mpr ?_
  rintro - q hq - rows hrows
  obtain rfl := Option.some_inj.mp hq
  have hnone : rowed.addedHits (.term "w") [⟨1, none, false⟩] none = some [] := by
    decide
  obtain rfl : [] = rows := Option.some_inj.mp (hnone.symm.trans hrows)
  decide

/-- The row makes document 2 the best one, but the walk for one document has left it out. -/
theorem rankRetrieve_take_rowed : ¬ConsistentCuts fun k => QueryExecutor.rowed.rankRetrieve
    (some (.term "w")) [⟨1, none, false⟩, ⟨2, none, true⟩] k none .bestFields := by
  intro hconsistent
  have htake := hconsistent 1 2 _ (by decide) rfl
  exact absurd htake (by decide)

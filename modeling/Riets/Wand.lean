/-
Ranking by word: the best documents over the terms of several fields.

Every pair of a term and a field is a cursor of its own over the postings of the
term, scored with the statistics of the field.  The score of a posting is a
floating-point formula; here it is any function, with a bound for each list.
-/
import Riets.Pivot
import Riets.PostingCursor

open List Keyed PostingList

/-- The floating-point part of ranking, over the numbers `F`. -/
structure Bm25 (F : Type) where
  /-- `bm25_score_scaled`: term frequency, weight, document length, average length, number of
  documents, document frequency. -/
  scoreScaled : ℕ → ℕ → ℕ → F → ℕ → ℕ → ℕ
  /-- `bm25_upper_bound`: greatest weight, number of documents, document frequency. -/
  upperBound : ℕ → ℕ → ℕ → ℕ
  /-- A number cut to a `u32`. -/
  truncate : F → ℕ
  rarity : ℕ → ℕ → F
  zero : F
  add : F → F → F
  least : F → F → F
  /-- Whether a matched weight is enough: the share that is needed, the matched weight, the
  weight of the whole query. -/
  covers : F → F → F → Bool
  /-- A score scaled by how much of the query is covered: the matched and the whole weight. -/
  scaled : ℕ → F → F → ℕ

/-- What the scores take from the index. -/
structure SearchStats (F : Type) where
  docCount : XPathId → ℕ
  avgDocLen : XPathId → F
  docLen : DocId → XPathId → Option ℕ

def SearchStats.lenOrAverage {F : Type} (stats : SearchStats F) (bm : Bm25 F) (d : DocId) (x : XPathId) : ℕ :=
  (stats.docLen d x).getD (bm.truncate (stats.avgDocLen x))

/-- The score of a posting in a field. -/
def Bm25.score {F : Type} (bm : Bm25 F) (stats : SearchStats F) (x : XPathId) (docFreq : ℕ)
    (p : Posting) : ℕ :=
  bm.scoreScaled (p.positions.length % 2 ^ 32) p.weight (stats.lenOrAverage bm p.docId x)
    (stats.avgDocLen x) (stats.docCount x) docFreq

/-- The list of a word, with its frequency and greatest weight. -/
structure TermRef where
  postings : PostingList
  docFreq : ℕ
  maxWeight : ℕ
  deriving DecidableEq

/-- The words of one field. -/
structure FieldTerms where
  xpath : XPathId
  terms : List TermRef
  deriving DecidableEq

/-- A ranked document.  The entries of the heap have the same fields. -/
structure WandHit where
  docId : DocId
  score : ℕ
  raw : ℕ
  matchedTerms : ℕ
  deriving DecidableEq, Repr

/-- Highest score first, then lowest document id; the heap has the reverse order and keeps its
worst hit on top. -/
def WandHit.rank (h : WandHit) : ℕᵒᵈ ×ₗ DocId := toLex (OrderDual.toDual h.score, h.docId)

/-- The heap as a list, the best first. -/
def finishHeap (heap : List WandHit) : List WandHit := sortBy WandHit.rank heap

/-- Whether a restriction has the document. -/
def allows (restrict : Option (Finset DocId)) (d : DocId) : Bool := restrict.all fun docs => d ∈ docs

/-- A term of one field.  The source keeps the number of the field, which it needs for the path
and the statistics of the field only. -/
structure MultiFieldTerm where
  cursor : PostingCursor
  xpath : XPathId
  docFreq : ℕ
  upperBound : ℕ
  deriving DecidableEq

section WandMultiField

variable {F : Type} (bm : Bm25 F) (stats : SearchStats F)

def MultiFieldTerm.score (t : MultiFieldTerm) : ℕ :=
  (t.cursor.current.map (bm.score stats t.xpath t.docFreq)).getD 0

def multiFieldTerms (fields : List FieldTerms) : List MultiFieldTerm :=
  fields.flatMap fun field => field.terms.filterMap fun term =>
    let cursor := PostingCursor.new term.postings
    if cursor.isExhausted then none
    else some ⟨cursor, field.xpath, term.docFreq,
      bm.upperBound term.maxWeight (stats.docCount field.xpath) term.docFreq⟩

/-- The hit of a document on the cursors that stand on it. -/
def multiFieldHit (terms : List MultiFieldTerm) (d : DocId) : WandHit :=
  let on := terms.filter fun t => t.cursor.docId = some d
  let score := satSum (on.map fun t => t.score bm stats)
  ⟨d, score, score, on.length⟩

/-- The search that the pivot walk runs over words. -/
def multiFieldSearch (k : ℕ) (restrict : Option (Finset DocId)) : Pivot.Search MultiFieldTerm DocId WandHit where
  doc := fun t => t.cursor.docId
  left := fun t => t.cursor.rest.length
  advanceTo := fun t target => { t with cursor := t.cursor.advanceTo target }
  stepPast := fun t d => if t.cursor.docId = some d then { t with cursor := t.cursor.next } else t
  upperBound := MultiFieldTerm.upperBound
  sort := sortBy fun t => t.cursor.docId.getD 0
  k := k
  allowed := allows restrict
  accepts := fun _ => true
  evaluate := fun terms d => some (multiFieldHit bm stats terms d)
  docOf := WandHit.docId
  score := WandHit.score

/-- The `k` best documents of the sum of the scores of every pair of a term and a field. -/
def wandTopKMultiField (fields : List FieldTerms) (k : ℕ) (restrict : Option (Finset DocId)) :
    List WandHit :=
  if k = 0 ∨ fields = [] then []
  else finishHeap ((multiFieldSearch bm stats k restrict).top (multiFieldTerms bm stats fields))

/-! ### What it returns -/

/-- The scores of a document, one for each pair that holds it, each with the bound of its list. -/
def pairsOn (fields : List FieldTerms) (d : DocId) : List (ℕ × ℕ) :=
  fields.flatMap fun field => field.terms.filterMap fun term =>
    (term.postings.find d).map fun p => (bm.score stats field.xpath term.docFreq p,
      bm.upperBound term.maxWeight (stats.docCount field.xpath) term.docFreq)

def docsOf (fields : List FieldTerms) : List DocId :=
  sortDedup (fields.flatMap fun field => field.terms.flatMap fun term => term.postings.ids)

def hitOf (d : DocId) (scores : List ℕ) : WandHit := ⟨d, satSum scores, satSum scores, scores.length⟩

/-- No posting scores above the bound of its list. -/
def Bounded (fields : List FieldTerms) : Prop :=
  ∀ field ∈ fields, ∀ term ∈ field.terms, ∀ p ∈ term.postings.items,
    bm.score stats field.xpath term.docFreq p ≤
      bm.upperBound term.maxWeight (stats.docCount field.xpath) term.docFreq

/-- The entries a term has left, each with the score of its posting. -/
def MultiFieldTerm.entries (t : MultiFieldTerm) : List (DocId × ℕ) :=
  t.cursor.rest.map fun p => (p.docId, bm.score stats t.xpath t.docFreq p)

def MultiFieldTerm.Ok (t : MultiFieldTerm) : Prop :=
  ∀ p ∈ t.cursor.postings.items, bm.score stats t.xpath t.docFreq p ≤ t.upperBound

def hitOfHeld (d : DocId) (m : Multiset (ℕ × ℕ)) : WandHit :=
  let score := min (m.map Prod.fst).sum u64Max
  ⟨d, score, score, Multiset.card m⟩

theorem hitOfHeld_coe (d : DocId) (l : List (ℕ × ℕ)) : hitOfHeld d ↑l = hitOf d (l.map Prod.fst) := by
  rw [hitOfHeld, hitOf, satSum_eq, Multiset.map_coe, Multiset.sum_coe, Multiset.coe_card, length_map]

variable {bm stats}

theorem MultiFieldTerm.entries_head? (t : MultiFieldTerm) :
    (t.entries bm stats).head?.map Prod.fst = t.cursor.docId := by
  rw [entries, head?_map, Option.map_map, PostingCursor.docId, PostingCursor.current_eq]
  rfl

variable {d : DocId}

theorem MultiFieldTerm.score_eq {t : MultiFieldTerm} (hd : t.cursor.docId = some d) :
    value d (t.entries bm stats) = some (t.score bm stats) := by
  rw [PostingCursor.docId, PostingCursor.current_eq] at hd
  obtain ⟨p, hp, rfl⟩ := Option.map_eq_some_iff.mp hd
  have hmem : (p.docId, bm.score stats t.xpath t.docFreq p) ∈ t.entries bm stats :=
    mem_map.mpr ⟨p, mem_of_head? hp, rfl⟩
  have hasc : Ascending Prod.fst (t.entries bm stats) :=
    pairwise_map.mpr t.cursor.ascending_rest
  rw [value_of_mem hasc hmem, score, PostingCursor.current_eq, hp]
  rfl

theorem sortBy_doc_sorted {C : Type} (doc : C → Option DocId) (cs : List C) :
    (sortBy (fun c => (doc c).getD 0) cs).Pairwise fun a b =>
      ∀ d d', doc a = some d → doc b = some d' → d ≤ d' := by
  refine (sorted_sortBy cs).imp fun hab d d' hd hd' => ?_
  simpa [hd, hd'] using hab

theorem filterMap_value_eq {C V W : Type} {doc : C → Option DocId} {entries : C → List (DocId × V)}
    {score : C → V} (g : C → V → W) {cs : List C}
    (hdoc : ∀ c ∈ cs, doc c = (entries c).head?.map Prod.fst)
    (hle : ∀ c ∈ cs, ∀ e ∈ entries c, d ≤ e.1)
    (hasc : ∀ c ∈ cs, Ascending Prod.fst (entries c))
    (hscore : ∀ c ∈ cs, doc c = some d → value d (entries c) = some (score c)) :
    cs.filterMap (fun c => (value d (entries c)).map (g c)) =
      (cs.filter fun c => doc c = some d).map fun c => g c (score c) := by
  induction cs with
  | nil => rfl
  | cons c cs ih =>
    have ih := ih (fun c' hc' => hdoc c' (mem_cons_of_mem c hc'))
      (fun c' hc' => hle c' (mem_cons_of_mem c hc'))
      (fun c' hc' => hasc c' (mem_cons_of_mem c hc'))
      fun c' hc' => hscore c' (mem_cons_of_mem c hc')
    by_cases hd : doc c = some d
    · rw [filterMap_cons, hscore c mem_cons_self hd, Option.map_some,
        filter_cons_of_pos (by simpa using hd), map_cons, ih]
    · have hnone : value d (entries c) = none := by
        by_contra hne
        obtain ⟨v, hv⟩ := Option.ne_none_iff_exists'.mp hne
        have hmem := mem_of_value hv
        rw [hdoc c mem_cons_self] at hd
        cases hl : entries c with
        | nil => rw [hl] at hmem; exact absurd hmem (by simp)
        | cons e l =>
          -- the first entry is at `d` or past it, the entry at `d` not before it
          have hasc' := hasc c mem_cons_self
          have hlow := hle c mem_cons_self e (by rw [hl]; exact mem_cons_self)
          rw [hl] at hmem hasc' hd
          rcases mem_cons.mp hmem with rfl | hmem
          · exact hd rfl
          · exact absurd (hasc'.head_lt hmem) (not_lt.mpr hlow)
      rw [filterMap_cons, hnone, Option.map_none, filter_cons_of_neg (by simpa using hd), ih]

theorem MultiFieldTerm.walker_lawful (k : ℕ) (restrict : Option (Finset DocId)) :
    (multiFieldSearch bm stats k restrict).toWalker.Lawful (MultiFieldTerm.Ok bm stats)
      (MultiFieldTerm.entries bm stats) where
  ascending := fun t _ => pairwise_map.mpr t.cursor.ascending_rest
  doc_eq := fun t _ => t.entries_head?.symm
  length_le := fun t _ => (length_map _).le
  ok_advanceTo := by
    intro t target h p hp
    exact h p (by simpa [multiFieldSearch] using hp)
  entries_advanceTo := by
    intro t target _
    change map _ (t.cursor.advanceTo target).rest = _
    rw [PostingCursor.rest_advanceTo, entries, filter_map]
    rfl

theorem MultiFieldTerm.lawful {k : ℕ} (hk : 0 < k) (restrict : Option (Finset DocId)) :
    (multiFieldSearch bm stats k restrict).Lawful (MultiFieldTerm.Ok bm stats)
      (MultiFieldTerm.entries bm stats) hitOfHeld where
  toLawful := walker_lawful k restrict
  ok_stepPast := by
    intro t d h _
    change MultiFieldTerm.Ok bm stats (if _ then _ else _)
    split_ifs with hd
    · intro p hp
      exact h p (by simpa using hp)
    · exact h
  entries_stepPast := by
    intro t d _ hle
    have hasc : Ascending Prod.fst (t.entries bm stats) :=
      pairwise_map.mpr t.cursor.ascending_rest
    rw [filter_ne_eq hasc hle, entries_head?]
    change MultiFieldTerm.entries bm stats (if t.cursor.docId = some d then _ else _) = _
    split_ifs with hd
    · change map _ t.cursor.next.rest = _
      rw [PostingCursor.rest_next, map_tail]
      rfl
    · rfl
  upperBound_advanceTo := fun _ _ => rfl
  upperBound_stepPast := by
    intro t d
    change MultiFieldTerm.upperBound (if _ then _ else _) = _
    split_ifs <;> rfl
  le_upperBound := by
    intro t h e he
    obtain ⟨p, hp, rfl⟩ := mem_map.mp he
    exact h p (mem_of_mem_drop hp)
  sort_perm := fun ts => perm_sortBy ts
  sort_sorted := sortBy_doc_sorted fun t : MultiFieldTerm => t.cursor.docId
  k_pos := hk
  accepts := fun _ => rfl
  evaluate := by
    intro ts d _ hle _
    have hheld := filterMap_value_eq (fun t v => (v, t.upperBound)) (fun t _ => t.entries_head?.symm)
      hle (fun t _ => pairwise_map.mpr t.cursor.ascending_rest) fun t _ => score_eq
    change some (multiFieldHit bm stats ts d) = _
    have hcoe : (multiFieldSearch bm stats k restrict).heldBy (entries bm stats) ts d =
        ↑((ts.filter fun t => t.cursor.docId = some d).map fun t => (t.score bm stats, t.upperBound)) :=
      congrArg _ hheld
    rw [hcoe, hitOfHeld_coe, multiFieldHit, hitOf, map_map, length_map]
    rfl
  docOf_hit := fun _ _ => rfl
  score_hit := fun _ _ => rfl

theorem value_new {V : Type} (list : PostingList) (f : Posting → V) (d : DocId) :
    value d ((PostingCursor.new list).rest.map fun p => (p.docId, f p)) = (list.find d).map f := by
  change value d (list.items.map _) = _
  rw [PostingList.find]
  induction list.items with
  | nil => rfl
  | cons p l ih =>
    rw [map_cons, value_cons, ih, find_cons]
    split_ifs <;> rfl

theorem heldBy_multiFieldTerms (fields : List FieldTerms) (k : ℕ) (restrict : Option (Finset DocId))
    (d : DocId) :
    (multiFieldSearch bm stats k restrict).heldBy (MultiFieldTerm.entries bm stats)
      (multiFieldTerms bm stats fields) d = ↑(pairsOn bm stats fields d) := by
  rw [Pivot.Search.heldBy, multiFieldTerms, pairsOn, filterMap_flatMap]
  refine congrArg _ (flatMap_congr fun field _ => ?_)
  rw [filterMap_filterMap]
  refine filterMap_congr fun term _ => ?_
  simp only
  split_ifs with hexhausted
  · -- a term without postings holds nothing
    have hnil : term.postings.items = [] := by
      simpa [PostingCursor.isExhausted, PostingCursor.new] using hexhausted
    rw [Option.bind_none, PostingList.find, hnil]
    rfl
  · rw [Option.bind_some, Pivot.Search.held, MultiFieldTerm.entries, value_new, Option.map_map]
    rfl

variable {fields : List FieldTerms}

theorem ok_multiFieldTerms (hbound : Bounded bm stats fields) :
    ∀ t ∈ multiFieldTerms bm stats fields, MultiFieldTerm.Ok bm stats t := by
  intro t ht
  obtain ⟨field, hfield, ht⟩ := mem_flatMap.mp ht
  obtain ⟨term, hterm, ht⟩ := mem_filterMap.mp ht
  simp only [Option.ite_none_left_eq_some, Option.some.injEq] at ht
  obtain ⟨-, rfl⟩ := ht
  exact hbound field hfield term hterm

theorem mem_docsOf :
    d ∈ docsOf fields ↔ ∃ field ∈ fields, ∃ term ∈ field.terms, d ∈ term.postings.ids := by
  rw [docsOf, mem_sortDedup]
  simp only [mem_flatMap]

theorem nodup_docsOf (fields : List FieldTerms) : (docsOf fields).Nodup := by
  have hasc : Ascending id (docsOf fields) :=
    ascending_collapse (fun _ _ => rfl) (sorted_sortBy _)
  exact hasc.imp fun hab => ne_of_lt hab

theorem mem_docsOf_of_mem_pairsOn {w : ℕ × ℕ}
    (hw : w ∈ pairsOn bm stats fields d) : d ∈ docsOf fields := by
  obtain ⟨field, hfield, hw⟩ := mem_flatMap.mp hw
  obtain ⟨term, hterm, hw⟩ := mem_filterMap.mp hw
  obtain ⟨p, hp, -⟩ := Option.map_eq_some_iff.mp hw
  have hkey : p.docId = d := find_key hp
  exact mem_docsOf.mpr ⟨field, hfield, term, hterm, mem_map.mpr ⟨p, find_mem hp, hkey⟩⟩

variable (bm stats)

/-- The documents a search over any of the terms is about: allowed ones on a list with a positive
bound. -/
def candidates (fields : List FieldTerms) (restrict : Option (Finset DocId)) : List DocId :=
  (docsOf fields).filter fun d => allows restrict d && (pairsOn bm stats fields d).any fun w => 0 < w.2

variable {bm stats}

theorem mem_candidates {restrict : Option (Finset DocId)} :
    d ∈ candidates bm stats fields restrict ↔
      allows restrict d = true ∧ ∃ w ∈ pairsOn bm stats fields d, 0 < w.2 := by
  rw [candidates, mem_filter, Bool.and_eq_true, any_eq_true]
  simp only [decide_eq_true_eq]
  constructor
  · exact fun h => h.2
  · rintro ⟨hallowed, w, hw, hpos⟩
    exact ⟨mem_docsOf_of_mem_pairsOn hw, hallowed, w, hw, hpos⟩

theorem wandTopKMultiField_eq (hbound : Bounded bm stats fields) {k : ℕ}
    (hk : 0 < k) (restrict : Option (Finset DocId)) :
    (∃ heap, Loop.run (multiFieldSearch bm stats k restrict).turn
      (((multiFieldTerms bm stats fields).map fun t => t.cursor.rest.length).sum + 1)
      (multiFieldTerms bm stats fields, []) = some heap) ∧
    wandTopKMultiField bm stats fields k restrict = TopK.best WandHit.rank k
      ((candidates bm stats fields restrict).map fun d =>
        hitOf d ((pairsOn bm stats fields d).map Prod.fst)) := by
  have hlawful := @MultiFieldTerm.lawful _ bm stats _ hk restrict
  have hok := ok_multiFieldTerms hbound
  obtain ⟨heap, hrun, -⟩ := hlawful.run_turn hok
  refine ⟨⟨heap, hrun⟩, ?_⟩
  rw [wandTopKMultiField]
  split_ifs with hnone
  · -- without fields there is nothing to return
    obtain rfl : fields = [] := hnone.resolve_left hk.ne'
    exact take_nil.symm
  · have hnodup : (candidates bm stats fields restrict).Nodup := (nodup_docsOf fields).filter _
    have htop := hlawful.top_eq hok hnodup fun d => by
        rw [mem_candidates, heldBy_multiFieldTerms]
        rfl
    have hhits : (candidates bm stats fields restrict).map (fun d => hitOfHeld d
        ((multiFieldSearch bm stats k restrict).heldBy (MultiFieldTerm.entries bm stats)
          (multiFieldTerms bm stats fields) d)) = (candidates bm stats fields restrict).map fun d =>
        hitOf d ((pairsOn bm stats fields d).map Prod.fst) := by
      refine map_congr_left fun d _ => ?_
      rw [heldBy_multiFieldTerms, hitOfHeld_coe]
    rw [hhits] at htop
    exact htop

/-- The search by any of the terms is exact. -/
theorem wandTopKMultiField_exact {fields : List FieldTerms} (hbound : Bounded bm stats fields) (k : ℕ)
    (restrict : Option (Finset DocId)) :
    (0 < k → ∃ heap, Loop.run (multiFieldSearch bm stats k restrict).turn
      (((multiFieldTerms bm stats fields).map fun t => t.cursor.rest.length).sum + 1)
      (multiFieldTerms bm stats fields, []) = some heap) ∧
    wandTopKMultiField bm stats fields k restrict = TopK.best WandHit.rank k
      ((candidates bm stats fields restrict).map fun d =>
        hitOf d ((pairsOn bm stats fields d).map Prod.fst)) ∧
    ∀ hit ∈ wandTopKMultiField bm stats fields k restrict,
      hit.matchedTerms = (pairsOn bm stats fields hit.docId).length ∧
      (((pairsOn bm stats fields hit.docId).map Prod.fst).sum < 2 ^ 64 →
        hit.score = ((pairsOn bm stats fields hit.docId).map Prod.fst).sum) := by
  have heq : wandTopKMultiField bm stats fields k restrict = TopK.best WandHit.rank k
      ((candidates bm stats fields restrict).map fun d =>
        hitOf d ((pairsOn bm stats fields d).map Prod.fst)) := by
    rcases Nat.eq_zero_or_pos k with rfl | hk
    · exact take_zero.symm
    · exact (wandTopKMultiField_eq hbound hk restrict).2
  refine ⟨fun hk => (wandTopKMultiField_eq hbound hk restrict).1, heq, fun hit hhit => ?_⟩
  rw [heq] at hhit
  obtain ⟨d, -, rfl⟩ := mem_map.mp (TopK.mem_of_mem_best hhit)
  refine ⟨length_map _, fun hlt => ?_⟩
  change satSum _ = _
  rw [satSum_eq]
  exact min_eq_left (Nat.le_sub_one_of_lt hlt)

end WandMultiField

/-- The ranking of words that one of two documents of length one has: the idf is `ln 2`, and the
frequency counts for at most 2.2. -/
def Bm25.pair : Bm25 ℕ where
  scoreScaled := fun tf weight _ _ docCount docFreq =>
    if tf = 0 ∨ docCount = 0 ∨ docFreq = 0 then 0 else weight * 693
  upperBound := fun maxWeight docCount docFreq =>
    if docCount = 0 ∨ docFreq = 0 ∨ maxWeight = 0 then 0 else maxWeight * 1525
  truncate := id
  rarity := fun docCount docFreq => if docCount = 0 ∨ docFreq = 0 then 0 else 693
  zero := 0
  add := (· + ·)
  least := min
  covers := fun needed matched whole => needed * whole ≤ matched * 1000
  scaled := fun score matched whole => score * matched * matched / (whole * whole)

def SearchStats.pair : SearchStats ℕ where
  docCount := fun _ => 2
  avgDocLen := fun _ => 1
  docLen := fun _ _ => some 1

def PostingList.single (p : Posting) : PostingList := ⟨[p], p.weight, pairwise_singleton _ _⟩

/-- Two words in two fields, for the best document of two. -/
theorem wandTopKMultiField_exact_pair :
    let fields := [⟨1, [⟨single ⟨7, [0], 1⟩, 1, 1⟩]⟩,
      ⟨2, [⟨single ⟨7, [0], 2⟩, 1, 2⟩, ⟨single ⟨9, [0], 2⟩, 1, 2⟩]⟩]
    Bounded Bm25.pair SearchStats.pair fields ∧
      candidates Bm25.pair SearchStats.pair fields none = [7, 9] ∧
      wandTopKMultiField Bm25.pair SearchStats.pair fields 1 none = [⟨7, 2079, 2079, 2⟩] := by
  have hbound : Bounded Bm25.pair SearchStats.pair [⟨1, [⟨single ⟨7, [0], 1⟩, 1, 1⟩]⟩,
      ⟨2, [⟨single ⟨7, [0], 2⟩, 1, 2⟩, ⟨single ⟨9, [0], 2⟩, 1, 2⟩]⟩] := by
    unfold Bounded
    decide
  refine ⟨hbound, by decide, ?_⟩
  rw [(wandTopKMultiField_exact hbound 1 none).2.1]
  decide

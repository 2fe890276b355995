/-
What a query means.

A query is evaluated over posting lists and bitmaps, part by part.  Its meaning is said of one
id: the words and values filed under the id make the query true (`Meets`).  A filter finds
exactly the ids of which the query is true (`mem_evaluate`), and after any run of an index what
is filed under the id of a document is what the document was added with.
-/
import Riets.ShardStats
import Riets.WildcardParse

open List IndexAction

/-- What is filed under one id. -/
structure Filing where
  positions : TermKey → Option (List ℕ)
  inRange : XPathId → Option NumericBound → Option NumericBound → Prop
  isBool : XPathId → Bool → Prop
  listed : Prop

namespace Filing

variable (f : Filing) (x : XPathId)

def HasTerm (term : String) : Prop := f.positions ⟨x, term⟩ ≠ none

/-- A prefix or a pattern is found by way of a word, every other leaf as it stands. -/
def HasLeaf : LeafKey → Prop
  | .prefixed v => v ≠ "" ∧ ∃ term, StartsWith term v ∧ f.HasTerm x term
  | .wildcard p => ∃ term, (WildcardPattern.parse p).matches term = true ∧ f.HasTerm x term
  | key => key.foundIn (fun v => f.positions ⟨x, v⟩) = true

end Filing

namespace QueryExecutor

open List PostingList IndexSnapshot

variable {F : Type} (e : QueryExecutor F) (ctxs : List FieldCtx)

mutual

/-- What it means that an id matches a query. -/
def Meets (f : Filing) : Query → Prop
  | .fuzzy raw fuzziness spec => ∃ ctx ∈ ctxs, e.fuzzyWords raw ≠ [] ∧ ∀ word ∈ e.fuzzyWords raw,
      ∃ expansion ∈ e.expansions word ctx.xpath fuzziness spec, f.HasTerm ctx.xpath expansion.term
  | .range lo hi => ∃ ctx ∈ ctxs, f.inRange ctx.xpath lo hi
  | .bool value => ∃ ctx ∈ ctxs, f.isBool ctx.xpath value
  | .wand parts => MeetsSome f parts
  | .or parts => MeetsSome f parts
  | .and parts => parts ≠ [] ∧ MeetsEach f parts
  | .synonym forms => MeetsForm f forms
  -- elements are asked for by their rows only
  | .sameElement _ => False
  | .matchAll => f.listed
  | leaf => ∃ ctx ∈ ctxs, ∃ kx ∈ leafKey leaf ctx, f.HasLeaf kx.2 kx.1

def MeetsSome (f : Filing) : List Query → Prop
  | [] => False
  | part :: parts => Meets f part ∨ MeetsSome f parts

def MeetsEach (f : Filing) : List Query → Prop
  | [] => True
  | part :: parts => Meets f part ∧ MeetsEach f parts

def MeetsForm (f : Filing) : List (Query × ℕ) → Prop
  | [] => False
  | (form, _) :: forms => Meets f form ∨ MeetsForm f forms

end

end QueryExecutor

namespace IndexSnapshot

def filing (s : IndexSnapshot) (d : DocId) : Filing where
  positions k := ((s.lookup k.term k.xpath).find d).map Posting.positions
  inRange x lo hi := d ∉ s.deleted ∧ ∃ r ∈ s.readers, d ∈ r.rangeIds x lo hi
  isBool x value := d ∉ s.deleted ∧
    ∃ r ∈ s.readers, d ∈ if value then r.boolTrueIds x else r.boolFalseIds x
  listed := d ∈ QueryExecutor.idsBetween s.docRange ∧ d ∉ s.deleted

/-- No part of the snapshot has more terms for the leaf than a pattern may expand to. -/
def Uncut (s : IndexSnapshot) (kx : LeafKey × XPathId) : Prop :=
  ∀ r ∈ s.readers,
    (∀ v, kx.1 = .prefixed v → r.FewTerms (fun t => StartsWith t v) kx.2) ∧
      ∀ p, kx.1 = .wildcard p → r.FewTerms (fun t => (WildcardPattern.parse p).matches t = true) kx.2

def searched (s : IndexSnapshot) : SearchIndex :=
  s.searchIndex s.lookupPrefix fun p => s.lookupWildcard (WildcardPattern.parse p)

variable {s : IndexSnapshot} {x : XPathId} {d : DocId}

theorem hasTerm_filing {term : String} :
    (s.filing d).HasTerm x term ↔ d ∉ s.deleted ∧ s.Posts ⟨x, term⟩ d := by
  have hfind := s.find_lookup term x d
  show ((s.lookup term x).find d).map Posting.positions ≠ none ↔ _
  rw [ne_eq, Option.map_eq_none_iff, hfind]
  by_cases hd : d ∈ s.deleted
  · simp [hd]
  · rw [if_neg hd, ← ne_eq, PostingList.joinAll_ne_none]
    simp [hd, Posts]

end IndexSnapshot

namespace QueryExecutor

open List PostingList IndexSnapshot

variable {F : Type} {e : QueryExecutor F} {s : IndexSnapshot} {ctxs : List FieldCtx} {d : DocId}

theorem mem_meetIds {parts : List (Finset DocId)} : d ∈ meetIds parts ↔ parts ≠ [] ∧ ∀ ids ∈ parts, d ∈ ids := by
  cases parts with
  | nil => simp [meetIds]
  | cons ids parts =>
    have hfold : ∀ (parts : List (Finset DocId)) (acc : Finset DocId),
        d ∈ parts.foldl (· ∩ ·) acc ↔ d ∈ acc ∧ ∀ ids ∈ parts, d ∈ ids := by
      intro parts
      induction parts with
      | nil => simp
      | cons ids parts ih =>
        intro acc
        rw [foldl_cons, ih, Finset.mem_inter, forall_mem_cons, and_assoc]
    rw [meetIds, hfold, forall_mem_cons]
    simp

theorem mem_foldr_union {α : Type} {ids : α → Finset DocId} {l : List α} :
    d ∈ l.foldr (fun a acc => ids a ∪ acc) ∅ ↔ ∃ a ∈ l, d ∈ ids a := by
  induction l with
  | nil => simp
  | cons a l ih => rw [foldr_cons, Finset.mem_union, ih, exists_mem_cons_iff]

section Leaves

variable (hindex : e.index = s.searched)
include hindex

theorem mem_lookup {term : String} {x : XPathId} :
    d ∈ (e.index.lookup term x).ids ↔ (s.filing d).HasTerm x term := by
  rw [hindex, mem_ids]
  show (s.lookup term x).find d ≠ none ↔ ((s.lookup term x).find d).map Posting.positions ≠ none
  simp

theorem mem_fetchLeaf_filing (hplain : e.prepared = fun _ _ => none) {key : LeafKey} {x : XPathId}
    (huncut : s.Uncut (key, x)) : d ∈ (e.fetchLeaf key x).ids ↔ (s.filing d).HasLeaf x key := by
  have hpositions : (fun v => ((e.index.lookup v x).find d).map Posting.positions) =
      fun v => (s.filing d).positions ⟨x, v⟩ := by
    rw [hindex]
    rfl
  by_cases hwhole : key.Whole
  · rw [mem_fetchLeaf hplain hwhole, hpositions]
    cases key with
    | prefixed v => cases hwhole
    | wildcard p => cases hwhole
    | _ => rfl
  · cases key with
    | prefixed v =>
      have hfew := fun r hr => (huncut r hr).1 v rfl
      have hnone : d ∉ (default : PostingList).ids := fun h => mem_ids.mp h rfl
      simp only [Filing.HasLeaf, hasTerm_filing]
      rw [fetchLeaf, hindex]
      split_ifs with hempty
      · simp [hempty, hnone]
      · show d ∈ (s.lookupPrefix v x).ids ↔ _
        rw [mem_ids, find_lookupPrefix hfew]
        constructor
        · rintro ⟨hd, term, hstart, hposts⟩
          exact ⟨hempty, term, hstart, hd, hposts⟩
        · rintro ⟨-, term, hstart, hd, hposts⟩
          exact ⟨hd, term, hstart, hposts⟩
    | wildcard p =>
      have hfew := fun r hr => (huncut r hr).2 p rfl
      simp only [Filing.HasLeaf, hasTerm_filing]
      rw [fetchLeaf, hindex]
      show d ∈ (s.lookupWildcard (WildcardPattern.parse p) x).ids ↔ _
      rw [mem_ids, find_lookupWildcard hfew]
      constructor
      · rintro ⟨hd, term, hmatch, hposts⟩
        exact ⟨term, hmatch, hd, hposts⟩
      · rintro ⟨term, hmatch, hd, hposts⟩
        exact ⟨hd, term, hmatch, hposts⟩
    | _ => exact absurd trivial hwhole

theorem mem_executeFuzzy {raw : String} {ctx : FieldCtx} {fuzziness : Fuzziness} {spec : FuzzySpec} :
    d ∈ e.executeFuzzy raw ctx fuzziness spec ↔ e.fuzzyWords raw ≠ [] ∧ ∀ word ∈ e.fuzzyWords raw,
      ∃ expansion ∈ e.expansions word ctx.xpath fuzziness spec,
        (s.filing d).HasTerm ctx.xpath expansion.term := by
  rw [executeFuzzy, mem_meetIds]
  simp only [ne_eq, map_eq_nil_iff, forall_mem_map, mem_toFinset, mem_flatMap, mem_lookup hindex]

theorem mem_evalLeaf (hplain : e.prepared = fun _ _ => none) (query : Query)
    (huncut : ∀ ctx ∈ ctxs, ∀ kx ∈ leafKey query ctx, s.Uncut kx) :
    ∃ ids, e.evalLeaf query ctxs .filter = .docs ids ∧ ∀ d, d ∈ ids ↔
      ∃ ctx ∈ ctxs, ∃ kx ∈ leafKey query ctx, (s.filing d).HasLeaf kx.2 kx.1 := by
  refine ⟨_, rfl, fun d => ?_⟩
  rw [mem_toFinset, mem_flatMap]
  refine exists_congr fun ctx => and_congr_right fun hctx => ?_
  rw [leaf]
  cases hkey : leafKey query ctx with
  | none => simp
  | some kx =>
    have hlist : (e.prepared kx.2 kx.1).getD (e.fetchLeaf kx.1 kx.2) = e.fetchLeaf kx.1 kx.2 := by
      rw [hplain]
      rfl
    simp only [Option.map_some, Option.getD_some, Option.mem_def, Option.some.injEq, exists_eq_left', hlist]
    exact mem_fetchLeaf_filing hindex hplain (huncut ctx hctx kx hkey)

/-- The filter finds the ids that meet the query. -/
def Finds (e : QueryExecutor F) (s : IndexSnapshot) (ctxs : List FieldCtx) (query : Query) : Prop :=
  ∃ ids, e.evaluate ctxs .filter query = some (.docs ids) ∧ ∀ d, d ∈ ids ↔ e.Meets ctxs (s.filing d) query

theorem finds_leaf (hplain : e.prepared = fun _ _ => none) {query : Query}
    (heval : e.evaluate ctxs .filter query = some (e.evalLeaf query ctxs .filter))
    (hmeets : ∀ f, e.Meets ctxs f query ↔ ∃ ctx ∈ ctxs, ∃ kx ∈ leafKey query ctx, f.HasLeaf kx.2 kx.1)
    (hread : ∀ ctx, ∀ kx ∈ leafKey query ctx, kx ∈ leafKeys ctx query)
    (huncut : ∀ ctx ∈ ctxs, ∀ kx ∈ leafKeys ctx query, s.Uncut kx) : e.Finds s ctxs query := by
  obtain ⟨ids, hids, hmem⟩ := mem_evalLeaf hindex hplain query
    fun ctx hctx kx hkx => huncut ctx hctx kx (hread ctx kx hkx)
  exact ⟨ids, heval.trans (congrArg some hids), fun d => (hmem d).trans (hmeets _).symm⟩

end Leaves

mutual

theorem finds_evaluate (hindex : e.index = s.searched) (hplain : e.prepared = fun _ _ => none) : ∀ query : Query,
    (∀ ctx ∈ ctxs, ∀ kx ∈ leafKeys ctx query, s.Uncut kx) → e.Finds s ctxs query := by
  intro query huncut
  match query with
  | .term v | .prefixed v | .wildcard v | .exactly v =>
    refine finds_leaf hindex hplain (by rw [evaluate]) (fun f => by simp only [Meets]) (fun ctx kx hkx => ?_) huncut
    simp only [leafKeys]
    exact Option.mem_toList.mpr hkx
  | .phrase terms =>
    refine finds_leaf hindex hplain (by rw [evaluate]) (fun f => by simp only [Meets]) (fun ctx kx hkx => ?_) huncut
    rw [leafKeys]
    exact mem_append_right _ (Option.mem_toList.mpr hkx)
  | .fuzzy raw fuzziness spec =>
    refine ⟨_, by rw [evaluate], fun d => ?_⟩
    rw [Meets, Finset.mem_biUnion]
    simp only [mem_toFinset, mem_executeFuzzy hindex]
  | .range lo hi =>
    refine ⟨_, by rw [evaluate], fun d => ?_⟩
    rw [Meets, Finset.mem_biUnion, hindex]
    simp only [mem_toFinset, postingIds, mem_ids]
    exact exists_congr fun ctx => and_congr_right fun _ => mem_numericRange
  | .bool value =>
    refine ⟨_, by rw [evaluate], fun d => ?_⟩
    rw [Meets, Finset.mem_biUnion, hindex]
    simp only [mem_toFinset]
    refine exists_congr fun ctx => and_congr_right fun _ => ?_
    cases value with
    | true => exact mem_boolTrueIds
    | false => exact mem_boolFalseIds
  | .wand parts | .or parts =>
    obtain ⟨outcomes, heval, -, hmem⟩ := finds_evaluateEach hindex hplain parts fun ctx hctx kx hkx =>
      huncut ctx hctx kx (by rwa [leafKeys])
    refine ⟨_, by rw [evaluate, heval]; rfl, fun d => ?_⟩
    rw [mem_foldr_union, Meets]
    exact (hmem d).1
  | .and parts =>
    obtain ⟨outcomes, heval, hnil, hmem⟩ := finds_evaluateEach hindex hplain parts fun ctx hctx kx hkx =>
      huncut ctx hctx kx (by rwa [leafKeys])
    refine ⟨_, by rw [evaluate, heval]; rfl, fun d => ?_⟩
    rw [mem_meetIds, forall_mem_map, (hmem d).2, ne_eq, map_eq_nil_iff, hnil, Meets]
  | .synonym forms =>
    obtain ⟨outcomes, heval, hmem⟩ := finds_evaluateForms hindex hplain forms fun ctx hctx kx hkx =>
      huncut ctx hctx kx (by rwa [leafKeys])
    refine ⟨_, by rw [evaluate, heval]; rfl, fun d => ?_⟩
    rw [mem_foldr_union, Meets]
    exact hmem d
  | .sameElement children =>
    refine ⟨_, by rw [evaluate], fun d => ?_⟩
    rw [Meets]
    exact ⟨fun h => absurd h (Finset.notMem_empty d), False.elim⟩
  | .matchAll =>
    refine ⟨_, by rw [evaluate], fun d => ?_⟩
    rw [Meets, Finset.mem_filter, hindex]
    simp [filing, searched, searchIndex]

theorem finds_evaluateEach (hindex : e.index = s.searched) (hplain : e.prepared = fun _ _ => none) : ∀ parts : List Query,
    (∀ ctx ∈ ctxs, ∀ kx ∈ leafKeysOfEach ctx parts, s.Uncut kx) →
      ∃ outcomes, e.evaluateEach ctxs .filter parts = some outcomes ∧ (outcomes = [] ↔ parts = []) ∧
        ∀ d, ((∃ outcome ∈ outcomes, d ∈ outcome.ids) ↔ e.MeetsSome ctxs (s.filing d) parts) ∧
          ((∀ outcome ∈ outcomes, d ∈ outcome.ids) ↔ e.MeetsEach ctxs (s.filing d) parts) := by
  intro parts huncut
  match parts with
  | [] => exact ⟨[], by rw [evaluateEach], by simp, fun d => by simp [MeetsSome, MeetsEach]⟩
  | part :: parts =>
    obtain ⟨ids, heval, hids⟩ := finds_evaluate hindex hplain part fun ctx hctx kx hkx =>
      huncut ctx hctx kx (by rw [leafKeysOfEach]; exact mem_append_left _ hkx)
    obtain ⟨outcomes, hevals, -, hmem⟩ := finds_evaluateEach hindex hplain parts fun ctx hctx kx hkx =>
      huncut ctx hctx kx (by rw [leafKeysOfEach]; exact mem_append_right _ hkx)
    refine ⟨_, by rw [evaluateEach, heval, hevals]; rfl, by simp, fun d => ?_⟩
    rw [exists_mem_cons_iff, forall_mem_cons, MeetsSome, MeetsEach, (hmem d).1, (hmem d).2, ← hids d]
    exact ⟨Iff.rfl, Iff.rfl⟩

theorem finds_evaluateForms (hindex : e.index = s.searched) (hplain : e.prepared = fun _ _ => none) : ∀ forms : List (Query × ℕ),
    (∀ ctx ∈ ctxs, ∀ kx ∈ leafKeysOfForms ctx forms, s.Uncut kx) →
      ∃ outcomes, e.evaluateForms ctxs .filter [] forms = some outcomes ∧
        ∀ d, (∃ outcome ∈ outcomes, d ∈ outcome.2.ids) ↔ e.MeetsForm ctxs (s.filing d) forms := by
  intro forms huncut
  match forms with
  | [] => exact ⟨[], by rw [evaluateForms], fun d => by simp [MeetsForm]⟩
  | (form, weight) :: forms =>
    obtain ⟨ids, heval, hids⟩ := finds_evaluate hindex hplain form fun ctx hctx kx hkx =>
      huncut ctx hctx kx (by rw [leafKeysOfForms]; exact mem_append_left _ hkx)
    obtain ⟨outcomes, hevals, hmem⟩ := finds_evaluateForms hindex hplain forms fun ctx hctx kx hkx =>
      huncut ctx hctx kx (by rw [leafKeysOfForms]; exact mem_append_right _ hkx)
    refine ⟨(weight, .docs ids) :: outcomes, by simp [evaluateForms, heval, hevals], fun d => ?_⟩
    rw [exists_mem_cons_iff, MeetsForm, hmem d, ← hids d]
    exact Iff.rfl

end

end QueryExecutor

namespace World

open QueryExecutor MemIndex LsmIndex

def filed (docs : List AnalyzedDocument) (d : DocId) (k : TermKey) : Option (List ℕ) :=
  ((docs.find? fun doc => doc.docId = d).bind fun doc => ownPosting doc k).map Posting.positions

section Run

variable {w : World} (hw : Fresh w) {as : List IndexAction}
  (hids : (as.flatMap documents).Pairwise fun x y => x.docId ≠ y.docId)
  {s : IndexSnapshot} (hs : (w.run as).Shows s)
include hw hids hs

theorem positions_shown {d : DocId} {k : TermKey} (hlive : d ∉ w.index.deleted)
    (hdel : ∀ ok, .deleteDocument d ok ∉ as) (hnew : ∀ r ∈ w.index.readers, ∀ x, ¬ r.Holds x d)
    (hkey : ∀ x ∈ as.flatMap documents, ¬ x.RowKeyed k.xpath) :
    (s.filing d).positions k = filed (as.flatMap documents) d k := by
  have hinv := inv_run hw.inv as
  have hkept : (w.run as).Kept d := kept_run hw hlive hdel
  have hshown : (s.lookup k.term k.xpath).find d = PostingList.joinAll
      ((w.run as).index.readers.map fun r => r.posting k d) ∨
        ∃ busy, (s.lookup k.term k.xpath).find d = PostingList.joinAll
          (((w.run as).step (.publishSnapshot busy)).index.readers.map fun r => r.posting k d) := by
    rcases hs with rfl | ⟨busy, rfl⟩
    · have hfind := (w.run as).index.snapshot.find_lookup k.term k.xpath d
      rw [if_neg (show d ∉ (w.run as).index.snapshot.deleted from hkept.1)] at hfind
      exact .inl hfind
    · refine .inr ⟨busy, ?_⟩
      have hfind := ((w.run as).index.sealMem busy).snapshot.find_lookup k.term k.xpath d
      rw [if_neg (by show d ∉ ((w.run as).index.sealMem busy).deleted; rw [sealMem_deleted]; exact hkept.1)] at hfind
      rw [lookup_publishSnapshot, hfind]
      rfl
  show ((s.lookup k.term k.xpath).find d).map Posting.positions = _
  rw [filed]
  refine congrArg _ ?_
  cases hfind : (as.flatMap documents).find? fun doc => doc.docId = d with
  | none =>
    -- no document has the id, so no part posts anything under it
    have hnone := absent_run hw hids hkey hnew fun x hx => by
      simpa using find?_eq_none.mp hfind x hx
    have hjoin : ∀ {rs : List Reader}, (∀ r ∈ rs, r.posting k d = none) →
        PostingList.joinAll (rs.map fun r => r.posting k d) = none := by
      intro rs hrs
      by_contra hne
      obtain ⟨o, ho, hsome⟩ := PostingList.joinAll_ne_none.mp hne
      obtain ⟨r, hr, rfl⟩ := mem_map.mp ho
      exact hsome (hrs r hr)
    rcases hshown with h | ⟨busy, h⟩
    · rw [h, hjoin hnone]
      rfl
    · rw [h, hjoin (absent_step (a := .publishSnapshot busy) hinv hnone)]
      rfl
  | some doc =>
    obtain rfl : doc.docId = d := by simpa using find?_some hfind
    have hdoc := mem_of_find?_eq_some hfind
    have hcarried : Carried doc k (w.run as).index.readers := carried_run hw hids hkey hnew hlive hdel hdoc
    rcases hshown with h | ⟨busy, h⟩
    · exact h.trans (joinAll_of_carriedOnce hcarried)
    · exact h.trans (joinAll_of_carriedOnce (carried_step (a := .publishSnapshot busy) hinv hkept hcarried))

/-- A filter on a snapshot of a run finds exactly what meets the query; under an id that no delete
touched stand, in the fields of the documents, the words the documents were added with. -/
theorem filter_exact {F : Type} {e : QueryExecutor F} (hindex : e.index = s.searched)
    (hplain : e.prepared = fun _ _ => none) (ctxs : List FieldCtx) (query : Query)
    (huncut : ∀ ctx ∈ ctxs, ∀ kx ∈ leafKeys ctx query, s.Uncut kx) :
    ∃ ids, e.evaluate ctxs .filter query = some (.docs ids) ∧
      (∀ d, d ∈ ids ↔ e.Meets ctxs (s.filing d) query) ∧
      ∀ d, d ∉ w.index.deleted → (∀ ok, .deleteDocument d ok ∉ as) →
        (∀ r ∈ w.index.readers, ∀ x, ¬ r.Holds x d) →
        ∀ k, (∀ x ∈ as.flatMap documents, ¬ x.RowKeyed k.xpath) →
          (s.filing d).positions k = filed (as.flatMap documents) d k := by
  obtain ⟨ids, heval, hmem⟩ := finds_evaluate hindex hplain query huncut
  exact ⟨ids, heval, hmem, fun d hlive hdel hnew k hkey => positions_shown hw hids hs hlive hdel hnew hkey⟩

end Run

def threeTexts : List IndexAction :=
  [.mergeIntoMemtable [⟨1, ⟨[⟨0, 2, [⟨"red", [0], 1⟩, ⟨"wine", [16], 1⟩]⟩], [], []⟩, []⟩,
      ⟨2, ⟨[⟨0, 1, [⟨"red", [0], 1⟩]⟩], [], []⟩, []⟩], .publishSnapshot fun _ => false,
    .mergeIntoMemtable [⟨3, ⟨[⟨0, 1, [⟨"wine", [0], 1⟩]⟩], [], []⟩, []⟩]]

theorem filter_exact_threeTexts :
    let s := ((start [] ∅).run threeTexts).index.snapshot
    let query := Query.and [.term "red", .phrase [⟨"red", 0⟩, ⟨"wine", 1⟩]]
    ∃ ids, (counting s.searched).evaluate [⟨0, none, false⟩] .filter query = some (.docs ids) ∧
      (∀ d, d ∈ ids ↔ (counting s.searched).Meets [⟨0, none, false⟩] (s.filing d) query) ∧
      (s.filing 1).positions ⟨0, "wine"⟩ = some [16] := by
  intro s query
  obtain ⟨ids, heval, hmem, hfiled⟩ := filter_exact (w := start [] ∅) (s := s) (Fresh.opened [] ∅ nodup_nil)
    (by decide) (.inl rfl : ((start [] ∅).run threeTexts).Shows s) (rfl : (counting s.searched).index = s.searched)
    rfl [⟨0, none, false⟩] query
    (by simp [query, leafKeys, leafKeysOfEach, leafKey, IndexSnapshot.Uncut])
  have hnew : ∀ r ∈ (start [] ∅).index.readers, ∀ x, ¬ r.Holds x 1 := by
    intro r hr x
    obtain rfl : r = Reader.mem new := mem_singleton.mp hr
    exact not_holds_new x 1
  have hwine := hfiled 1 (Finset.notMem_empty 1) (by simp [threeTexts]) hnew ⟨0, "wine"⟩
    (by simp [threeTexts, documents, AnalyzedDocument.RowKeyed])
  exact ⟨ids, heval, hmem, hwine.trans (by decide)⟩

end World

/-
Ranking documents that hold everything that is asked for in one field.

The terms of a field, or its clauses, leap from one common document to the next,
and the fields are merged: a document counts in each field that holds it all.
-/
import Riets.ClauseScores
import Riets.Merge

open List Keyed

/-- A term of a field, without the bound, which only the walk over any of the terms reads. -/
structure WandTerm where
  cursor : PostingCursor
  docFreq : ℕ
  deriving DecidableEq

/-- The terms of one field that must all occur in the same document. -/
structure FieldConjunction where
  xpath : XPathId
  terms : List WandTerm
  started : Bool
  deriving DecidableEq

def WandTerm.walker : Walker WandTerm DocId where
  doc := fun t => t.cursor.docId
  left := fun t => t.cursor.rest.length
  advanceTo := fun t target => { t with cursor := t.cursor.advanceTo target }

namespace FieldConjunction

/-- `none` when the field cannot match: no terms, or a term without postings. -/
def new (field : FieldTerms) : Option FieldConjunction :=
  if field.terms = [] ∨ field.terms.any (fun term => term.postings.items = []) then none
  else some ⟨field.xpath, field.terms.map fun term => ⟨PostingCursor.new term.postings, term.docFreq⟩, false⟩

/-- The next document that contains every term, after the one returned last; `none` when the loop
does not end.  The source also looks for an exhausted term right after a move, which the next turn
does here. -/
def nextMatch (c : FieldConjunction) : Option (Option DocId × FieldConjunction) :=
  let terms :=
    if c.started then c.terms.map fun t => { t with cursor := t.cursor.next }
    else c.terms
  (WandTerm.walker.leapRun terms).map fun r => (r.1, { c with terms := r.2, started := true })

end FieldConjunction

section Conjunction

variable {F : Type} (bm : Bm25 F) (stats : SearchStats F)

def FieldConjunction.score (c : FieldConjunction) : ℕ :=
  satSum (c.terms.map fun t => (t.cursor.current.map (bm.score stats c.xpath t.docFreq)).getD 0)

def fieldMerge (k : ℕ) (restrict : Option (Finset DocId)) :
    Merge.Search (FieldConjunction × Option DocId) DocId WandHit (ℕᵒᵈ ×ₗ DocId) where
  doc := Prod.snd
  next := fun field _ => field.1.nextMatch.map Prod.swap
  left := fun field => (field.1.terms.map fun t => t.cursor.rest.length).sum
  k := k
  allowed := allows restrict
  hit := fun on d =>
    let score := satSum (on.map fun field => field.1.score bm stats)
    ⟨d, score, score, (on.map fun field => field.1.terms.length).sum⟩
  rank := WandHit.rank

/-- The `k` best documents of the sum over the fields that hold all terms; `none` when a loop does
not end. -/
def conjunctiveTopKMultiField (fields : List FieldTerms) (k : ℕ) (restrict : Option (Finset DocId)) :
    Option (List WandHit) :=
  if k = 0 then some []
  else
    ((fields.filterMap FieldConjunction.new).mapM fun (c : FieldConjunction) => c.nextMatch.map Prod.swap).bind fun sources =>
      ((fieldMerge bm stats k restrict).top sources).map finishHeap

/-- The next document every clause is on, after `after`. -/
def nextCommon (clauses : List (ClauseCursor F)) (after : Option DocId) :
    Option (Option DocId × List (ClauseCursor F)) :=
  ClauseCursor.walker.leapRun (match after with
    | some doc => clauses.map fun clause => clause.stepPast doc
    | none => clauses)

def clauseMerge (k : ℕ) (restrict : Option (Finset DocId)) :
    Merge.Search (List (ClauseCursor F) × Option DocId) DocId WandHit (ℕᵒᵈ ×ₗ DocId) where
  doc := Prod.snd
  next := fun field d => (nextCommon field.1 (some d)).map Prod.swap
  left := fun field => (field.1.map ClauseCursor.walker.left).sum
  k := k
  allowed := allows restrict
  hit := fun on d =>
    let score := satSum (on.flatMap fun field => field.1.map fun clause => clause.score bm stats d)
    ⟨d, score, score, (on.map fun field => field.1.length).sum⟩
  rank := WandHit.rank

/-- Every clause of a field, or `none` when there is none or one of them cannot match. -/
def clauseCursors (field : FieldClauses) : Option (List (ClauseCursor F)) :=
  if field.clauses = [] then none else field.clauses.mapM (ClauseCursor.new bm stats)

/-- The `k` best documents of the sum over the fields that hold all clauses; `none` when a loop does
not end. -/
def conjunctiveTopKGrouped (fields : List FieldClauses) (k : ℕ) (restrict : Option (Finset DocId)) :
    Option (List WandHit) :=
  if k = 0 then some []
  else
    ((fields.filterMap (clauseCursors bm stats)).mapM fun (clauses : List (ClauseCursor F)) =>
      (nextCommon clauses none).map Prod.swap).bind fun sources =>
      ((clauseMerge bm stats k restrict).top sources).map finishHeap

/-- The scores of all words on a document, when it has them all. -/
def termScores (field : FieldTerms) (d : DocId) : Option (List ℕ) :=
  if field.terms = [] then none
  else field.terms.mapM fun (term : TermRef) =>
    (term.postings.find d).map (bm.score stats field.xpath term.docFreq)

def clauseScores (field : FieldClauses) (d : DocId) : Option (List ℕ) :=
  if field.clauses = [] then none
  else field.clauses.mapM fun forms => (clauseAt bm stats forms d).map Prod.fst

/-- A document with the sum and the number of its scores over several fields. -/
def sumHit (d : DocId) (fields : Multiset (List ℕ)) : WandHit :=
  let score := min (fields.map List.sum).sum u64Max
  ⟨d, score, score, (fields.map length).sum⟩

variable {bm stats}

theorem satSum_satSum (l : List (List ℕ)) : satSum (l.map satSum) = min (l.map sum).sum u64Max := by
  rw [satSum_eq]
  induction l with
  | nil => rfl
  | cons scores l ih =>
    rw [map_cons, map_cons, sum_cons, sum_cons, satSum_eq]
    omega

/-! ### The terms of a field -/

def WandTerm.entries (bm : Bm25 F) (stats : SearchStats F) (x : XPathId) (t : WandTerm) :
    List (DocId × ℕ) :=
  t.cursor.rest.map fun p => (p.docId, bm.score stats x t.docFreq p)

theorem WandTerm.lawful (x : XPathId) :
    WandTerm.walker.Lawful (fun _ => True) (WandTerm.entries bm stats x) where
  ascending := fun t _ => pairwise_map.mpr t.cursor.ascending_rest
  doc_eq := by
    intro t _
    change t.cursor.docId = _
    rw [entries, head?_map, Option.map_map, PostingCursor.docId, PostingCursor.current_eq]
    rfl
  length_le := fun t _ => (length_map _).le
  ok_advanceTo := fun _ _ _ => trivial
  entries_advanceTo := by
    intro t target _
    change map _ (t.cursor.advanceTo target).rest = _
    rw [PostingCursor.rest_advanceTo, entries, filter_map]
    rfl

theorem WandTerm.entries_next {x : XPathId} {t : WandTerm} {d : DocId} (hd : t.cursor.docId = some d) :
    WandTerm.entries bm stats x { t with cursor := t.cursor.next } =
      (t.entries bm stats x).filter fun e => e.1 ≠ d := by
  have hlawful := @WandTerm.lawful _ bm stats x
  have hle : ∀ e ∈ t.entries bm stats x, d ≤ e.1 := fun e he => hlawful.le_of_mem trivial hd he
  rw [filter_ne_eq (hlawful.ascending t trivial) hle, ← hlawful.doc_eq t trivial]
  change _ = if t.cursor.docId = some d then _ else _
  rw [if_pos hd, entries, PostingCursor.rest_next, map_tail]
  rfl

theorem WandTerm.value_eq {x : XPathId} {t : WandTerm} {d : DocId} (hd : t.cursor.docId = some d) :
    value d (t.entries bm stats x) =
      some ((t.cursor.current.map (bm.score stats x t.docFreq)).getD 0) := by
  rw [PostingCursor.docId, PostingCursor.current_eq] at hd
  obtain ⟨p, hp, rfl⟩ := Option.map_eq_some_iff.mp hd
  have hmem : (p.docId, bm.score stats x t.docFreq p) ∈ t.entries bm stats x :=
    mem_map.mpr ⟨p, mem_of_head? hp, rfl⟩
  rw [value_of_mem ((WandTerm.lawful x).ascending t trivial) hmem, PostingCursor.current_eq, hp]
  rfl

namespace FieldConjunction

open WandTerm

def entries (bm : Bm25 F) (stats : SearchStats F) (c : FieldConjunction) : List (DocId × List ℕ) :=
  meetAll (c.terms.map (WandTerm.entries bm stats c.xpath))

def Ok (bm : Bm25 F) (stats : SearchStats F) (field : FieldConjunction × Option DocId) : Prop :=
  field.1.started = true ∧ walker.On (fun _ => True) (WandTerm.entries bm stats field.1.xpath)
    field.1.terms field.2

variable {c : FieldConjunction}

theorem nextMatch_start (hstart : c.started = false) (hne : c.terms ≠ []) :
    ∃ r, c.nextMatch = some r ∧ Ok bm stats r.swap ∧ r.2.entries bm stats = c.entries bm stats := by
  obtain ⟨r, hr, hon, hmeet⟩ := (lawful c.xpath).on_leapRun hne
    fun _ _ => trivial
  refine ⟨(r.1, { c with terms := r.2, started := true }), ?_, ⟨rfl, hon⟩, hmeet⟩
  rw [nextMatch, hstart]
  simp only [Bool.false_eq_true, if_false, hr, Option.map_some]

theorem nextMatch_next {d : DocId} (h : Ok bm stats (c, some d)) :
    ∃ r, c.nextMatch = some r ∧ Ok bm stats r.swap ∧
      r.2.entries bm stats = (c.entries bm stats).filter fun e => e.1 ≠ d := by
  obtain ⟨hstart, hon⟩ := h
  obtain ⟨r, hr, hon', hmeet⟩ := (lawful c.xpath).on_pass hon fun t _ hd => ⟨trivial, entries_next hd⟩
  refine ⟨(r.1, { c with terms := r.2, started := true }), ?_, ⟨rfl, hon'⟩, hmeet⟩
  rw [nextMatch, show c.started = true from hstart]
  simp only [if_true, hr, Option.map_some]

theorem value_entries {d : DocId} (h : Ok bm stats (c, some d)) :
    value d (c.entries bm stats) =
      some (c.terms.map fun t => (t.cursor.current.map (bm.score stats c.xpath t.docFreq)).getD 0) :=
  h.2.value_eq (lawful c.xpath) fun t ht => value_eq (h.2.on d rfl t ht)

end FieldConjunction

theorem rank_sumHit (d d' : DocId) (m m' : Multiset (List ℕ))
    (h : (sumHit d m).rank = (sumHit d' m').rank) : d = d' :=
  congrArg (fun r => (ofLex r).2) h

theorem fieldMerge_lawful {k : ℕ} (hk : 0 < k) (restrict : Option (Finset DocId)) :
    (fieldMerge bm stats k restrict).Lawful (FieldConjunction.Ok bm stats)
      (fun field => field.1.entries bm stats) sumHit where
  ascending := by
    intro field _
    exact ascending_meetAll ((WandTerm.lawful field.1.xpath).ascending_of_mem fun _ _ => trivial)
  doc_eq := fun _ h => h.2.doc_eq
  length_le := fun field h => h.2.length_le (WandTerm.lawful field.1.xpath)
  next := by
    rintro ⟨c, here⟩ d h hd
    obtain rfl : here = some d := hd
    obtain ⟨r, hr, hok, hentries⟩ := FieldConjunction.nextMatch_next h
    exact ⟨r.swap, by simp [fieldMerge, hr], hok, hentries⟩
  hit := by
    intro on d hon
    have hvalues : on.filterMap (fun field => value d (field.1.entries bm stats)) =
        on.map fun field => field.1.terms.map fun t =>
          (t.cursor.current.map (bm.score stats field.1.xpath t.docFreq)).getD 0 := by
      refine filterMap_eq_map_iff_forall_eq_some.mpr fun field hfield => ?_
      obtain ⟨hok, hd⟩ := hon field hfield
      obtain ⟨c, here⟩ := field
      obtain rfl : here = some d := hd
      exact FieldConjunction.value_entries hok
    rw [hvalues, sumHit, Multiset.map_coe, Multiset.map_coe, Multiset.sum_coe, Multiset.sum_coe,
      ← satSum_satSum, map_map, map_map]
    simp only [fieldMerge, Function.comp_def, length_map]
    rfl
  rank_hit := rank_sumHit
  k_pos := hk

/-! ### All terms in one field -/

theorem mapM_of_forall {α β : Type} {f : α → Option β} {P : α → β → Prop} {Q : β → Prop} {l : List α}
    (h : ∀ a ∈ l, ∃ b, f a = some b ∧ Q b ∧ P a b) :
    ∃ bs, l.mapM f = some bs ∧ (∀ b ∈ bs, Q b) ∧ Forall₂ P l bs := by
  induction l with
  | nil => exact ⟨[], rfl, by simp, Forall₂.nil⟩
  | cons a l ih =>
    obtain ⟨b, hb, hQ, hP⟩ := h a mem_cons_self
    obtain ⟨bs, hbs, hrestQ, hrestP⟩ := ih fun a' ha' => h a' (mem_cons_of_mem a ha')
    refine ⟨b :: bs, ?_, ?_, Forall₂.cons hP hrestP⟩
    · rw [mapM_cons, hb, hbs]
      rfl
    · intro b' hb'
      rcases mem_cons.mp hb' with rfl | hb'
      · exact hQ
      · exact hrestQ b' hb'

/-- The fields that can match are started, and hold the documents of all fields. -/
theorem started_sources {ι γ σ V : Type} {make : ι → Option γ} {start : γ → Option σ} {P : σ → Prop}
    {entries : σ → List (DocId × V)} {scores : ι → DocId → Option V}
    (h : ∀ field, make field = none ∧ (∀ d, scores field d = none) ∨ ∃ c source, make field = some c ∧
      start c = some source ∧ P source ∧ ∀ d, value d (entries source) = scores field d) (fields : List ι) :
    ∃ sources, (fields.filterMap make).mapM start = some sources ∧ (∀ source ∈ sources, P source) ∧
      ∀ d, Merge.Search.heldBy entries sources d = ↑(fields.filterMap fun field => scores field d) := by
  induction fields with
  | nil => exact ⟨[], rfl, by simp, fun d => rfl⟩
  | cons field fields ih =>
    obtain ⟨sources, hsources, hP, hheld⟩ := ih
    rcases h field with ⟨hmake, hscores⟩ | ⟨c, source, hmake, hstart, hsource, hscores⟩
    · refine ⟨sources, by rwa [filterMap_cons_none hmake], hP, fun d => ?_⟩
      rw [hheld, filterMap_cons, hscores]
    · refine ⟨source :: sources, ?_, forall_mem_cons.mpr ⟨hsource, hP⟩, fun d => ?_⟩
      · rw [filterMap_cons_some hmake, mapM_cons, hstart, hsources]
        rfl
      · rw [Merge.Search.heldBy, filterMap_cons, filterMap_cons, hscores]
        cases scores field d with
        | none => exact hheld d
        | some v => exact congrArg (v ::ₘ ·) (hheld d)

theorem mapM_of_forall₂ {α β γ : Type} {f : α → Option γ} {g : β → Option γ} {l : List α} {l' : List β}
    (h : Forall₂ (fun a b => f a = g b) l l') : l'.mapM g = l.mapM f := by
  induction h with
  | nil => rfl
  | cons hab _ ih => rw [mapM_cons, mapM_cons, ih, hab]

theorem FieldConjunction.new_spec (field : FieldTerms) :
    FieldConjunction.new field = none ∧ (∀ d, termScores bm stats field d = none) ∨
      ∃ c source, FieldConjunction.new field = some c ∧ c.nextMatch.map Prod.swap = some source ∧
        Ok bm stats source ∧ ∀ d, value d (source.1.entries bm stats) = termScores bm stats field d := by
  rw [FieldConjunction.new]
  split_ifs with hempty
  · refine .inl ⟨rfl, fun d => ?_⟩
    rw [termScores]
    split_ifs with hnil
    · rfl
    · obtain ⟨term, hterm, hitems⟩ := any_eq_true.mp (hempty.resolve_left hnil)
      refine mapM_eq_none_of_mem hterm ?_
      rw [PostingList.find, of_decide_eq_true hitems]
      rfl
  · have hne : field.terms ≠ [] := fun hnil => hempty (.inl hnil)
    obtain ⟨r, hr, hok, hentries⟩ := nextMatch_start (c := ⟨field.xpath, field.terms.map fun term =>
      ⟨PostingCursor.new term.postings, term.docFreq⟩, false⟩) rfl (by simpa using hne)
    refine .inr ⟨_, r.swap, rfl, by rw [hr]; rfl, hok, fun d => ?_⟩
    rw [Prod.fst_swap, hentries, entries, value_meetAll ((WandTerm.lawful field.xpath).ascending_of_mem fun _ _ => trivial)
      (by simpa using hne), map_map, mapM_map, termScores, if_neg hne]
    refine congrArg (fun g => field.terms.mapM g) (funext fun term => ?_)
    exact value_new term.postings _ d

variable {d : DocId}

theorem holds_of_termScores {field : FieldTerms} {scores : List ℕ}
    (h : termScores bm stats field d = some scores) :
    field.terms ≠ [] ∧ ∀ term ∈ field.terms, d ∈ term.postings.ids := by
  rw [termScores, Option.ite_none_left_eq_some] at h
  refine ⟨h.1, fun term hterm => ?_⟩
  cases hp : term.postings.find d with
  | none =>
    rw [mapM_eq_none_of_mem hterm (by rw [hp]; rfl)] at h
    exact absurd h.2 (by simp)
  | some p =>
    have hkey : p.docId = d := find_key hp
    exact mem_map.mpr ⟨p, find_mem hp, hkey⟩

/-- The allowed documents with all words in some field. -/
def conjunctiveDocs (bm : Bm25 F) (stats : SearchStats F) (fields : List FieldTerms)
    (restrict : Option (Finset DocId)) : List DocId :=
  (docsOf fields).filter fun d => allows restrict d && fields.any fun field => (termScores bm stats field d).isSome

variable {restrict : Option (Finset DocId)}

theorem mem_conjunctiveDocs {fields : List FieldTerms} :
    d ∈ conjunctiveDocs bm stats fields restrict ↔
      allows restrict d = true ∧ fields.filterMap (fun field => termScores bm stats field d) ≠ [] := by
  rw [conjunctiveDocs, mem_filter, Bool.and_eq_true, any_eq_true, Ne, filterMap_eq_nil_iff]
  simp only [not_forall, Option.isSome_iff_ne_none, exists_prop]
  constructor
  · exact fun h => h.2
  · rintro ⟨hallowed, field, hfield, hscores⟩
    refine ⟨mem_docsOf.mpr ⟨field, hfield, ?_⟩, hallowed, field, hfield, hscores⟩
    obtain ⟨scores, hscores⟩ := Option.ne_none_iff_exists'.mp hscores
    obtain ⟨hne, hall⟩ := holds_of_termScores hscores
    obtain ⟨term, hterm⟩ := exists_mem_of_ne_nil _ hne
    exact ⟨term, hterm, hall term hterm⟩

theorem conjunctiveTopKMultiField_eq (fields : List FieldTerms) {k : ℕ} (hk : 0 < k)
    (restrict : Option (Finset DocId)) : conjunctiveTopKMultiField bm stats fields k restrict =
      some (TopK.best WandHit.rank k ((conjunctiveDocs bm stats fields restrict).map fun d =>
        sumHit d ↑(fields.filterMap fun field => termScores bm stats field d))) := by
  obtain ⟨sources, hsources, hok, hheld⟩ := started_sources FieldConjunction.new_spec fields
  have hnodup : (conjunctiveDocs bm stats fields restrict).Nodup := (nodup_docsOf fields).filter _
  have htop := (fieldMerge_lawful hk restrict).top_eq hok hnodup fun d => by
      rw [mem_conjunctiveDocs, hheld, Merge.Search.Wanted]
      exact and_congr Iff.rfl (not_congr (Multiset.coe_eq_zero _).symm)
  simp only [hheld] at htop
  rw [conjunctiveTopKMultiField, if_neg hk.ne', hsources, Option.bind_some]
  exact htop

/-! ### All clauses in one field -/

/-- The clauses of a field have been moved to their first common document. -/
def ClausesOn (bm : Bm25 F) (stats : SearchStats F) (field : List (ClauseCursor F) × Option DocId) : Prop :=
  ClauseCursor.walker.On (ClauseCursor.Ok bm stats) (ClauseCursor.entries bm stats) field.1 field.2

theorem nextCommon_next {cs : List (ClauseCursor F)} (h : ClausesOn bm stats (cs, some d)) :
    ∃ r, nextCommon cs (some d) = some r ∧ ClausesOn bm stats r.swap ∧
      meetAll (r.2.map (ClauseCursor.entries bm stats)) =
        (meetAll (cs.map (ClauseCursor.entries bm stats))).filter fun e => e.1 ≠ d := by
  refine ClauseCursor.lawful.on_pass h fun c hc hd => ?_
  exact hc.stepPast fun e he => ClauseCursor.lawful.le_of_mem hc hd he

theorem clauseMerge_lawful {k : ℕ} (hk : 0 < k) (restrict : Option (Finset DocId)) :
    (clauseMerge bm stats k restrict).Lawful (ClausesOn bm stats)
      (fun field => meetAll (field.1.map (ClauseCursor.entries bm stats))) sumHit where
  ascending := fun field h => ascending_meetAll (ClauseCursor.lawful.ascending_of_mem h.ok)
  doc_eq := fun _ h => h.doc_eq
  length_le := fun _ h => h.length_le ClauseCursor.lawful
  next := by
    rintro ⟨cs, here⟩ d h hd
    obtain rfl : here = some d := hd
    obtain ⟨r, hr, hok, hentries⟩ := nextCommon_next h
    exact ⟨r.swap, by simp [clauseMerge, hr], hok, hentries⟩
  hit := by
    intro on d hon
    have hvalues : on.filterMap (fun field => value d
        (meetAll (field.1.map (ClauseCursor.entries bm stats)))) =
        on.map fun field => field.1.map fun clause => clause.score bm stats d := by
      refine filterMap_eq_map_iff_forall_eq_some.mpr fun field hfield => ?_
      obtain ⟨hok, hd⟩ := hon field hfield
      obtain ⟨cs, here⟩ := field
      obtain rfl : here = some d := hd
      exact hok.value_eq ClauseCursor.lawful fun c hc => (hok.ok c hc).score_eq (hok.on d rfl c hc)
    rw [hvalues, sumHit, Multiset.map_coe, Multiset.map_coe, Multiset.sum_coe, Multiset.sum_coe,
      map_map, map_map]
    simp only [clauseMerge, satSum_eq, flatMap_def, sum_flatten, map_map, Function.comp_def,
      length_map]
  rank_hit := rank_sumHit
  k_pos := hk

theorem clauses_spec (field : FieldClauses) :
    clauseCursors bm stats field = none ∧ (∀ d, clauseScores bm stats field d = none) ∨
      ∃ cs source, clauseCursors bm stats field = some cs ∧ (nextCommon cs none).map Prod.swap = some source ∧
        ClausesOn bm stats source ∧ ∀ d, value d (meetAll (source.1.map (ClauseCursor.entries bm stats))) =
          clauseScores bm stats field d := by
  rw [clauseCursors]
  split_ifs with hnil
  · refine .inl ⟨rfl, fun d => ?_⟩
    rw [clauseScores, if_pos hnil]
  · by_cases hall : ∀ forms ∈ field.clauses, ∃ c, ClauseCursor.new bm stats forms = some c
    · have hnew : ∀ forms ∈ field.clauses, ∃ c, ClauseCursor.new bm stats forms = some c ∧ c.Ok bm stats ∧
          ∀ d, value d (c.entries bm stats) = (clauseAt bm stats forms d).map Prod.fst := by
        intro forms hforms
        obtain ⟨c, hc⟩ := hall forms hforms
        refine ⟨c, hc, ok_new hc, fun d => ?_⟩
        rw [← ClauseCursor.value_new_clause, hc, Option.bind_some, Option.map_map]
        exact Option.map_id'.symm
      obtain ⟨cs, hcs, hok, hpairs⟩ := mapM_of_forall hnew
      have hne : cs ≠ [] := by
        rintro rfl
        rw [forall₂_nil_right_iff] at hpairs
        exact hnil hpairs
      obtain ⟨r, hr, hon, hmeet⟩ := ClauseCursor.lawful.on_leapRun hne hok
      refine .inr ⟨cs, r.swap, hcs, by rw [nextCommon, hr]; rfl, hon, fun d => ?_⟩
      rw [Prod.fst_swap, hmeet, value_meetAll (ClauseCursor.lawful.ascending_of_mem hok) (by simpa using hne),
        clauseScores, if_neg hnil, mapM_map]
      exact mapM_of_forall₂ (hpairs.imp fun forms c hvalue => (hvalue d).symm)
    · -- a clause that cannot match is on no document
      push Not at hall
      obtain ⟨forms, hforms, hnone⟩ := hall
      have hnew : ClauseCursor.new bm stats forms = none := Option.eq_none_iff_forall_ne_some.mpr hnone
      refine .inl ⟨mapM_eq_none_of_mem hforms hnew, fun d => ?_⟩
      rw [clauseScores, if_neg hnil]
      refine mapM_eq_none_of_mem hforms ?_
      rw [← ClauseCursor.value_new_clause, hnew]
      rfl

theorem holds_of_clauseScores {field : FieldClauses} {scores : List ℕ}
    (h : clauseScores bm stats field d = some scores) :
    field.clauses ≠ [] ∧ ∀ forms ∈ field.clauses, formScores bm stats forms d ≠ [] := by
  rw [clauseScores, Option.ite_none_left_eq_some] at h
  refine ⟨h.1, fun forms hforms hnil => ?_⟩
  have hnone : clauseAt bm stats forms d = none := if_pos hnil
  rw [mapM_eq_none_of_mem hforms (by rw [hnone]; rfl)] at h
  exact absurd h.2 (by simp)

def conjunctiveClauseDocs (bm : Bm25 F) (stats : SearchStats F) (fields : List FieldClauses)
    (restrict : Option (Finset DocId)) : List DocId :=
  (clauseDocs fields).filter fun d =>
    allows restrict d && fields.any fun field => (clauseScores bm stats field d).isSome

theorem mem_conjunctiveClauseDocs {fields : List FieldClauses} :
    d ∈ conjunctiveClauseDocs bm stats fields restrict ↔
      allows restrict d = true ∧ fields.filterMap (fun field => clauseScores bm stats field d) ≠ [] := by
  rw [conjunctiveClauseDocs, mem_filter, Bool.and_eq_true, any_eq_true, Ne, filterMap_eq_nil_iff]
  simp only [not_forall, Option.isSome_iff_ne_none, exists_prop]
  constructor
  · exact fun h => h.2
  · rintro ⟨hallowed, field, hfield, hscores⟩
    refine ⟨?_, hallowed, field, hfield, hscores⟩
    obtain ⟨scores, hscores⟩ := Option.ne_none_iff_exists'.mp hscores
    obtain ⟨hne, hall⟩ := holds_of_clauseScores hscores
    obtain ⟨forms, hforms⟩ := exists_mem_of_ne_nil _ hne
    have hat : clauseAt bm stats forms d = some (bestPerField (formScores bm stats forms d),
        bestPerField (formBounds bm stats forms)) := if_neg (hall forms hforms)
    exact mem_clauseDocs (mem_flatMap.mpr ⟨field, hfield, mem_filterMap.mpr ⟨forms, hforms, hat⟩⟩)

theorem conjunctiveTopKGrouped_eq (fields : List FieldClauses) {k : ℕ} (hk : 0 < k)
    (restrict : Option (Finset DocId)) : conjunctiveTopKGrouped bm stats fields k restrict =
      some (TopK.best WandHit.rank k ((conjunctiveClauseDocs bm stats fields restrict).map fun d =>
        sumHit d ↑(fields.filterMap fun field => clauseScores bm stats field d))) := by
  obtain ⟨sources, hsources, hok, hheld⟩ := started_sources clauses_spec fields
  have hnodup : (conjunctiveClauseDocs bm stats fields restrict).Nodup := (nodup_clauseDocs fields).filter _
  have htop := (clauseMerge_lawful hk restrict).top_eq hok hnodup fun d => by
      rw [mem_conjunctiveClauseDocs, hheld, Merge.Search.Wanted]
      exact and_congr Iff.rfl (not_congr (Multiset.coe_eq_zero _).symm)
  simp only [hheld] at htop
  rw [conjunctiveTopKGrouped, if_neg hk.ne', hsources, Option.bind_some]
  exact htop

/-- Both searches for everything in one field are exact: they end, also the leap of a form, and
return the best documents of the sum over the fields that hold everything, and no document that no
field holds everything of. -/
theorem conjunctiveTopK_exact (terms : List FieldTerms) (clauses : List FieldClauses) (k : ℕ)
    (restrict : Option (Finset DocId)) :
    (∀ cursors : List PostingCursor, cursors ≠ [] → (PostingCursor.walker.leapRun cursors).isSome) ∧
    (∃ hits, conjunctiveTopKMultiField bm stats terms k restrict = some hits ∧
      hits = TopK.best WandHit.rank k ((conjunctiveDocs bm stats terms restrict).map fun d =>
        sumHit d ↑(terms.filterMap fun field => termScores bm stats field d)) ∧
      ∀ hit ∈ hits, ∃ field ∈ terms, field.terms ≠ [] ∧
        ∀ term ∈ field.terms, hit.docId ∈ term.postings.ids) ∧
    ∃ hits, conjunctiveTopKGrouped bm stats clauses k restrict = some hits ∧
      hits = TopK.best WandHit.rank k ((conjunctiveClauseDocs bm stats clauses restrict).map fun d =>
        sumHit d ↑(clauses.filterMap fun field => clauseScores bm stats field d)) ∧
      ∀ hit ∈ hits, ∃ field ∈ clauses, field.clauses ≠ [] ∧
        ∀ forms ∈ field.clauses, formScores bm stats forms hit.docId ≠ [] := by
  refine ⟨fun cursors hne => ?_, ?_, ?_⟩
  · obtain ⟨r, hr, -⟩ := PostingCursor.lawful.leapRun_spec hne fun _ _ => trivial
    rw [hr]
    rfl
  · refine ⟨_, ?_, rfl, fun hit hhit => ?_⟩
    · rcases Nat.eq_zero_or_pos k with rfl | hk
      · exact congrArg some take_zero.symm
      · exact conjunctiveTopKMultiField_eq terms hk restrict
    · obtain ⟨d, hd, rfl⟩ := mem_map.mp (TopK.mem_of_mem_best hhit)
      obtain ⟨scores, hscores⟩ := exists_mem_of_ne_nil _ (mem_conjunctiveDocs.mp hd).2
      obtain ⟨field, hfield, hscores⟩ := mem_filterMap.mp hscores
      exact ⟨field, hfield, holds_of_termScores hscores⟩
  · refine ⟨_, ?_, rfl, fun hit hhit => ?_⟩
    · rcases Nat.eq_zero_or_pos k with rfl | hk
      · exact congrArg some take_zero.symm
      · exact conjunctiveTopKGrouped_eq clauses hk restrict
    · obtain ⟨d, hd, rfl⟩ := mem_map.mp (TopK.mem_of_mem_best hhit)
      obtain ⟨scores, hscores⟩ := exists_mem_of_ne_nil _ (mem_conjunctiveClauseDocs.mp hd).2
      obtain ⟨field, hfield, hscores⟩ := mem_filterMap.mp hscores
      exact ⟨field, hfield, holds_of_clauseScores hscores⟩

end Conjunction

/-
What the ranking by clause returns.

A document counts a form when all lists of the form hold it, a clause by the best
of its forms in each field, and a query by the sum over its clauses.
-/
import Riets.WandGrouped

open List ClauseCursor PostingList Keyed

section ClauseScores

variable {F : Type} (bm : Bm25 F) (stats : SearchStats F)

/-! ### Scores and bounds -/

namespace FormRef

/-- A form without an empty list. -/
def CanMatch (form : FormRef) : Prop :=
  ¬(form.lists = [] ∨ form.lists.any (fun list => list.postings.items = []))

instance (form : FormRef) : Decidable form.CanMatch := inferInstanceAs (Decidable (¬_))

/-- The weighted score of a document that all lists of a form hold. -/
def scoreAt (form : FormRef) (d : DocId) : Option ℕ :=
  if form.lists = [] then none
  else (form.lists.mapM fun (list : TermRef) => (list.postings.find d).map (bm.score stats form.xpath list.docFreq)).map
    fun scores => weighted (satSum scores) form.weight

/-- The most a form can add. -/
def bound (form : FormRef) : ℕ :=
  weighted (satSum (form.lists.map fun list =>
    bm.upperBound list.maxWeight (stats.docCount form.xpath) list.docFreq)) form.weight

/-- No posting of the form scores above the bound of its list. -/
def Bounded (form : FormRef) : Prop :=
  ∀ list ∈ form.lists, ∀ p ∈ list.postings.items, bm.score stats form.xpath list.docFreq p ≤
    bm.upperBound list.maxWeight (stats.docCount form.xpath) list.docFreq

end FormRef

/-- What each form that matches a document scores, with its field. -/
def formScores (forms : List FormRef) (d : DocId) : List (ℕ × ℕ) :=
  forms.filterMap fun form => (form.scoreAt bm stats d).map fun v => (form.field, v)

def formBounds (forms : List FormRef) : List (ℕ × ℕ) :=
  (forms.filter fun form => form.CanMatch).map fun form => (form.field, form.bound bm stats)

/-- The score of a clause on a document, and its bound. -/
def clauseAt (forms : List FormRef) (d : DocId) : Option (ℕ × ℕ) :=
  if formScores bm stats forms d = [] then none
  else some (bestPerField (formScores bm stats forms d), bestPerField (formBounds bm stats forms))

/-- The clauses that match a document. -/
def clausesOn (fields : List FieldClauses) (d : DocId) : List (ℕ × ℕ) :=
  fields.flatMap fun field => field.clauses.filterMap fun forms => clauseAt bm stats forms d

def ClausesBounded (fields : List FieldClauses) : Prop :=
  ∀ field ∈ fields, ∀ forms ∈ field.clauses, ∀ form ∈ forms, form.Bounded bm stats

variable {bm stats}

theorem weighted_mono {a b : ℕ} (h : a ≤ b) (weight : ℕ) : weighted a weight ≤ weighted b weight := by
  have hmul : satMul a weight ≤ satMul b weight := min_le_min_right _ (Nat.mul_le_mul_right weight h)
  exact Nat.div_le_div_right hmul

theorem satSum_mono {l l' : List ℕ} (h : Forall₂ (· ≤ ·) l l') : satSum l ≤ satSum l' := by
  rw [satSum_eq, satSum_eq]
  exact min_le_min_right _ h.sum_le_sum

theorem value_map {D V W : Type} [LinearOrder D] (g : V → W) (l : List (D × V)) (d : D) :
    value d (l.map fun e => (e.1, g e.2)) = (value d l).map g := by
  induction l with
  | nil => rfl
  | cons e l ih =>
    rw [map_cons, value_cons, value_cons, ih]
    split_ifs <;> rfl

theorem mapM_zipWith {α β γ δ : Type} (f : α → Option β) (g : β → γ → δ) (h : α → γ) (l : List α) :
    (l.mapM f).map (fun bs => zipWith g bs (l.map h)) = l.mapM fun a => (f a).map fun b => g b (h a) := by
  induction l with
  | nil => rfl
  | cons a l ih =>
    rw [mapM_cons, mapM_cons, ← ih]
    cases f a with
    | none => rfl
    | some b => cases l.mapM f <;> rfl

theorem mapM_forall₂ {α : Type} {f : α → Option ℕ} {bound : α → ℕ} {l : List α} {vs : List ℕ}
    (hf : ∀ a ∈ l, ∀ v, f a = some v → v ≤ bound a) (h : l.mapM f = some vs) :
    Forall₂ (· ≤ ·) vs (l.map bound) := by
  induction l generalizing vs with
  | nil =>
    obtain rfl : [] = vs := Option.some_inj.mp h
    exact Forall₂.nil
  | cons a l ih =>
    rw [mapM_cons] at h
    obtain ⟨v, hv, h⟩ := Option.bind_eq_some_iff.mp h
    obtain ⟨vs', hvs', h⟩ := Option.bind_eq_some_iff.mp h
    obtain rfl : v :: vs' = vs := Option.some_inj.mp h
    exact Forall₂.cons (hf a mem_cons_self v hv)
      (ih (fun a' ha' => hf a' (mem_cons_of_mem a ha')) hvs')

theorem mapM_eq_none_of_mem {α β : Type} {f : α → Option β} {a : α} {l : List α} (ha : a ∈ l)
    (hf : f a = none) : l.mapM f = none := by
  induction l with
  | nil => exact absurd ha not_mem_nil
  | cons b l ih =>
    rw [mapM_cons]
    rcases mem_cons.mp ha with rfl | ha
    · rw [hf]
      rfl
    · rw [ih ha]
      cases f b <;> rfl

theorem FormRef.Bounded.scoreAt_le {form : FormRef} (h : form.Bounded bm stats) {d : DocId} {v : ℕ}
    (hv : form.scoreAt bm stats d = some v) : v ≤ form.bound bm stats := by
  rw [scoreAt, Option.ite_none_left_eq_some] at hv
  obtain ⟨-, hv⟩ := hv
  obtain ⟨scores, hscores, rfl⟩ := Option.map_eq_some_iff.mp hv
  refine weighted_mono (satSum_mono (mapM_forall₂ (fun list hlist v hv => ?_) hscores)) form.weight
  obtain ⟨p, hp, rfl⟩ := Option.map_eq_some_iff.mp hv
  exact h list hlist p (find_mem hp)

theorem FormRef.scoreAt_of_not_canMatch {form : FormRef} (h : ¬form.CanMatch) (d : DocId) :
    form.scoreAt bm stats d = none := by
  rw [scoreAt]
  split_ifs with hnil
  · rfl
  · rcases not_not.mp h with hnil' | hany
    · exact absurd hnil' hnil
    · obtain ⟨list, hlist, hempty⟩ := any_eq_true.mp hany
      have hnone : list.postings.find d = none := by
        rw [PostingList.find, of_decide_eq_true hempty]
        rfl
      rw [Option.map_eq_none_iff]
      refine mapM_eq_none_of_mem hlist ?_
      rw [hnone]
      rfl

namespace FormCursor

open Keyed List

theorem new_spec (form : FormRef) :
    new bm stats form = none ∧ ¬form.CanMatch ∨
      ∃ f, new bm stats form = some f ∧ form.CanMatch ∧ f.Ok bm stats ∧ f.field = form.field ∧
        f.upperBound = form.bound bm stats ∧
        ∀ d, value d (f.entries bm stats) = form.scoreAt bm stats d := by
  by_cases hcan : form.CanMatch
  · have hne : form.lists ≠ [] := fun hnil => hcan (.inl hnil)
    let f : FormCursor F := ⟨form.field,
      (form.lists.map fun list => bm.rarity (stats.docCount form.xpath) list.docFreq).foldl bm.add bm.zero,
      form.lists.map fun list => PostingCursor.new list.postings, form.lists.map TermRef.docFreq,
      form.xpath, form.weight, form.bound bm stats, none⟩
    have hcursors : f.cursors ≠ [] := fun hnil => hne (map_eq_nil_iff.mp hnil)
    have hnew : new bm stats form = some f.align := if_neg hcan
    have hvalue : ∀ d, value d (f.entries bm stats) = form.scoreAt bm stats d := by
      intro d
      have hlists : (f.cursors.map PostingCursor.entries).mapM (value d) =
          form.lists.mapM fun list => list.postings.find d := by
        rw [map_map, mapM_map]
        refine congrArg (fun g => form.lists.mapM g) (funext fun list => ?_)
        exact (value_new list.postings id d).trans Option.map_id'
      have hentries : value d (f.entries bm stats) =
          (value d (meetAll (f.cursors.map PostingCursor.entries))).map fun ps =>
            weighted (satSum (zipWith (fun p docFreq => bm.score stats f.xpath docFreq p) ps f.docFreqs))
              f.weight :=
        value_map (fun ps => weighted (satSum (zipWith (fun p docFreq =>
          bm.score stats f.xpath docFreq p) ps f.docFreqs)) f.weight) _ d
      have hzip := mapM_zipWith (fun list : TermRef => list.postings.find d)
        (fun p docFreq => bm.score stats form.xpath docFreq p) TermRef.docFreq form.lists
      rw [hentries, value_meetAll f.ascending_cursors (by simpa using hcursors), hlists,
        FormRef.scoreAt, if_neg hne, ← hzip, Option.map_map]
      rfl
    obtain ⟨hentries, -, -, -, hupper, hfield⟩ := f.align_spec hcursors
    refine .inr ⟨f.align, hnew, hcan, Ok.align hcursors, hfield, hupper, fun d => ?_⟩
    rw [hentries, hvalue]
  · exact .inl ⟨if_pos (not_not.mp hcan), hcan⟩

end FormCursor

namespace ClauseCursor

open List

theorem newForms_spec (forms : List FormRef) :
    (∀ f ∈ forms.filterMap (FormCursor.new bm stats), f.Ok bm stats) ∧
      (forms.filterMap (FormCursor.new bm stats)).map (fun f => (f.field, f.upperBound)) =
        formBounds bm stats forms ∧
      ∀ d, ((forms.filterMap (FormCursor.new bm stats)).filterMap fun f =>
        (value d (f.entries bm stats)).map fun v => (f.field, v)) = formScores bm stats forms d := by
  induction forms with
  | nil => exact ⟨by simp, rfl, fun _ => rfl⟩
  | cons form forms ih =>
    obtain ⟨hok, hbounds, hscores⟩ := ih
    rcases FormCursor.new_spec form with ⟨hnew, hcan⟩ |
      ⟨f, hnew, hcan, hf, hfield, hupper, hvalue⟩
    · -- a form that cannot match adds nothing
      rw [filterMap_cons_none hnew]
      refine ⟨hok, ?_, fun d => ?_⟩
      · rw [hbounds, formBounds, formBounds, filter_cons_of_neg (by simpa using hcan)]
      · rw [hscores, formScores, formScores, filterMap_cons_none]
        rw [FormRef.scoreAt_of_not_canMatch hcan]
        rfl
    · rw [filterMap_cons_some hnew]
      refine ⟨?_, ?_, fun d => ?_⟩
      · intro f' hf'
        rcases mem_cons.mp hf' with rfl | hf'
        · exact hf
        · exact hok f' hf'
      · rw [map_cons, hbounds, formBounds, formBounds, filter_cons_of_pos (by simpa using hcan),
          map_cons, hfield, hupper]
      · rw [filterMap_cons, hscores, formScores, formScores, filterMap_cons, hvalue, hfield]

theorem new_spec (forms : List FormRef) :
    new bm stats forms = none ∧ (∀ d, formScores bm stats forms d = []) ∨
      ∃ c, new bm stats forms = some c ∧ c.Ok bm stats ∧
        c.upperBound = bestPerField (formBounds bm stats forms) ∧
        ∀ d, c.values bm stats d = formScores bm stats forms d := by
  obtain ⟨hok, hbounds, hscores⟩ := newForms_spec forms
  rw [new]
  simp only
  split_ifs with hnil
  · refine .inl ⟨rfl, fun d => ?_⟩
    rw [← hscores, hnil]
    rfl
  · exact .inr ⟨_, rfl, hok, congrArg bestPerField hbounds, hscores⟩

theorem value_new_clause (forms : List FormRef) (d : DocId) :
    (new bm stats forms).bind (fun c =>
      (value d (c.entries bm stats)).map fun v => (v, c.upperBound)) = clauseAt bm stats forms d := by
  rcases new_spec forms with ⟨hnew, hnone⟩ | ⟨c, hnew, -, hbound, hvalues⟩
  · rw [hnew, clauseAt, if_pos (hnone d)]
    rfl
  · rw [hnew, Option.bind_some, value_entries, hvalues, hbound, clauseAt]
    split_ifs <;> rfl

theorem bounded_new {forms : List FormRef} (hbound : ∀ form ∈ forms, form.Bounded bm stats)
    {c : ClauseCursor F} (hnew : new bm stats forms = some c) : c.Bounded bm stats := by
  rcases new_spec forms with ⟨hnone, -⟩ | ⟨c', hnew', -, hupper, hvalues⟩
  · rw [hnone] at hnew
    exact absurd hnew (by simp)
  · obtain rfl : c' = c := Option.some_inj.mp (hnew'.symm.trans hnew)
    intro e he
    obtain ⟨d, -, rfl⟩ := mem_map.mp he
    have hcan : formScores bm stats forms d = (forms.filter fun form => form.CanMatch).filterMap
        fun form => (form.scoreAt bm stats d).map fun v => (form.field, v) := by
      rw [formScores, filterMap_filter]
      refine filterMap_congr fun form _ => ?_
      by_cases hform : form.CanMatch
      · rw [if_pos (decide_eq_true hform)]
      · rw [if_neg (by simpa using hform), FormRef.scoreAt_of_not_canMatch hform]
        rfl
    rw [hvalues, hupper, hcan]
    refine bestPerField_filterMap_le fun form hform v hv => ?_
    exact (hbound form (mem_of_mem_filter hform)).scoreAt_le hv

end ClauseCursor

/-! ### The two paths -/

def ClauseCursor.walker : Walker (ClauseCursor F) DocId where
  doc := doc
  left := fun clause => (clause.forms.map fun form => (form.cursors.map fun c => c.rest.length).sum).sum
  advanceTo := advanceTo

theorem ClauseCursor.lawful :
    (walker (F := F)).Lawful (ClauseCursor.Ok bm stats) (entries bm stats) where
  ascending := fun c _ => c.ascending_entries
  doc_eq := fun _ h => h.doc_eq
  length_le := fun c _ => c.length_entries_le
  ok_advanceTo := fun _ t h => (h.advanceTo t).1
  entries_advanceTo := fun _ t h => (h.advanceTo t).2

variable {d : DocId}

theorem evaluateClauses_eq (total : F) (k : ℕ) (restrict : Option (Finset DocId))
    {cs : List (ClauseCursor F)} (hok : ∀ c ∈ cs, c.Ok bm stats)
    (hle : ∀ c ∈ cs, ∀ e ∈ c.entries bm stats, d ≤ e.1) :
    evaluateClauses bm stats none total cs d =
      let held := (groupedSearch bm stats none total k restrict).heldBy (entries bm stats) cs d
      if held = 0 then none else some (hitOfHeld d held) := by
  have hheld := filterMap_value_eq (fun c v => (v, c.upperBound)) (d := d)
    (fun c hc => (hok c hc).doc_eq) hle (fun c _ => c.ascending_entries)
    fun c hc hd => (hok c hc).score_eq hd
  have hcoe : (groupedSearch bm stats none total k restrict).heldBy (entries bm stats) cs d =
      ↑((cs.filter fun c => c.doc = some d).map fun c => (c.score bm stats d, c.upperBound)) :=
    congrArg _ hheld
  have hnone : ∀ matched, covers bm none total matched = true := fun _ => rfl
  rw [evaluateClauses, hcoe]
  simp only [hnone, Bool.true_eq_false, or_false, Multiset.coe_eq_zero, map_eq_nil_iff,
    Option.isSome_none, Bool.false_eq_true, if_false]
  split_ifs with hnil
  · rfl
  · rw [hitOfHeld_coe, hitOf, map_map, length_map]
    rfl

theorem groupedSearch_lawful {k : ℕ} (hk : 0 < k) (total : F) (restrict : Option (Finset DocId)) :
    (groupedSearch bm stats none total k restrict).Lawful (fun c => c.Ok bm stats ∧ c.Bounded bm stats)
      (entries bm stats) hitOfHeld where
  ascending := fun c h => lawful.ascending c h.1
  doc_eq := fun c h => lawful.doc_eq c h.1
  length_le := fun c h => lawful.length_le c h.1
  ok_advanceTo := fun c t h => ⟨(h.1.advanceTo t).1,
    h.2.of_filter (p := fun d => decide (t ≤ d)) (h.1.advanceTo t).2 rfl⟩
  entries_advanceTo := fun c t h => lawful.entries_advanceTo c t h.1
  ok_stepPast := fun _ d h hle => ⟨(h.1.stepPast hle).1,
    h.2.of_filter (p := fun e => decide (e ≠ d)) (h.1.stepPast hle).2 rfl⟩
  entries_stepPast := fun _ _ h hle => (h.1.stepPast hle).2
  upperBound_advanceTo := fun _ _ => rfl
  upperBound_stepPast := fun _ _ => rfl
  le_upperBound := fun _ h => h.2
  sort_perm := fun cs => perm_sortBy cs
  sort_sorted := sortBy_doc_sorted doc
  k_pos := hk
  accepts := fun _ => rfl
  evaluate := by
    intro cs d hok hle hne
    exact (evaluateClauses_eq total k restrict (fun c hc => (hok c hc).1) hle).trans (if_neg hne)
  docOf_hit := fun _ _ => rfl
  score_hit := fun _ _ => rfl

theorem heldBy_groupedClauses (fields : List FieldClauses) (total : F) (k : ℕ)
    (restrict : Option (Finset DocId)) (d : DocId) :
    (groupedSearch bm stats none total k restrict).heldBy (entries bm stats)
      (groupedClauses bm stats fields) d = ↑(clausesOn bm stats fields d) := by
  rw [Pivot.Search.heldBy, groupedClauses, clausesOn, filterMap_flatMap]
  refine congrArg _ (flatMap_congr fun field hfield => ?_)
  rw [filterMap_filterMap]
  exact filterMap_congr fun forms _ => value_new_clause forms d

theorem ok_new {forms : List FormRef} {c : ClauseCursor F}
    (hnew : new bm stats forms = some c) : c.Ok bm stats := by
  rcases new_spec forms with ⟨hnone, -⟩ | ⟨c', hnew', hok, -⟩
  · rw [hnone] at hnew
    exact absurd hnew (by simp)
  · obtain rfl : c' = c := Option.some_inj.mp (hnew'.symm.trans hnew)
    exact hok

variable {fields : List FieldClauses}

theorem ok_groupedClauses (hbound : ClausesBounded bm stats fields) :
    ∀ c ∈ groupedClauses bm stats fields, c.Ok bm stats ∧ c.Bounded bm stats := by
  intro c hc
  obtain ⟨field, hfield, hc⟩ := mem_flatMap.mp hc
  obtain ⟨forms, hforms, hc⟩ := mem_filterMap.mp hc
  exact ⟨ok_new hc, bounded_new (hbound field hfield forms hforms) hc⟩

variable (bm stats)

/-- The documents of all lists. -/
def clauseDocs (fields : List FieldClauses) : List DocId :=
  sortDedup (fields.flatMap fun field => field.clauses.flatMap fun forms => forms.flatMap fun form =>
    form.lists.flatMap fun list => list.postings.ids)

/-- The allowed documents on a clause with a positive bound. -/
def boundedDocs (fields : List FieldClauses) (restrict : Option (Finset DocId)) : List DocId :=
  (clauseDocs fields).filter fun d => allows restrict d && (clausesOn bm stats fields d).any fun w => 0 < w.2

def clauseHit (fields : List FieldClauses) (d : DocId) : WandHit :=
  hitOf d ((clausesOn bm stats fields d).map Prod.fst)

variable {bm stats}

theorem nodup_clauseDocs (fields : List FieldClauses) : (clauseDocs fields).Nodup := by
  have hasc : Ascending id (clauseDocs fields) :=
    ascending_collapse (fun _ _ => rfl) (sorted_sortBy _)
  exact hasc.imp fun hab => ne_of_lt hab

theorem nodup_boundedDocs (fields : List FieldClauses) (restrict : Option (Finset DocId)) :
    (boundedDocs bm stats fields restrict).Nodup :=
  (nodup_clauseDocs fields).filter _

theorem FormRef.mem_ids_of_scoreAt {form : FormRef} {v : ℕ}
    (hv : form.scoreAt bm stats d = some v) : ∃ list ∈ form.lists, d ∈ list.postings.ids := by
  rw [scoreAt, Option.ite_none_left_eq_some] at hv
  obtain ⟨hne, hv⟩ := hv
  obtain ⟨list, lists, hlists⟩ := exists_cons_of_ne_nil hne
  have hmem : list ∈ form.lists := hlists ▸ mem_cons_self
  refine ⟨list, hmem, ?_⟩
  obtain ⟨scores, hscores, -⟩ := Option.map_eq_some_iff.mp hv
  cases hp : list.postings.find d with
  | none =>
    rw [mapM_eq_none_of_mem hmem (by rw [hp]; rfl)] at hscores
    exact absurd hscores (by simp)
  | some p =>
    have hkey : p.docId = d := find_key hp
    exact mem_map.mpr ⟨p, find_mem hp, hkey⟩

theorem mem_clauseDocs {w : ℕ × ℕ}
    (hw : w ∈ clausesOn bm stats fields d) : d ∈ clauseDocs fields := by
  obtain ⟨field, hfield, hw⟩ := mem_flatMap.mp hw
  obtain ⟨forms, hforms, hw⟩ := mem_filterMap.mp hw
  rw [clauseAt, Option.ite_none_left_eq_some] at hw
  obtain ⟨v, hv⟩ := exists_mem_of_ne_nil _ hw.1
  obtain ⟨form, hform, hv⟩ := mem_filterMap.mp hv
  obtain ⟨score, hscore, -⟩ := Option.map_eq_some_iff.mp hv
  obtain ⟨list, hlist, hd⟩ := FormRef.mem_ids_of_scoreAt hscore
  rw [clauseDocs, mem_sortDedup]
  exact mem_flatMap.mpr ⟨field, hfield, mem_flatMap.mpr ⟨forms, hforms,
    mem_flatMap.mpr ⟨form, hform, mem_flatMap.mpr ⟨list, hlist, hd⟩⟩⟩⟩

theorem mem_boundedDocs {restrict : Option (Finset DocId)} :
    d ∈ boundedDocs bm stats fields restrict ↔
      allows restrict d = true ∧ ∃ w ∈ clausesOn bm stats fields d, 0 < w.2 := by
  rw [boundedDocs, mem_filter, Bool.and_eq_true, any_eq_true]
  simp only [decide_eq_true_eq]
  constructor
  · exact fun h => h.2
  · rintro ⟨hallowed, w, hw, hpos⟩
    exact ⟨mem_clauseDocs hw, hallowed, w, hw, hpos⟩

theorem pivotTopK_eq (hbound : ClausesBounded bm stats fields) {k : ℕ}
    (hk : 0 < k) (restrict : Option (Finset DocId)) :
    (∃ heap, Loop.run (groupedSearch bm stats none
      (clauseWeight bm (groupedClauses bm stats fields)) k restrict).turn
      (((groupedClauses bm stats fields).map fun clause =>
        (clause.forms.map fun form => (form.cursors.map fun c => c.rest.length).sum).sum).sum + 1)
      (groupedClauses bm stats fields, []) = some heap) ∧
    pivotTopK bm stats fields k none restrict = TopK.best WandHit.rank k
      ((boundedDocs bm stats fields restrict).map (clauseHit bm stats fields)) := by
  have hlawful := @groupedSearch_lawful _ bm stats _ hk
    (clauseWeight bm (groupedClauses bm stats fields)) restrict
  have hok := ok_groupedClauses hbound
  obtain ⟨heap, hrun, -⟩ := hlawful.run_turn hok
  refine ⟨⟨heap, hrun⟩, ?_⟩
  have htop := hlawful.top_eq hok
    (nodup_boundedDocs fields restrict) fun d => by
      rw [mem_boundedDocs, heldBy_groupedClauses]
      rfl
  have hhits : (boundedDocs bm stats fields restrict).map (fun d => hitOfHeld d
      ((groupedSearch bm stats none (clauseWeight bm (groupedClauses bm stats fields)) k restrict).heldBy
        (entries bm stats) (groupedClauses bm stats fields) d)) =
      (boundedDocs bm stats fields restrict).map (clauseHit bm stats fields) := by
    refine map_congr_left fun d _ => ?_
    rw [heldBy_groupedClauses, hitOfHeld_coe]
    rfl
  rw [hhits] at htop
  exact htop

theorem directTop_fold {total : F} {k : ℕ} (hk : 0 < k) {held : DocId → Multiset (ℕ × ℕ)}
    {docs : List DocId} (hasc : docs.Pairwise (· < ·)) {clauses : List (ClauseCursor F)}
    (hok : ∀ c ∈ clauses, c.Ok bm stats ∧ c.Bounded bm stats) {heap : List WandHit}
    (hheld : ∀ d ∈ docs, (groupedSearch bm stats none total k none).heldBy
      (entries bm stats) clauses d = held d) :
    (docs.foldl (fun (st : List (ClauseCursor F) × List WandHit) doc =>
      let clauses := st.1.map fun clause => clause.advanceTo doc
      match evaluateClauses bm stats none total clauses doc with
      | some hit => (clauses, TopK.offer WandHit.rank k st.2 hit)
      | none => (clauses, st.2)) (clauses, heap)).2 =
    ((docs.filter fun d => held d ≠ 0).map fun d => hitOfHeld d (held d)).foldl
      (TopK.offer WandHit.rank k) heap := by
  induction docs generalizing clauses heap with
  | nil => rfl
  | cons d docs ih =>
    obtain ⟨hfirst, hasc⟩ := pairwise_cons.mp hasc
    have hlawful := @groupedSearch_lawful _ bm stats _ hk total none
    let moved := clauses.map fun clause => clause.advanceTo d
    have hmoved : ∀ c ∈ moved, c.Ok bm stats ∧ c.Bounded bm stats := by
      intro c' hc'
      obtain ⟨c, hc, rfl⟩ := mem_map.mp hc'
      exact hlawful.ok_advanceTo c d (hok c hc)
    have hle : ∀ c ∈ moved, ∀ e ∈ c.entries bm stats, d ≤ e.1 := by
      intro c' hc' e he
      obtain ⟨c, hc, rfl⟩ := mem_map.mp hc'
      rw [((hok c hc).1.advanceTo d).2] at he
      exact of_decide_eq_true (mem_filter.mp he).2
    -- what the clauses hold from `d` on has not changed
    have hsame : ∀ e, d ≤ e → (groupedSearch bm stats none total k none).heldBy
        (entries bm stats) moved e =
        (groupedSearch bm stats none total k none).heldBy (entries bm stats) clauses e := by
      intro e hde
      exact (hlawful.heldBy_advanceTo hok d e).trans (if_pos hde)
    have hnext : ∀ e ∈ docs, (groupedSearch bm stats none total k none).heldBy
        (entries bm stats) moved e = held e := by
      intro e he
      rw [hsame e (hfirst e he).le, hheld e (mem_cons_of_mem d he)]
    have hevaluate := evaluateClauses_eq total k none
      (fun c hc => (hmoved c hc).1) hle
    rw [hsame d le_rfl, hheld d mem_cons_self] at hevaluate
    rw [foldl_cons]
    simp only
    by_cases hzero : held d = 0
    · have hnone : evaluateClauses bm stats none total moved d = none := hevaluate.trans (if_pos hzero)
      rw [hnone, filter_cons_of_neg (by simpa using hzero)]
      exact ih hasc hmoved hnext
    · have hsome : evaluateClauses bm stats none total moved d = some (hitOfHeld d (held d)) :=
        hevaluate.trans (if_neg hzero)
      rw [hsome, filter_cons_of_pos (by simpa using hzero), map_cons, foldl_cons]
      exact ih hasc hmoved hnext

theorem directTopK_eq (hbound : ClausesBounded bm stats fields) {k : ℕ}
    (hk : 0 < k) (docs : Finset DocId) : directTopK bm stats fields k none docs = TopK.best WandHit.rank k
      ((docs.ascending.filter fun d => clausesOn bm stats fields d ≠ []).map
        (clauseHit bm stats fields)) := by
  let held : DocId → Multiset (ℕ × ℕ) := fun d => ↑(clausesOn bm stats fields d)
  have hfold := @directTop_fold _ bm stats (clauseWeight bm (groupedClauses bm stats fields)) _ hk _ _
    (Finset.pairwise_ascending docs) _ (ok_groupedClauses hbound) [] fun d _ =>
      heldBy_groupedClauses fields _ k none d
  have hhits : ((docs.ascending.filter fun d => held d ≠ 0).map fun d => hitOfHeld d (held d)) =
      (docs.ascending.filter fun d => clausesOn bm stats fields d ≠ []).map (clauseHit bm stats fields) := by
    have hfilter : (docs.ascending.filter fun d => held d ≠ 0) =
        docs.ascending.filter fun d => clausesOn bm stats fields d ≠ [] := by
      refine filter_congr fun d _ => ?_
      simp only [held, ne_eq, Multiset.coe_eq_zero]
    rw [hfilter]
    exact map_congr_left fun d _ => hitOfHeld_coe d _
  rw [hhits] at hfold
  rw [directTopK, directTop]
  refine Eq.trans (congrArg finishHeap hfold) ?_
  have hdistinct : ((docs.ascending.filter fun d => clausesOn bm stats fields d ≠ []).map
      (clauseHit bm stats fields)).Pairwise fun a b => a.rank ≠ b.rank := by
    refine pairwise_map.mpr (((Finset.pairwise_ascending docs).filter _).imp fun hab heq => ?_)
    exact (ne_of_lt hab) (congrArg (fun r => (ofLex r).2) heq)
  have hbest := (TopK.Best.empty k).foldl (fun h ha => h.offer hk ha) hdistinct
    (by simp)
  exact (hbest.congr (by simp)).sortBy_eq hdistinct

theorem best_of_mem_iff {docs docs' : List DocId} (h : docs.Nodup)
    (h' : docs'.Nodup) (hmem : ∀ d, d ∈ docs ↔ d ∈ docs') (k : ℕ) :
    TopK.best WandHit.rank k (docs.map (clauseHit bm stats fields)) =
      TopK.best WandHit.rank k (docs'.map (clauseHit bm stats fields)) := by
  have hdistinct : ∀ {docs : List DocId}, docs.Nodup →
      (docs.map (clauseHit bm stats fields)).Pairwise fun a b => a.rank ≠ b.rank := fun h =>
    pairwise_map.mpr (h.imp fun hne heq => hne (congrArg (fun r => (ofLex r).2) heq))
  refine TopK.best_congr (hdistinct h') (hdistinct h) (fun hit => ?_) k
  simp only [mem_map, hmem]

/-! ### The sum over the clauses -/

/-- The forms of a field stand together in their clause. -/
def FieldsAdjacent (fields : List FieldClauses) : Prop :=
  ∀ field ∈ fields, ∀ forms ∈ field.clauses, Adjacent (forms.map FormRef.field)

variable (bm stats) in
/-- In each clause the best form of each field counts. -/
def groupedScore (fields : List FieldClauses) (d : DocId) : ℕ :=
  (fields.flatMap fun field => field.clauses.map fun forms => perFieldBest (formScores bm stats forms d)).sum

variable (bm stats) in
def matchedClauses (fields : List FieldClauses) (d : DocId) : ℕ :=
  (fields.flatMap fun field => field.clauses.filter fun forms => formScores bm stats forms d ≠ []).length

variable (bm stats) in
/-- The hit of a document when every clause it matches counts. -/
def groupedHit (fields : List FieldClauses) (d : DocId) : WandHit :=
  let score := min (groupedScore bm stats fields d) u64Max
  ⟨d, score, score, matchedClauses bm stats fields d⟩

theorem adjacent_formScores {forms : List FormRef} (h : Adjacent (forms.map FormRef.field)) (d : DocId) :
    Adjacent ((formScores bm stats forms d).map Prod.fst) := by
  refine h.sublist ?_
  rw [formScores, map_filterMap]
  induction forms with
  | nil => exact Sublist.refl _
  | cons form forms ih =>
    rw [filterMap_cons, map_cons]
    cases form.scoreAt bm stats d with
    | none => exact (ih h.2).cons _
    | some v => exact (ih h.2).cons_cons _

theorem clauseAt_sum {clauses : List (List FormRef)} (h : ∀ forms ∈ clauses, Adjacent (forms.map FormRef.field))
    (d : DocId) (n : ℕ) :
    min (((clauses.filterMap fun forms => clauseAt bm stats forms d).map Prod.fst).sum + n) u64Max =
      min ((clauses.map fun forms => perFieldBest (formScores bm stats forms d)).sum + n) u64Max ∧
    (clauses.filterMap fun forms => clauseAt bm stats forms d).length =
      (clauses.filter fun forms => formScores bm stats forms d ≠ []).length := by
  induction clauses with
  | nil => exact ⟨rfl, rfl⟩
  | cons forms clauses ih =>
    obtain ⟨hsum, hlength⟩ := ih fun forms' hforms' => h forms' (mem_cons_of_mem forms hforms')
    rw [filterMap_cons, map_cons, sum_cons, clauseAt]
    by_cases hnil : formScores bm stats forms d = []
    · have hzero : perFieldBest (formScores bm stats forms d) = 0 := by rw [hnil]; rfl
      rw [if_pos hnil, filter_cons_of_neg (by simpa using hnil), hzero, Nat.zero_add]
      exact ⟨hsum, hlength⟩
    · rw [if_neg hnil, filter_cons_of_pos (by simpa using hnil), length_cons, map_cons,
        sum_cons, length_cons, hlength,
        bestPerField_eq (adjacent_formScores (h forms mem_cons_self) d)]
      refine ⟨?_, rfl⟩
      omega

theorem clauseHit_eq (h : FieldsAdjacent fields) (d : DocId) :
    clauseHit bm stats fields d = groupedHit bm stats fields d := by
  have hsum : min ((clausesOn bm stats fields d).map Prod.fst).sum u64Max =
      min (groupedScore bm stats fields d) u64Max ∧
      (clausesOn bm stats fields d).length = matchedClauses bm stats fields d := by
    rw [clausesOn, groupedScore, matchedClauses]
    induction fields with
    | nil => exact ⟨rfl, rfl⟩
    | cons field fields ih =>
      obtain ⟨hrest, hlength⟩ := ih fun field' hfield' => h field' (mem_cons_of_mem field hfield')
      obtain ⟨hfield, hcount⟩ := clauseAt_sum (h field mem_cons_self) d 0
      simp only [flatMap_cons, map_append, sum_append, length_append]
      rw [hlength, hcount]
      refine ⟨?_, rfl⟩
      omega
  rw [clauseHit, hitOf, groupedHit, satSum_eq, hsum.1, length_map, hsum.2]

variable (bm stats) in
def PivotEnds (fields : List FieldClauses) (k : ℕ) (restrict : Option (Finset DocId)) : Prop :=
  ∃ heap, Loop.run (groupedSearch bm stats none
    (clauseWeight bm (groupedClauses bm stats fields)) k restrict).turn
    (((groupedClauses bm stats fields).map fun clause =>
      (clause.forms.map fun form => (form.cursors.map fun c => c.rest.length).sum).sum).sum + 1)
    (groupedClauses bm stats fields, []) = some heap

/-- The ranking by clause returns the best documents on a clause with a positive bound, and both
paths return the same, exactly when no document that is asked for is on clauses without a bound
only. -/
theorem wandTopKGrouped_iff {fields : List FieldClauses} (hadjacent : FieldsAdjacent fields)
    (hbound : ClausesBounded bm stats fields) (restrict : Option (Finset DocId)) :
    ((∀ k, (0 < k → PivotEnds bm stats fields k restrict) ∧
      wandTopKGrouped bm stats fields k none restrict =
        TopK.best WandHit.rank k ((boundedDocs bm stats fields restrict).map (groupedHit bm stats fields))) ∧
      ∀ docs, restrict = some docs → ∀ k, 0 < k →
        directTopK bm stats fields k none docs = pivotTopK bm stats fields k none restrict) ↔
    ∀ docs, restrict = some docs → ∀ d ∈ docs, clausesOn bm stats fields d ≠ [] →
      ∃ w ∈ clausesOn bm stats fields d, 0 < w.2 := by
  have hhits : groupedHit bm stats fields = clauseHit bm stats fields :=
    funext fun d => (clauseHit_eq hadjacent d).symm
  rw [hhits]
  constructor
  · rintro ⟨-, hpaths⟩ docs rfl d hd hon
    -- the direct path returns the document, so the other path has to
    let k := (docs.ascending.filter fun d => clausesOn bm stats fields d ≠ []).length + 1
    have heq := hpaths docs rfl k (Nat.succ_pos _)
    rw [directTopK_eq hbound (Nat.succ_pos _), (pivotTopK_eq hbound (Nat.succ_pos _) _).2] at heq
    have hdirect : d ∈ docs.ascending.filter fun d => clausesOn bm stats fields d ≠ [] :=
      mem_filter.mpr ⟨Finset.mem_ascending.mpr hd, decide_eq_true hon⟩
    have hlength : ((docs.ascending.filter fun d => clausesOn bm stats fields d ≠ []).map
        (clauseHit bm stats fields)).length ≤ k := by
      rw [length_map]
      exact Nat.le_succ _
    have hhit := (@TopK.mem_best _ _ _ WandHit.rank _ _ _ hlength).mpr
      (mem_map_of_mem (f := clauseHit bm stats fields) hdirect)
    rw [heq] at hhit
    obtain ⟨d', hd', heq'⟩ := mem_map.mp (TopK.mem_of_mem_best hhit)
    obtain rfl : d' = d := congrArg WandHit.docId heq'
    exact (mem_boundedDocs.mp hd').2
  · intro hpos
    have hsame : ∀ docs, restrict = some docs → ∀ k, 0 < k →
        directTopK bm stats fields k none docs = pivotTopK bm stats fields k none restrict := by
      rintro docs rfl k hk
      rw [directTopK_eq hbound hk, (pivotTopK_eq hbound hk _).2]
      have hnodup : docs.ascending.Nodup := (Finset.pairwise_ascending docs).imp fun hab => ne_of_lt hab
      refine best_of_mem_iff (hnodup.filter _) (nodup_boundedDocs fields (some docs)) (fun d => ?_) k
      rw [mem_boundedDocs, mem_filter, Finset.mem_ascending, decide_eq_true_eq]
      constructor
      · exact fun h => ⟨decide_eq_true h.1, hpos docs rfl d h.1 h.2⟩
      · rintro ⟨hallowed, w, hw, -⟩
        exact ⟨of_decide_eq_true hallowed, ne_nil_of_mem hw⟩
    refine ⟨fun k => ⟨fun hk => (pivotTopK_eq hbound hk restrict).1, ?_⟩, hsame⟩
    rcases Nat.eq_zero_or_pos k with rfl | hk
    · exact take_zero.symm
    · rw [wandTopKGrouped, if_neg hk.ne', ← (pivotTopK_eq hbound hk restrict).2]
      cases hfew : restrict.filter fun docs => docs.card ≤ directRestrictMax with
      | none => rfl
      | some docs => exact hsame docs (Option.filter_eq_some_iff.mp hfew).1 k hk

def weightless : List FieldClauses := [⟨[[⟨1, 0, [⟨single ⟨1, [0], 0⟩, 1, 0⟩], 1000⟩]]⟩]

/-- Asked for document 1 alone the direct path returns it, and the other path does not. -/
theorem wandTopKGrouped_weightless :
    FieldsAdjacent weightless ∧ ClausesBounded Bm25.pair SearchStats.pair weightless ∧
      boundedDocs Bm25.pair SearchStats.pair weightless (some {1}) = [] ∧
      wandTopKGrouped Bm25.pair SearchStats.pair weightless 1 none (some {1}) = [⟨1, 0, 0, 1⟩] ∧
      directTopK Bm25.pair SearchStats.pair weightless 1 none {1} = [⟨1, 0, 0, 1⟩] ∧
      pivotTopK Bm25.pair SearchStats.pair weightless 1 none (some {1}) = [] := by
  refine ⟨?_, ?_, by decide, by decide, by decide, by decide⟩
  · unfold FieldsAdjacent
    decide
  · unfold ClausesBounded FormRef.Bounded
    decide

def weighty : List FieldClauses :=
  [⟨[[⟨1, 0, [⟨single ⟨1, [0], 1⟩, 1, 1⟩], 1000⟩, ⟨1, 0, [⟨single ⟨1, [0], 2⟩, 1, 2⟩], 500⟩,
    ⟨2, 1, [⟨single ⟨1, [0], 1⟩, 1, 1⟩], 1000⟩], [⟨2, 1, [⟨single ⟨2, [0], 1⟩, 1, 1⟩], 1000⟩]]⟩]

/-- Both paths agree about the documents of those words. -/
theorem wandTopKGrouped_iff_weighty :
    wandTopKGrouped Bm25.pair SearchStats.pair weighty 1 none (some {1, 2}) = [⟨1, 1386, 1386, 1⟩] ∧
      ∀ k, 0 < k → directTopK Bm25.pair SearchStats.pair weighty k none {1, 2} =
        pivotTopK Bm25.pair SearchStats.pair weighty k none (some {1, 2}) := by
  have hadjacent : FieldsAdjacent weighty := by
    unfold FieldsAdjacent
    decide
  have hbound : ClausesBounded Bm25.pair SearchStats.pair weighty := by
    unfold ClausesBounded FormRef.Bounded
    decide
  have hpos : ∀ d ∈ ({1, 2} : Finset DocId), clausesOn Bm25.pair SearchStats.pair weighty d ≠ [] →
      ∃ w ∈ clausesOn Bm25.pair SearchStats.pair weighty d, 0 < w.2 := by decide
  obtain ⟨-, hpaths⟩ := (wandTopKGrouped_iff hadjacent hbound (some {1, 2})).mpr fun docs hdocs =>
    Option.some_inj.mp hdocs ▸ hpos
  exact ⟨by decide, hpaths {1, 2} rfl⟩

end ClauseScores

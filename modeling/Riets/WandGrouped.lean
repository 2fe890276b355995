/-
Ranking by clause: words that may be written in several ways.

A clause of a query has several forms, each a list of posting lists that must
all hold the document.  A form is walked by leaping from one common document to
the next, a clause by walking all its forms, and a document counts a clause by
its best form in each field.
-/
import Riets.Wand
import Mathlib.Algebra.BigOperators.Group.Finset.Basic

open List

structure FormRef where
  xpath : XPathId
  field : ℕ
  lists : List TermRef
  weight : ℕ
  deriving DecidableEq

/-- The clauses of a walk, each with its forms. -/
structure FieldClauses where
  clauses : List (List FormRef)
  deriving DecidableEq

/-- A weight is in thousandths. -/
def weighted (score weight : ℕ) : ℕ := satMul score weight / 1000

/-- The lists of a form, walked from one common document to the next. -/
structure FormCursor (F : Type) where
  field : ℕ
  idf : F
  cursors : List PostingCursor
  docFreqs : List ℕ
  xpath : XPathId
  weight : ℕ
  upperBound : ℕ
  doc : Option DocId

/-- A clause on its way through its lists. -/
structure ClauseCursor (F : Type) where
  forms : List (FormCursor F)
  upperBound : ℕ
  weight : F

/-- The best value of each field, added up; the values of one field come one after another. -/
def bestPerField (values : List (ℕ × ℕ)) : ℕ :=
  let last := values.foldl (fun (st : ℕ × Option (ℕ × ℕ)) (v : ℕ × ℕ) =>
    match st.2 with
    | some best => if best.1 = v.1 then (st.1, some (best.1, max best.2 v.2)) else (satAdd st.1 best.2, some v)
    | none => (st.1, some v)) (0, none)
  satAdd last.1 ((last.2.map Prod.snd).getD 0)

/-! ### The best of each field -/

/-- The best of the run that started with `best`, and the best of the runs behind it. -/
def runBest (field best : ℕ) : List (ℕ × ℕ) → ℕ
  | [] => best
  | v :: values => if field = v.1 then runBest field (max best v.2) values else best + runBest v.1 v.2 values

theorem bestPerField_cons (v : ℕ × ℕ) (values : List (ℕ × ℕ)) :
    bestPerField (v :: values) = min (runBest v.1 v.2 values) u64Max := by
  let step : ℕ × Option (ℕ × ℕ) → ℕ × ℕ → ℕ × Option (ℕ × ℕ) := fun st v =>
    match st.2 with
    | some best => if best.1 = v.1 then (st.1, some (best.1, max best.2 v.2)) else (satAdd st.1 best.2, some v)
    | none => (st.1, some v)
  have hrun : ∀ (values : List (ℕ × ℕ)) (total : ℕ) (best : ℕ × ℕ), total ≤ u64Max →
      satAdd (values.foldl step (total, some best)).1
        (((values.foldl step (total, some best)).2.map Prod.snd).getD 0) =
        min (total + runBest best.1 best.2 values) u64Max := by
    intro values
    induction values with
    | nil => exact fun _ _ _ => rfl
    | cons v values ih =>
      intro total best htotal
      rw [foldl_cons, runBest]
      by_cases hfield : best.1 = v.1
      · have hstep : step (total, some best) v = (total, some (best.1, max best.2 v.2)) := if_pos hfield
        rw [hstep, ih total _ htotal, if_pos hfield]
      · have hstep : step (total, some best) v = (satAdd total best.2, some v) := if_neg hfield
        rw [hstep, ih (satAdd total best.2) v (min_le_right _ _), if_neg hfield, satAdd]
        omega
  have hstart := hrun values 0 v (Nat.zero_le _)
  rw [Nat.zero_add] at hstart
  exact hstart

theorem runBest_filterMap_le {α : Type} {field : α → ℕ} {value : α → Option ℕ} {bound : α → ℕ} {l : List α}
    (h : ∀ a ∈ l, ∀ v, value a = some v → v ≤ bound a) :
    (∀ f b b', b ≤ b' → runBest f b (l.filterMap fun a => (value a).map fun v => (field a, v)) ≤
      runBest f b' (l.map fun a => (field a, bound a))) ∧
    ∀ f b f' b' slack, b ≤ slack → runBest f b (l.filterMap fun a => (value a).map fun v => (field a, v)) ≤
      slack + runBest f' b' (l.map fun a => (field a, bound a)) := by
  induction l with
  | nil =>
    refine ⟨fun f b b' hle => hle, fun f b f' b' slack hle => ?_⟩
    exact hle.trans (Nat.le_add_right _ _)
  | cons a l ih =>
    obtain ⟨hsame, hslack⟩ := ih fun a' ha' => h a' (mem_cons_of_mem a ha')
    rw [map_cons]
    cases hv : value a with
    | none =>
      -- the value is left out: the bound's run may end here
      rw [filterMap_cons, hv]
      simp only [Option.map_none, runBest]
      refine ⟨fun f b b' hle => ?_, fun f b f' b' slack hle => ?_⟩
      · split_ifs
        · exact hsame f b _ (hle.trans (le_max_left _ _))
        · exact hslack f b _ _ _ hle
      · split_ifs
        · exact hslack f b f' _ slack hle
        · have := hslack f b (field a) (bound a) (slack + b') (by omega)
          omega
    | some v =>
      have hle' := h a mem_cons_self v hv
      rw [filterMap_cons, hv]
      simp only [Option.map_some, runBest]
      refine ⟨fun f b b' hle => ?_, fun f b f' b' slack hle => ?_⟩
      · split_ifs
        · exact hsame f _ _ (max_le_max hle hle')
        · have := hsame (field a) v (bound a) hle'
          omega
      · have hnext := hsame (field a) v (bound a) hle'
        have hmerge := hsame (field a) v (max b' (bound a)) (hle'.trans (le_max_right _ _))
        split_ifs with hf hf' hf'
        · subst hf hf'
          rcases le_total b v with hbv | hvb
          · rw [max_eq_right hbv]
            omega
          · rw [max_eq_left hvb]
            exact hslack _ b _ _ slack hle
        · subst hf
          rcases le_total b v with hbv | hvb
          · rw [max_eq_right hbv]
            omega
          · rw [max_eq_left hvb]
            have := hslack (field a) b (field a) (bound a) slack hle
            omega
        · subst hf'
          omega
        · omega

theorem bestPerField_filterMap_le {α : Type} {field : α → ℕ} {value : α → Option ℕ} {bound : α → ℕ}
    {l : List α} (h : ∀ a ∈ l, ∀ v, value a = some v → v ≤ bound a) :
    bestPerField (l.filterMap fun a => (value a).map fun v => (field a, v)) ≤
      bestPerField (l.map fun a => (field a, bound a)) := by
  induction l with
  | nil => exact le_rfl
  | cons a l ih =>
    have htail : ∀ a' ∈ l, ∀ v, value a' = some v → v ≤ bound a' := fun a' ha' =>
      h a' (mem_cons_of_mem a ha')
    obtain ⟨hsame, hslack⟩ := runBest_filterMap_le htail
    rw [map_cons, bestPerField_cons]
    cases hv : value a with
    | none =>
      rw [filterMap_cons, hv]
      simp only [Option.map_none]
      cases hl : l.filterMap fun a => (value a).map fun v => (field a, v) with
      | nil => exact Nat.zero_le _
      | cons w ws =>
        -- the first value that is kept starts the run
        rw [bestPerField_cons]
        refine min_le_min_right _ ?_
        have hstart := hslack w.1 0 (field a) (bound a) 0 le_rfl
        rw [hl, Nat.zero_add, runBest, if_pos rfl, Nat.zero_max] at hstart
        exact hstart
    | some v =>
      rw [filterMap_cons, hv]
      simp only [Option.map_some]
      rw [bestPerField_cons]
      exact min_le_min_right _ (hsame _ _ _ (h a mem_cons_self v hv))

def Adjacent : List ℕ → Prop
  | [] => True
  | f :: l => f ∉ l.dropWhile (· = f) ∧ Adjacent l

instance decidableAdjacent : (l : List ℕ) → Decidable (Adjacent l)
  | [] => isTrue trivial
  | f :: l => @instDecidableAnd (f ∉ l.dropWhile (· = f)) (Adjacent l) _ (decidableAdjacent l)

theorem sublist_dropWhile {α : Type} {p : α → Bool} {l l' : List α} (hsub : l'.Sublist l) :
    (l'.dropWhile p).Sublist (l.dropWhile p) := by
  induction hsub with
  | slnil => exact Sublist.refl _
  | @cons l' l a hsub ih =>
    rw [dropWhile_cons]
    split_ifs
    · exact ih
    · exact ((dropWhile_sublist p).trans hsub).cons a
  | @cons_cons l' l a hsub ih =>
    rw [dropWhile_cons, dropWhile_cons]
    split_ifs
    · exact ih
    · exact hsub.cons_cons a

theorem Adjacent.sublist {l l' : List ℕ} (h : Adjacent l) (hsub : l'.Sublist l) : Adjacent l' := by
  induction hsub with
  | slnil => trivial
  | cons f _ ih => exact ih h.2
  | @cons_cons l' l f hsub ih =>
    refine ⟨fun hmem => h.1 ?_, ih h.2⟩
    exact (sublist_dropWhile hsub).subset hmem

/-- The best form of each field, added up. -/
def perFieldBest (values : List (ℕ × ℕ)) : ℕ :=
  ∑ f ∈ (values.map Prod.fst).toFinset, ((values.filter fun v => v.1 = f).map Prod.snd).foldr max 0

theorem perFieldBest_cons {field best : ℕ} {values : List (ℕ × ℕ)} (hnot : field ∉ values.map Prod.fst) :
    perFieldBest ((field, best) :: values) = best + perFieldBest values := by
  rw [perFieldBest, map_cons, toFinset_cons, Finset.sum_insert (by simpa using hnot), perFieldBest]
  have hnone : (values.filter fun v => v.1 = field) = [] := by
    rw [filter_eq_nil_iff]
    intro v hv heq
    exact hnot (mem_map.mpr ⟨v, hv, of_decide_eq_true heq⟩)
  have hself : (((field, best) :: values).filter fun v => v.1 = field) = [(field, best)] := by
    rw [filter_cons_of_pos (by simp), hnone]
  rw [hself]
  refine congrArg₂ (· + ·) (by simp) (Finset.sum_congr rfl fun f hf => ?_)
  have hne : field ≠ f := fun heq => hnot (mem_toFinset.mp (heq ▸ hf))
  rw [filter_cons_of_neg (by simpa using hne)]

theorem runBest_eq {field best : ℕ} {values : List (ℕ × ℕ)}
    (h : Adjacent (field :: values.map Prod.fst)) :
    runBest field best values = perFieldBest ((field, best) :: values) := by
  induction values generalizing field best with
  | nil => simp [runBest, perFieldBest]
  | cons v values ih =>
    rw [runBest]
    split_ifs with hfield
    · subst hfield
      have hrest : Adjacent (v.1 :: values.map Prod.fst) := h.2
      rw [ih hrest, perFieldBest, perFieldBest]
      simp only [map_cons, toFinset_cons, Finset.insert_idem]
      refine Finset.sum_congr rfl fun f _ => ?_
      by_cases hf : v.1 = f
      · simp [hf, max_assoc]
      · simp [hf]
    · have hnot : field ∉ (v :: values).map Prod.fst := by
        have hmem := h.1
        rwa [map_cons, dropWhile_cons_of_neg (by simpa using Ne.symm hfield), ← map_cons] at hmem
      rw [ih h.2, perFieldBest_cons hnot]

theorem bestPerField_eq {values : List (ℕ × ℕ)} (h : Adjacent (values.map Prod.fst)) :
    bestPerField values = min (perFieldBest values) u64Max := by
  cases values with
  | nil => rfl
  | cons v values => rw [bestPerField_cons, runBest_eq h]

section Grouped

variable {F : Type} (bm : Bm25 F) (stats : SearchStats F)

namespace FormCursor

/-- The cursors move on until they stand on one document. -/
def align (f : FormCursor F) : FormCursor F :=
  let found := PostingCursor.walker.leap f.cursors
  { f with doc := found.1, cursors := found.2 }

/-- `none` when the form cannot match. -/
def new (form : FormRef) : Option (FormCursor F) :=
  if form.lists = [] ∨ form.lists.any (fun list => list.postings.items = []) then none
  else
    let docCount := stats.docCount form.xpath
    let upperBound := satSum (form.lists.map fun list => bm.upperBound list.maxWeight docCount list.docFreq)
    some (align ⟨form.field,
      (form.lists.map fun list => bm.rarity docCount list.docFreq).foldl bm.add bm.zero,
      form.lists.map fun list => PostingCursor.new list.postings, form.lists.map TermRef.docFreq,
      form.xpath, form.weight, weighted upperBound form.weight, none⟩)

def advanceTo (f : FormCursor F) (target : DocId) : FormCursor F :=
  if f.doc.any fun doc => doc < target then
    align { f with cursors := f.cursors.map fun c => c.advanceTo target }
  else f

def stepPast (f : FormCursor F) (doc : DocId) : FormCursor F :=
  if f.doc = some doc then align { f with cursors := f.cursors.modifyHead PostingCursor.next }
  else f

def score (f : FormCursor F) : ℕ :=
  weighted (satSum (zipWith (fun c docFreq => (c.current.map (bm.score stats f.xpath docFreq)).getD 0)
    f.cursors f.docFreqs)) f.weight

end FormCursor

namespace ClauseCursor

/-- `none` when no form can match. -/
def new (forms : List FormRef) : Option (ClauseCursor F) :=
  let forms := forms.filterMap (FormCursor.new bm stats)
  if forms = [] then none
  else
    let largest := ((forms.map fun form => stats.docCount form.xpath).max?).getD 0
    let idfs := (forms.filter fun form => stats.docCount form.xpath = largest).map FormCursor.idf
    some ⟨forms, bestPerField (forms.map fun form => (form.field, form.upperBound)),
      match idfs with
      | [] => bm.zero
      | idf :: idfs => idfs.foldl bm.least idf⟩

def doc (c : ClauseCursor F) : Option DocId := (c.forms.filterMap FormCursor.doc).min?

def advanceTo (c : ClauseCursor F) (target : DocId) : ClauseCursor F :=
  { c with forms := c.forms.map fun form => form.advanceTo target }

def stepPast (c : ClauseCursor F) (doc : DocId) : ClauseCursor F :=
  { c with forms := c.forms.map fun form => form.stepPast doc }

def score (c : ClauseCursor F) (doc : DocId) : ℕ :=
  bestPerField ((c.forms.filter fun form => form.doc = some doc).map fun form =>
    (form.field, form.score bm stats))

end ClauseCursor

def groupedClauses (fields : List FieldClauses) : List (ClauseCursor F) :=
  fields.flatMap fun field => field.clauses.filterMap (ClauseCursor.new bm stats)

def clauseWeight (clauses : List (ClauseCursor F)) : F := (clauses.map ClauseCursor.weight).foldl bm.add bm.zero

/-- Whether a matched weight is enough.  When no share is asked for, nothing is needed, and a
weight is never negative. -/
def covers (coverage : Option F) (total matched : F) : Bool :=
  coverage.all fun share => bm.covers share matched total

/-- The hit of a document, from the clauses on it; `none` when it covers too little. -/
def evaluateClauses (coverage : Option F) (total : F) (clauses : List (ClauseCursor F)) (doc : DocId) :
    Option WandHit :=
  let on := clauses.filter fun clause => clause.doc = some doc
  let raw := satSum (on.map fun clause => clause.score bm stats doc)
  let matchedWeight := clauseWeight bm on
  if on = [] ∨ covers bm coverage total matchedWeight = false then none
  else
    let score := if coverage.isSome then bm.scaled raw matchedWeight total else raw
    some ⟨doc, score, raw, on.length⟩

/-- The search that the pivot walk runs over clauses. -/
def groupedSearch (coverage : Option F) (total : F) (k : ℕ) (restrict : Option (Finset DocId)) :
    Pivot.Search (ClauseCursor F) DocId WandHit where
  doc := ClauseCursor.doc
  left := fun clause => (clause.forms.map fun form => (form.cursors.map fun c => c.rest.length).sum).sum
  advanceTo := ClauseCursor.advanceTo
  stepPast := ClauseCursor.stepPast
  upperBound := ClauseCursor.upperBound
  sort := Keyed.sortBy fun clause => clause.doc.getD 0
  k := k
  allowed := allows restrict
  accepts := fun clauses => covers bm coverage total (clauseWeight bm clauses)
  evaluate := evaluateClauses bm stats coverage total
  docOf := WandHit.docId
  score := WandHit.score

/-- The allowed documents, one after the other. -/
def directTop (coverage : Option F) (total : F) (k : ℕ) (clauses : List (ClauseCursor F))
    (docs : Finset DocId) : List WandHit :=
  (docs.ascending.foldl (fun (st : List (ClauseCursor F) × List WandHit) doc =>
    let clauses := st.1.map fun clause => clause.advanceTo doc
    match evaluateClauses bm stats coverage total clauses doc with
    | some hit => (clauses, TopK.offer WandHit.rank k st.2 hit)
    | none => (clauses, st.2)) (clauses, [])).2

def directRestrictMax : ℕ := 4096

/-- Few allowed documents are looked up one by one. -/
def directTopK (fields : List FieldClauses) (k : ℕ) (coverage : Option F) (docs : Finset DocId) :
    List WandHit :=
  let clauses := groupedClauses bm stats fields
  finishHeap (directTop bm stats coverage (clauseWeight bm clauses) k clauses docs)

/-- Else the clauses are walked. -/
def pivotTopK (fields : List FieldClauses) (k : ℕ) (coverage : Option F)
    (restrict : Option (Finset DocId)) : List WandHit :=
  let clauses := groupedClauses bm stats fields
  finishHeap ((groupedSearch bm stats coverage (clauseWeight bm clauses) k restrict).top clauses)

/-- The `k` best documents of the sum over the clauses of the best form in each field. -/
def wandTopKGrouped (fields : List FieldClauses) (k : ℕ) (coverage : Option F)
    (restrict : Option (Finset DocId)) : List WandHit :=
  if k = 0 then []
  else
    match restrict.filter fun docs => docs.card ≤ directRestrictMax with
    | some docs => directTopK bm stats fields k coverage docs
    | none => pivotTopK bm stats fields k coverage restrict

/-! ### The entries of a form -/

namespace FormCursor

open List Keyed

def entries (f : FormCursor F) : List (DocId × ℕ) :=
  (meetAll (f.cursors.map PostingCursor.entries)).map fun e =>
    (e.1, weighted (satSum (zipWith (fun p docFreq => bm.score stats f.xpath docFreq p) e.2 f.docFreqs))
      f.weight)

def left (f : FormCursor F) : ℕ := (f.cursors.map fun c => c.rest.length).sum

/-- The lists ascend and the cursors stand on one document. -/
structure Ok (f : FormCursor F) : Prop where
  cursors_ne_nil : f.cursors ≠ []
  doc_eq : f.doc = (f.entries bm stats).head?.map Prod.fst
  on_doc : ∀ d, f.doc = some d → ∀ c ∈ f.cursors, c.docId = some d

def walker : Walker (FormCursor F) DocId where
  doc := FormCursor.doc
  left := left
  advanceTo := advanceTo

variable {bm stats} {f : FormCursor F} {d : DocId}

theorem ascending_cursors (f : FormCursor F) :
    ∀ l ∈ f.cursors.map PostingCursor.entries, Ascending Prod.fst l :=
  PostingCursor.lawful.ascending_of_mem fun _ _ => trivial

theorem ascending_entries (f : FormCursor F) : Ascending Prod.fst (f.entries bm stats) :=
  pairwise_map.mpr (ascending_meetAll f.ascending_cursors)

theorem align_spec (f : FormCursor F) (hne : f.cursors ≠ []) :
    f.align.entries bm stats = f.entries bm stats ∧ f.align.cursors ≠ [] ∧
      f.align.doc = (f.entries bm stats).head?.map Prod.fst ∧
      (∀ d, f.align.doc = some d → ∀ c ∈ f.align.cursors, c.docId = some d) ∧
      f.align.upperBound = f.upperBound ∧ f.align.field = f.field := by
  obtain ⟨hdoc, -, hlength, hmeet, hon⟩ :=
    PostingCursor.lawful.leap_spec hne fun _ _ => trivial
  refine ⟨?_, ?_, ?_, hon, rfl, rfl⟩
  · rw [entries, entries]
    exact congrArg _ hmeet
  · have hpos := length_pos_iff.mpr hne
    exact length_pos_iff.mp (hlength ▸ hpos)
  · rw [entries, head?_map, Option.map_map]
    exact hdoc

theorem Ok.align (hne : f.cursors ≠ []) : f.align.Ok bm stats := by
  obtain ⟨hentries, hne', hdoc, hon, -⟩ := f.align_spec hne
  exact ⟨hne', by rw [hdoc, hentries], hon⟩

theorem entries_map_advanceTo (f : FormCursor F) (t : DocId) :
    ({ f with cursors := f.cursors.map fun c => c.advanceTo t } : FormCursor F).entries bm stats =
      (f.entries bm stats).filter fun e => t ≤ e.1 := by
  have hmoved : (f.cursors.map fun c => c.advanceTo t).map PostingCursor.entries =
      (f.cursors.map PostingCursor.entries).map fun l => l.filter fun e => decide (t ≤ e.1) := by
    rw [map_map, map_map]
    exact map_congr_left fun c _ => PostingCursor.lawful.entries_advanceTo c t trivial
  rw [entries, entries, hmoved, meetAll_map_filter f.ascending_cursors fun d => decide (t ≤ d),
    filter_map]
  rfl

theorem entries_modifyHead_next (h : f.Ok bm stats) (hd : f.doc = some d) :
    ({ f with cursors := f.cursors.modifyHead PostingCursor.next } : FormCursor F).entries bm stats =
      (f.entries bm stats).filter fun e => e.1 ≠ d := by
  obtain ⟨c, cs, hcs⟩ := exists_cons_of_ne_nil h.cursors_ne_nil
  have hc : c.docId = some d := h.on_doc d hd c (by rw [hcs]; exact mem_cons_self)
  have hfirst : c.next.entries = c.entries.filter fun e => e.1 ≠ d := by
    have hasc := PostingCursor.lawful.ascending c trivial
    have hle : ∀ e ∈ c.entries, d ≤ e.1 := fun e he => PostingCursor.lawful.le_of_mem trivial hc he
    rw [filter_ne_eq hasc hle, ← PostingCursor.lawful.doc_eq c trivial]
    change _ = if c.docId = some d then _ else _
    rw [if_pos hc, PostingCursor.entries, PostingCursor.rest_next, map_tail]
    rfl
  rw [entries, entries, hcs, modifyHead_cons, map_cons, map_cons, hfirst,
    meetAll_filter_head fun e => decide (e ≠ d), filter_map]
  rfl

theorem length_entries_le (f : FormCursor F) : (f.entries bm stats).length ≤ f.left := by
  rw [entries, length_map, left]
  cases f.cursors with
  | nil => exact Nat.zero_le _
  | cons c cs =>
    have hfirst : (meetAll ((c :: cs).map PostingCursor.entries)).length ≤ c.entries.length :=
      length_filterMap_le _ _
    rw [PostingCursor.entries, length_map] at hfirst
    refine hfirst.trans ?_
    rw [map_cons, sum_cons]
    exact Nat.le_add_right _ _

theorem Ok.advanceTo (h : f.Ok bm stats) (t : DocId) : (f.advanceTo t).Ok bm stats ∧
      (f.advanceTo t).entries bm stats = (f.entries bm stats).filter (fun e => t ≤ e.1) ∧
      (f.advanceTo t).upperBound = f.upperBound ∧ (f.advanceTo t).field = f.field := by
  rw [FormCursor.advanceTo]
  split_ifs with hbefore
  · have hne : (f.cursors.map fun c => c.advanceTo t) ≠ [] := by
      rw [Ne, map_eq_nil_iff]
      exact h.cursors_ne_nil
    have hentries := @entries_map_advanceTo _ bm stats f t
    obtain ⟨hsame, -, -, -, hbound, hfield⟩ :=
      align_spec { f with cursors := f.cursors.map fun c => c.advanceTo t } hne
    exact ⟨Ok.align hne, hsame.trans hentries, hbound, hfield⟩
  · refine ⟨h, (filter_eq_self.mpr fun e he => decide_eq_true ?_).symm, rfl, rfl⟩
    -- a form that stays is at the target, past it, or at its end
    have hasc := @ascending_entries _ bm stats f
    have hdoc := h.doc_eq
    cases hl : f.entries bm stats with
    | nil => rw [hl] at he; exact absurd he (by simp)
    | cons e' l =>
      rw [hl, head?_cons, Option.map_some] at hdoc
      rw [hdoc, Option.any_some, decide_eq_true_eq] at hbefore
      rw [hl] at he hasc
      rcases mem_cons.mp he with rfl | he
      · exact not_lt.mp hbefore
      · exact (not_lt.mp hbefore).trans (hasc.head_lt he).le

theorem Ok.stepPast (h : f.Ok bm stats)
    (hle : ∀ e ∈ f.entries bm stats, d ≤ e.1) : (f.stepPast d).Ok bm stats ∧
      (f.stepPast d).entries bm stats = (f.entries bm stats).filter (fun e => e.1 ≠ d) ∧
      (f.stepPast d).upperBound = f.upperBound ∧ (f.stepPast d).field = f.field := by
  rw [FormCursor.stepPast]
  split_ifs with hd
  · have hne : f.cursors.modifyHead PostingCursor.next ≠ [] := by
      obtain ⟨c, cs, hcs⟩ := exists_cons_of_ne_nil h.cursors_ne_nil
      rw [hcs]
      exact cons_ne_nil _ _
    have hentries := entries_modifyHead_next h hd
    obtain ⟨hsame, -, -, -, hbound, hfield⟩ := align_spec
      { f with cursors := f.cursors.modifyHead PostingCursor.next } hne
    exact ⟨Ok.align hne, hsame.trans hentries, hbound, hfield⟩
  · refine ⟨h, ?_, rfl, rfl⟩
    rw [filter_ne_eq f.ascending_entries hle, ← h.doc_eq, if_neg hd]

theorem lawful : (walker (F := F)).Lawful (Ok bm stats) (entries bm stats) where
  ascending := fun f _ => f.ascending_entries
  doc_eq := fun _ h => h.doc_eq
  length_le := fun f _ => f.length_entries_le
  ok_advanceTo := fun _ t h => (h.advanceTo t).1
  entries_advanceTo := fun _ t h => (h.advanceTo t).2.1

theorem mapM_value_of_docId {cs : List PostingCursor} (h : ∀ c ∈ cs, c.docId = some d) :
    ∃ ps, (cs.map PostingCursor.entries).mapM (value d) = some ps ∧
      ps.map some = cs.map PostingCursor.current := by
  induction cs with
  | nil => exact ⟨[], rfl, rfl⟩
  | cons c cs ih =>
    obtain ⟨ps, hps, hcurrent⟩ := ih fun c' hc' => h c' (mem_cons_of_mem c hc')
    obtain ⟨p, hp, hpd⟩ := Option.map_eq_some_iff.mp (h c mem_cons_self)
    have hmem : (p.docId, p) ∈ c.entries :=
      mem_map.mpr ⟨p, mem_of_head? (c.current_eq ▸ hp), rfl⟩
    have hvalue := value_of_mem (PostingCursor.lawful.ascending c trivial) hmem
    rw [hpd] at hvalue
    refine ⟨p :: ps, ?_, ?_⟩
    · rw [map_cons, mapM_cons, hvalue, hps]
      rfl
    · rw [map_cons, map_cons, hcurrent, hp]

theorem Ok.score_eq (h : f.Ok bm stats) (hd : f.doc = some d) :
    value d (f.entries bm stats) = some (f.score bm stats) := by
  obtain ⟨ps, hps, hcurrent⟩ := mapM_value_of_docId (h.on_doc d hd)
  have hne : f.cursors.map PostingCursor.entries ≠ [] := by
    rw [Ne, map_eq_nil_iff]
    exact h.cursors_ne_nil
  rw [← value_meetAll f.ascending_cursors hne] at hps
  have hmem : (d, weighted (satSum (zipWith (fun p docFreq => bm.score stats f.xpath docFreq p) ps
      f.docFreqs)) f.weight) ∈ f.entries bm stats :=
    mem_map.mpr ⟨(d, ps), mem_of_value hps, rfl⟩
  have hzip : zipWith (fun c docFreq => (c.current.map (bm.score stats f.xpath docFreq)).getD 0)
      f.cursors f.docFreqs = zipWith (fun p docFreq => bm.score stats f.xpath docFreq p) ps f.docFreqs := by
    have hleft : ∀ (cs : List PostingCursor) (g : ℕ → Posting → ℕ) (dfs : List ℕ),
        zipWith (fun c docFreq => (c.current.map (g docFreq)).getD 0) cs dfs =
          zipWith (fun o docFreq => (Option.map (g docFreq) o).getD 0) (cs.map PostingCursor.current) dfs := by
      intro cs g dfs
      rw [zipWith_map_left]
    rw [hleft, ← hcurrent, zipWith_map_left]
    rfl
  rw [value_of_mem f.ascending_entries hmem, score, hzip]

end FormCursor

/-! ### The entries of a clause -/

namespace ClauseCursor

open List Option Keyed

/-- The scores of the forms that have a document, each with its field. -/
def values (c : ClauseCursor F) (d : DocId) : List (ℕ × ℕ) :=
  c.forms.filterMap fun form => (value d (form.entries bm stats)).map fun v => (form.field, v)

def docs (c : ClauseCursor F) : List DocId :=
  sortDedup (c.forms.flatMap fun form => (form.entries bm stats).map Prod.fst)

def entries (c : ClauseCursor F) : List (DocId × ℕ) :=
  (c.docs bm stats).map fun d => (d, bestPerField (c.values bm stats d))

def Ok (c : ClauseCursor F) : Prop := ∀ form ∈ c.forms, form.Ok bm stats

def Bounded (c : ClauseCursor F) : Prop := ∀ e ∈ c.entries bm stats, e.2 ≤ c.upperBound

variable {bm stats} {c c' : ClauseCursor F} {d : DocId} {f : FormCursor F → FormCursor F} {p : DocId → Bool}

theorem mem_docs : d ∈ c.docs bm stats ↔ ∃ form ∈ c.forms, ∃ v, (d, v) ∈ form.entries bm stats := by
  rw [docs, mem_sortDedup]
  simp

theorem ascending_docs (c : ClauseCursor F) : (c.docs bm stats).Pairwise (· < ·) :=
  ascending_collapse (fun _ _ => rfl) (sorted_sortBy _)

theorem ascending_entries (c : ClauseCursor F) : Ascending Prod.fst (c.entries bm stats) :=
  pairwise_map.mpr c.ascending_docs

theorem values_eq_nil : c.values bm stats d = [] ↔ d ∉ c.docs bm stats := by
  rw [mem_docs, values, filterMap_eq_nil_iff]
  simp only [map_eq_none_iff, not_exists, not_and]
  refine forall_congr' fun form => forall_congr' fun _ => ?_
  constructor
  · intro hnone v hv
    rw [value_of_mem form.ascending_entries hv] at hnone
    exact absurd hnone (by simp)
  · intro hnone
    by_contra hne
    obtain ⟨v, hv⟩ := ne_none_iff_exists'.mp hne
    exact hnone v (mem_of_value hv)

theorem value_entries (c : ClauseCursor F) (d : DocId) : value d (c.entries bm stats) =
    if c.values bm stats d = [] then none else some (bestPerField (c.values bm stats d)) := by
  split_ifs with hnil
  · rw [value, map_eq_none_iff, find_eq_none]
    rintro e he rfl
    obtain ⟨d, hd, rfl⟩ := mem_map.mp he
    exact values_eq_nil.mp hnil hd
  · have hd : d ∈ c.docs bm stats := not_not.mp fun hd => hnil (values_eq_nil.mpr hd)
    have hmem : (d, bestPerField (c.values bm stats d)) ∈ c.entries bm stats :=
      mem_map.mpr ⟨d, hd, rfl⟩
    exact value_of_mem c.ascending_entries hmem

theorem Ok.doc_eq (h : c.Ok bm stats) : c.doc = (c.entries bm stats).head?.map Prod.fst := by
  have hhead : (c.entries bm stats).head?.map Prod.fst = (c.docs bm stats).head? := by
    rw [entries, head?_map, Option.map_map]
    exact map_id'
  rw [hhead, doc]
  have hdocOf : ∀ form ∈ c.forms, ∀ d, form.doc = some d → d ∈ c.docs bm stats := by
    intro form hform d hd
    rw [(h form hform).doc_eq] at hd
    obtain ⟨e, he, rfl⟩ := map_eq_some_iff.mp hd
    exact mem_docs.mpr ⟨form, hform, e.2, mem_of_head? he⟩
  have hasc := @ascending_docs _ bm stats c
  cases hl : c.docs bm stats with
  | nil =>
    rw [head?_nil, min?_eq_none_iff, filterMap_eq_nil_iff]
    intro form hform
    by_contra hne
    obtain ⟨d, hd⟩ := ne_none_iff_exists'.mp hne
    exact absurd (hl ▸ hdocOf form hform d hd) (by simp)
  | cons d l =>
    rw [hl] at hasc
    have hfirst : ∀ d' ∈ c.docs bm stats, d ≤ d' := by
      intro d' hd'
      rw [hl] at hd'
      rcases mem_cons.mp hd' with rfl | hd'
      · exact le_rfl
      · exact ((pairwise_cons.mp hasc).1 d' hd').le
    rw [head?_cons, min?_eq_some_iff]
    refine ⟨?_, fun d' hd' => ?_⟩
    · have hd : d ∈ c.docs bm stats := by rw [hl]; exact mem_cons_self
      obtain ⟨form, hform, v, hv⟩ := mem_docs.mp hd
      refine mem_filterMap.mpr ⟨form, hform, ?_⟩
      -- the form that has it is on it, as nothing comes before it
      have hne : form.doc ≠ none := fun hnone => by
        rw [(FormCursor.lawful.entries_eq_nil (h form hform)).mpr hnone] at hv
        exact absurd hv (by simp)
      obtain ⟨d', hd'⟩ := ne_none_iff_exists'.mp hne
      have hle : d' ≤ d := FormCursor.lawful.le_of_mem (h form hform) hd' hv
      rw [hd', le_antisymm hle (hfirst d' (hdocOf form hform d' hd'))]
    · obtain ⟨form, hform, hd'⟩ := mem_filterMap.mp hd'
      exact hfirst d' (hdocOf form hform d' hd')

theorem length_entries_le (c : ClauseCursor F) :
    (c.entries bm stats).length ≤ (c.forms.map FormCursor.left).sum := by
  have hsub : (c.docs bm stats).length ≤
      (c.forms.flatMap fun form => (form.entries bm stats).map Prod.fst).length := by
    refine (Nodup.subperm (c.ascending_docs.imp fun h => ne_of_lt h) fun d hd => ?_).length_le
    exact mem_sortDedup.mp hd
  rw [entries, length_map]
  refine hsub.trans ?_
  rw [length_flatMap]
  refine sum_le_sum fun form _ => ?_
  rw [length_map]
  exact form.length_entries_le

theorem values_of_filter (hforms : c'.forms = c.forms.map f)
    (hf : ∀ form ∈ c.forms, (f form).field = form.field ∧
      (f form).entries bm stats = (form.entries bm stats).filter fun e => p e.1) (d : DocId) :
    c'.values bm stats d = if p d then c.values bm stats d else [] := by
  rw [values, hforms, filterMap_map]
  have hvalue : ∀ form ∈ c.forms, ((fun form => (value d (form.entries bm stats)).map fun v =>
      (form.field, v)) ∘ f) form = if p d then (value d (form.entries bm stats)).map
        (fun v => (form.field, v)) else none := by
    intro form hform
    rw [Function.comp_apply, (hf form hform).1, (hf form hform).2,
      value_filter form.ascending_entries p d]
    split_ifs <;> rfl
  rw [filterMap_congr hvalue]
  split_ifs with hp
  · rfl
  · exact filterMap_none c.forms

theorem entries_of_filter (hforms : c'.forms = c.forms.map f)
    (hf : ∀ form ∈ c.forms, (f form).field = form.field ∧
      (f form).entries bm stats = (form.entries bm stats).filter fun e => p e.1) :
    c'.entries bm stats = (c.entries bm stats).filter fun e => p e.1 := by
  refine ext_value c'.ascending_entries (ascending_filter c.ascending_entries _) fun d => ?_
  rw [value_filter c.ascending_entries p d, value_entries, value_entries,
    values_of_filter hforms hf]
  split_ifs with hp <;> simp_all

theorem Ok.of_filter (hforms : c'.forms = c.forms.map f)
    (hok : ∀ form ∈ c.forms, (f form).Ok bm stats) : c'.Ok bm stats := by
  intro form' hform'
  rw [hforms] at hform'
  obtain ⟨form, hform, rfl⟩ := mem_map.mp hform'
  exact hok form hform

theorem Bounded.of_filter (h : c.Bounded bm stats)
    (hentries : c'.entries bm stats = (c.entries bm stats).filter fun e => p e.1)
    (hbound : c'.upperBound = c.upperBound) : c'.Bounded bm stats := by
  intro e he
  rw [hentries] at he
  rw [hbound]
  exact h e (mem_of_mem_filter he)

theorem Ok.advanceTo (h : c.Ok bm stats) (t : DocId) : (c.advanceTo t).Ok bm stats ∧
      (c.advanceTo t).entries bm stats = (c.entries bm stats).filter fun e => t ≤ e.1 := by
  have hf : ∀ form ∈ c.forms, (form.advanceTo t).field = form.field ∧
      (form.advanceTo t).entries bm stats = (form.entries bm stats).filter fun e => t ≤ e.1 := by
    intro form hform
    obtain ⟨-, hentries, -, hfield⟩ := (h form hform).advanceTo t
    exact ⟨hfield, hentries⟩
  exact ⟨Ok.of_filter rfl fun form hform => ((h form hform).advanceTo t).1,
    entries_of_filter (p := fun d => decide (t ≤ d)) rfl hf⟩

theorem Ok.stepPast (h : c.Ok bm stats)
    (hle : ∀ e ∈ c.entries bm stats, d ≤ e.1) : (c.stepPast d).Ok bm stats ∧
      (c.stepPast d).entries bm stats = (c.entries bm stats).filter fun e => e.1 ≠ d := by
  have hle' : ∀ form ∈ c.forms, ∀ e ∈ form.entries bm stats, d ≤ e.1 := by
    intro form hform e he
    have hmem : (e.1, bestPerField (c.values bm stats e.1)) ∈ c.entries bm stats :=
      mem_map.mpr ⟨e.1, mem_docs.mpr ⟨form, hform, e.2, he⟩, rfl⟩
    exact hle (e.1, bestPerField (c.values bm stats e.1)) hmem
  have hf : ∀ form ∈ c.forms, (form.stepPast d).field = form.field ∧
      (form.stepPast d).entries bm stats = (form.entries bm stats).filter fun e => e.1 ≠ d := by
    intro form hform
    obtain ⟨-, hentries, -, hfield⟩ := (h form hform).stepPast (hle' form hform)
    exact ⟨hfield, hentries⟩
  exact ⟨Ok.of_filter rfl fun form hform => ((h form hform).stepPast (hle' form hform)).1,
    entries_of_filter (p := fun e => decide (e ≠ d)) rfl hf⟩

theorem Ok.score_eq (h : c.Ok bm stats) (hd : c.doc = some d) :
    value d (c.entries bm stats) = some (c.score bm stats d) := by
  have hmem : d ∈ c.docs bm stats := by
    rw [h.doc_eq, map_eq_some_iff] at hd
    obtain ⟨e, he, rfl⟩ := hd
    obtain ⟨d, hd, rfl⟩ := mem_map.mp (mem_of_head? he)
    exact hd
  have hfirst : ∀ form ∈ c.forms, ∀ e ∈ form.entries bm stats, d ≤ e.1 := by
    intro form hform e he
    rw [h.doc_eq] at hd
    have hasc := @ascending_entries _ bm stats c
    have hin : (e.1, bestPerField (c.values bm stats e.1)) ∈ c.entries bm stats :=
      mem_map.mpr ⟨e.1, mem_docs.mpr ⟨form, hform, e.2, he⟩, rfl⟩
    cases hl : c.entries bm stats with
    | nil => rw [hl] at hin; exact absurd hin (by simp)
    | cons e' l =>
      rw [hl, head?_cons, map_some, some_inj] at hd
      rw [hl] at hin hasc
      rcases mem_cons.mp hin with heq | hin
      · exact (hd ▸ congrArg Prod.fst heq.symm).le
      · exact hd ▸ (hasc.head_lt hin).le
  have hvalues := filterMap_value_eq (fun form v => (form.field, v)) (d := d)
    (fun form hform => (h form hform).doc_eq) hfirst (fun form _ => form.ascending_entries)
    fun form hform hd => (h form hform).score_eq hd
  rw [value_entries, if_neg (fun hnil => values_eq_nil.mp hnil hmem), values, hvalues, score]

end ClauseCursor

end Grouped

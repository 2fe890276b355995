/-
Merging ascending sources of documents.

A source is on its next document, or at its end.  As long as a source is on a
document, the smallest one is visited: a hit made of the sources on it is offered
to the heap, and those sources step past it.
-/
import Riets.Walk

namespace Walker

open List Keyed

variable {C D V : Type*} [LinearOrder D] {w : Walker C D} {ok : C → Prop} {entries : C → List (D × V)}

/-- The cursors are on the first document they have in common, `none` when there is none. -/
structure On (w : Walker C D) (ok : C → Prop) (entries : C → List (D × V)) (cs : List C)
    (here : Option D) : Prop where
  ne_nil : cs ≠ []
  ok : ∀ c ∈ cs, ok c
  doc_eq : here = (meetAll (cs.map entries)).head?.map Prod.fst
  on : ∀ d, here = some d → ∀ c ∈ cs, w.doc c = some d

variable {cs : List C}

theorem Lawful.on_leapRun (hw : w.Lawful ok entries) (hne : cs ≠ [])
    (hok : ∀ c ∈ cs, ok c) : ∃ r, w.leapRun cs = some r ∧ w.On ok entries r.2 r.1 ∧
      meetAll (r.2.map entries) = meetAll (cs.map entries) := by
  obtain ⟨r, hr, hdoc, hok', hlength, hmeet, hon⟩ := hw.leapRun_spec hne hok
  refine ⟨r, hr, ⟨?_, hok', by rw [hdoc, hmeet], hon⟩, hmeet⟩
  intro hnil
  rw [hnil, length_nil] at hlength
  exact hne (length_eq_zero_iff.mp hlength.symm)

theorem Lawful.on_pass (hw : w.Lawful ok entries) {d : D} (hcs : w.On ok entries cs (some d))
    {pass : C → C} (hpass : ∀ c, ok c → w.doc c = some d → ok (pass c) ∧
      entries (pass c) = (entries c).filter fun e => e.1 ≠ d) :
    ∃ r, w.leapRun (cs.map pass) = some r ∧ w.On ok entries r.2 r.1 ∧
      meetAll (r.2.map entries) = (meetAll (cs.map entries)).filter fun e => e.1 ≠ d := by
  have hstep : ∀ c ∈ cs, ok (pass c) ∧ entries (pass c) = (entries c).filter fun e => e.1 ≠ d :=
    fun c hc => hpass c (hcs.ok c hc) (hcs.on d rfl c hc)
  have hne : cs.map pass ≠ [] := fun hnil => hcs.ne_nil (map_eq_nil_iff.mp hnil)
  obtain ⟨r, hr, hon, hmeet⟩ := hw.on_leapRun hne fun c' hc' => by
    obtain ⟨c, hc, rfl⟩ := mem_map.mp hc'
    exact (hstep c hc).1
  refine ⟨r, hr, hon, ?_⟩
  have hmoved : (cs.map pass).map entries =
      (cs.map entries).map fun l => l.filter fun e => decide (e.1 ≠ d) := by
    rw [map_map, map_map]
    exact map_congr_left fun c hc => (hstep c hc).2
  rw [hmeet, hmoved]
  exact meetAll_map_filter (hw.ascending_of_mem hcs.ok) fun e => decide (e ≠ d)

theorem On.value_eq (hw : w.Lawful ok entries) {d : D} (hcs : w.On ok entries cs (some d))
    {score : C → V} (hscore : ∀ c ∈ cs, value d (entries c) = some (score c)) :
    value d (meetAll (cs.map entries)) = some (cs.map score) := by
  rw [value_meetAll (hw.ascending_of_mem hcs.ok) (by simpa using hcs.ne_nil), mapM_map]
  have hmap : ∀ {cs : List C}, (∀ c ∈ cs, value d (entries c) = some (score c)) →
      cs.mapM (value d ∘ entries) = some (cs.map score) := by
    intro cs hcs
    induction cs with
    | nil => rfl
    | cons c cs ih =>
      rw [mapM_cons, Function.comp_apply, hcs c mem_cons_self,
        ih fun c' hc' => hcs c' (mem_cons_of_mem c hc')]
      rfl
  exact hmap hscore

theorem On.length_le (hw : w.Lawful ok entries) {here : Option D}
    (hcs : w.On ok entries cs here) :
    (meetAll (cs.map entries)).length ≤ (cs.map w.left).sum := by
  obtain ⟨c, cs, rfl⟩ := exists_cons_of_ne_nil hcs.ne_nil
  have hfirst : (meetAll ((c :: cs).map entries)).length ≤ (entries c).length :=
    length_filterMap_le _ _
  refine hfirst.trans ((hw.length_le c (hcs.ok c mem_cons_self)).trans ?_)
  rw [map_cons, sum_cons]
  exact Nat.le_add_right _ _

end Walker

namespace Merge

open List Option Keyed

/-! ### The loop -/

/-- What a merge works with: where its sources are, how they step past a document (`none` when the
step does not end), how many documents are asked for, and which of them are allowed. -/
structure Search (S D H K : Type*) where
  doc : S → Option D
  next : S → D → Option S
  left : S → ℕ
  k : ℕ
  allowed : D → Bool
  hit : List S → D → H
  rank : H → K

namespace Search

variable {S D H K V : Type*} [LinearOrder D] [LinearOrder K]

def turn (s : Search S D H K) (st : List S × List H) : (List S × List H) ⊕ Option (List H) :=
  match (st.1.filterMap s.doc).min? with
  | none => .inr (some st.2)
  | some d =>
    let heap :=
      if s.allowed d then
        TopK.offer s.rank s.k st.2 (s.hit (st.1.filter fun source => s.doc source = some d) d)
      else st.2
    match st.1.mapM fun source => if s.doc source = some d then s.next source d else some source with
    | none => .inr none
    | some sources => .inl (sources, heap)

/-- The heap when all sources are at their end; `none` when a loop does not end. -/
def top (s : Search S D H K) (sources : List S) : Option (List H) :=
  (Loop.run s.turn ((sources.map s.left).sum + 1) (sources, [])).join

/-- The sources that are `ok` are on the first of their entries, a step ends and takes that entry
out, and the hit is made of what the sources hold at the document. -/
structure Lawful (s : Search S D H K) (ok : S → Prop) (entries : S → List (D × V))
    (hitOf : D → Multiset V → H) : Prop where
  ascending : ∀ source, ok source → Ascending Prod.fst (entries source)
  doc_eq : ∀ source, ok source → s.doc source = (entries source).head?.map Prod.fst
  length_le : ∀ source, ok source → (entries source).length ≤ s.left source
  next : ∀ source d, ok source → s.doc source = some d → ∃ source', s.next source d = some source' ∧
    ok source' ∧ entries source' = (entries source).filter fun e => e.1 ≠ d
  hit : ∀ sources d, (∀ source ∈ sources, ok source ∧ s.doc source = some d) →
    s.hit sources d = hitOf d ↑(sources.filterMap fun source => value d (entries source))
  rank_hit : ∀ d d' m m', s.rank (hitOf d m) = s.rank (hitOf d' m') → d = d'
  k_pos : 0 < s.k

variable {s : Search S D H K} {ok : S → Prop} {entries : S → List (D × V)} {hitOf : D → Multiset V → H}

def heldBy (entries : S → List (D × V)) (sources : List S) (d : D) : Multiset V :=
  ↑(sources.filterMap fun source => value d (entries source))

variable {sources : List S} {d : D}

theorem heldBy_eq_zero :
    heldBy entries sources d = 0 ↔ ∀ source ∈ sources, value d (entries source) = none := by
  rw [heldBy, Multiset.coe_eq_zero, filterMap_eq_nil_iff]

omit [LinearOrder K] in
theorem Lawful.value_eq_none (hs : s.Lawful ok entries hitOf) {source : S} (hok : ok source)
    (hle : ∀ d', s.doc source = some d' → d ≤ d') (hne : s.doc source ≠ some d) :
    value d (entries source) = none := by
  by_contra hsome
  obtain ⟨v, hv⟩ := ne_none_iff_exists'.mp hsome
  have hmem := mem_of_value hv
  have hasc := hs.ascending source hok
  have hdoc := hs.doc_eq source hok
  cases hl : entries source with
  | nil => rw [hl] at hmem; exact absurd hmem (by simp)
  | cons e l =>
    rw [hl, head?_cons, map_some] at hdoc
    rw [hl] at hmem hasc
    rcases mem_cons.mp hmem with rfl | hmem
    · exact hne hdoc
    · exact absurd (hasc.head_lt hmem) (not_lt.mpr (hle e.1 hdoc))

omit [LinearOrder K] in
theorem Lawful.step (hs : s.Lawful ok entries hitOf) (hok : ∀ source ∈ sources, ok source)
    (hle : ∀ source ∈ sources, ∀ d', s.doc source = some d' → d ≤ d') :
    ∃ sources', (sources.mapM fun source =>
        if s.doc source = some d then s.next source d else some source) = some sources' ∧
      (∀ source ∈ sources', ok source) ∧
      List.Forall₂ (fun source source' => entries source' = (entries source).filter fun e => e.1 ≠ d)
        sources sources' := by
  induction sources with
  | nil => exact ⟨[], rfl, by simp, Forall₂.nil⟩
  | cons source sources ih =>
    obtain ⟨sources', hstep, hok', hrest⟩ := ih (fun source' h => hok source' (mem_cons_of_mem source h))
      fun source' h => hle source' (mem_cons_of_mem source h)
    have hsource := hok source mem_cons_self
    have hfirst : ∃ source', (if s.doc source = some d then s.next source d else some source) =
        some source' ∧ ok source' ∧ entries source' = (entries source).filter fun e => e.1 ≠ d := by
      split_ifs with hd
      · exact hs.next source d hsource hd
      · refine ⟨source, rfl, hsource, (filter_eq_self.mpr fun e he => decide_eq_true ?_).symm⟩
        rintro rfl
        have hvalue := value_of_mem (hs.ascending source hsource) he
        rw [hs.value_eq_none hsource (hle source mem_cons_self) hd] at hvalue
        exact absurd hvalue (by simp)
    obtain ⟨source', hsome, hokf, hentries⟩ := hfirst
    refine ⟨source' :: sources', ?_, ?_, Forall₂.cons hentries hrest⟩
    · rw [mapM_cons, hsome, hstep]
      rfl
    · intro source'' h
      rcases mem_cons.mp h with rfl | h
      · exact hokf
      · exact hok' source'' h

variable {sources' : List S}

theorem heldBy_step (hasc : ∀ source ∈ sources, Ascending Prod.fst (entries source))
    (h : List.Forall₂ (fun source source' => entries source' = (entries source).filter fun e => e.1 ≠ d)
      sources sources') (e : D) :
    heldBy entries sources' e = if e ≠ d then heldBy entries sources e else 0 := by
  have hvalue : sources'.filterMap (fun source => value e (entries source)) =
      if e ≠ d then sources.filterMap (fun source => value e (entries source)) else [] := by
    induction h with
    | nil => split_ifs <;> rfl
    | @cons source source' sources sources' hentries _ ih =>
      have ih := ih fun source'' h => hasc source'' (mem_cons_of_mem source h)
      have hfirst := value_filter (hasc source mem_cons_self) (fun e => decide (e ≠ d)) e
      rw [filterMap_cons, filterMap_cons, hentries, hfirst, ih]
      by_cases he : e ≠ d
      · simp only [if_pos he, decide_eq_true he, if_true]
      · simp only [if_neg he, decide_eq_false he, Bool.false_eq_true, if_false]
  rw [heldBy, hvalue]
  split_ifs <;> rfl

def Wanted (s : Search S D H K) (d : D) (m : Multiset V) : Prop := s.allowed d = true ∧ m ≠ 0

def size (entries : S → List (D × V)) (sources : List S) : ℕ :=
  (sources.map fun source => (entries source).length).sum

theorem size_step_le
    (h : List.Forall₂ (fun source source' => entries source' = (entries source).filter fun e => e.1 ≠ d)
      sources sources') : size entries sources' ≤ size entries sources := by
  induction h with
  | nil => exact le_rfl
  | cons hentries _ ih =>
    rw [size, size, map_cons, map_cons, sum_cons, sum_cons, hentries]
    exact Nat.add_le_add (length_filter_le _ _) ih

theorem size_step_lt
    (h : List.Forall₂ (fun source source' => entries source' = (entries source).filter fun e => e.1 ≠ d)
      sources sources') (hon : ∃ source ∈ sources, ∃ e ∈ entries source, e.1 = d) :
    size entries sources' < size entries sources := by
  induction h with
  | nil => obtain ⟨source, hsource, -⟩ := hon; exact absurd hsource not_mem_nil
  | @cons source source' sources sources' hentries hrest ih =>
    have hle := size_step_le hrest
    rw [size, size] at hle
    rw [size, size, map_cons, map_cons, sum_cons, sum_cons, hentries]
    obtain ⟨first, hfirst, e, he, heq⟩ := hon
    rcases mem_cons.mp hfirst with rfl | hfirst
    · have hlt : ((entries first).filter fun e => decide (e.1 ≠ d)).length < (entries first).length :=
        length_filter_lt_length_iff_exists.mpr ⟨e, he, by simp [heq]⟩
      omega
    · have hlt := ih ⟨first, hfirst, e, he, heq⟩
      rw [size, size] at hlt
      have hfilter := length_filter_le (fun e => decide (e.1 ≠ d)) (entries source)
      omega

variable {init : D → Multiset V} {heap : List H}

theorem Lawful.turn_spec (hs : s.Lawful ok entries hitOf)
    (hok : ∀ source ∈ sources, ok source)
    (hsweep : Sweep s.rank s.k hitOf s.Wanted init (heldBy entries sources) heap) :
    (∀ st, s.turn (sources, heap) = .inl st → (∀ source ∈ st.1, ok source) ∧
      Sweep s.rank s.k hitOf s.Wanted init (heldBy entries st.1) st.2 ∧
        size entries st.1 < size entries sources) ∧
      ∀ r, s.turn (sources, heap) = .inr r → ∃ heap', r = some heap' ∧
        Sweep s.rank s.k hitOf s.Wanted init (fun _ => 0) heap' := by
  rw [turn]
  cases hmin : (sources.filterMap s.doc).min? with
  | none =>
    -- no source has a document left
    refine ⟨fun st hst => by simp at hst, fun r hr => ⟨heap, (Sum.inr.inj hr).symm, ?_⟩⟩
    have hzero : heldBy entries sources = fun _ => 0 := by
      funext d
      refine heldBy_eq_zero.mpr fun source hsource => ?_
      have hdoc := filterMap_eq_nil_iff.mp (min?_eq_none_iff.mp hmin) source hsource
      rw [hs.doc_eq source (hok source hsource), map_eq_none_iff, head?_eq_none_iff] at hdoc
      rw [hdoc]
      rfl
    rw [← hzero]
    exact hsweep
  | some d =>
    obtain ⟨hmem, hfirst⟩ := min?_eq_some_iff.mp hmin
    have hle : ∀ source ∈ sources, ∀ d', s.doc source = some d' → d ≤ d' := fun source hsource d' hd' =>
      hfirst d' (mem_filterMap.mpr ⟨source, hsource, hd'⟩)
    obtain ⟨sources', hstep, hok', hpairs⟩ := hs.step hok hle
    have hheld := heldBy_step (fun source hsource => hs.ascending source (hok source hsource)) hpairs
    have hzero : heldBy entries sources' d = 0 := (hheld d).trans (if_neg (not_not.mpr rfl))
    have hsame : ∀ e, e ≠ d → heldBy entries sources' e = heldBy entries sources e := fun e he =>
      (hheld e).trans (if_pos he)
    -- the source the smallest document comes from has it
    obtain ⟨source, hsource, hd⟩ := mem_filterMap.mp hmem
    obtain ⟨e, he, heq⟩ := map_eq_some_iff.mp (hs.doc_eq source (hok source hsource) ▸ hd)
    have hin : e ∈ entries source := mem_of_head? he
    have hne : heldBy entries sources d ≠ 0 := by
      intro hnone
      have hvalue := value_of_mem (hs.ascending source (hok source hsource)) hin
      rw [heq, heldBy_eq_zero.mp hnone source hsource] at hvalue
      exact absurd hvalue (by simp)
    have hhit : s.hit (sources.filter fun source => s.doc source = some d) d =
        hitOf d (heldBy entries sources d) := by
      rw [hs.hit _ d fun source h => ⟨hok source (mem_of_mem_filter h),
        of_decide_eq_true (mem_filter.mp h).2⟩, heldBy, filterMap_filter]
      refine congrArg (fun l : List V => hitOf d ↑l) (filterMap_congr fun source hsource => ?_)
      split_ifs with hon
      · rfl
      · exact (hs.value_eq_none (hok source hsource) (hle source hsource) (by simpa using hon)).symm
    simp only [hstep, hhit]
    refine ⟨fun st hst => ?_, fun r hr => by simp at hr⟩
    obtain rfl := Sum.inl.inj hst
    refine ⟨hok', ?_, size_step_lt hpairs ⟨source, hsource, e, hin, heq⟩⟩
    simp only
    split_ifs with hallowed
    · exact hsweep.visit hs.k_pos hs.rank_hit hne hzero hsame ⟨hallowed, hne⟩
    · exact hsweep.drop hzero hsame fun hw => hallowed hw.1

theorem Lawful.top_eq (hs : s.Lawful ok entries hitOf)
    (hok : ∀ source ∈ sources, ok source) {docs : List D} (hnodup : docs.Nodup)
    (hdocs : ∀ d, d ∈ docs ↔ s.Wanted d (heldBy entries sources d)) :
    (s.top sources).map (sortBy s.rank) =
      some (TopK.best s.rank s.k (docs.map fun d => hitOf d (heldBy entries sources d))) := by
  let inv : List S × List H → Prop := fun st => (∀ source ∈ st.1, ok source) ∧
    Sweep s.rank s.k hitOf s.Wanted (heldBy entries sources) (heldBy entries st.1) st.2
  have hturn : ∀ st st', inv st → s.turn st = .inl st' →
      inv st' ∧ size entries st'.1 < size entries st.1 := by
    intro st st' hst h
    obtain ⟨hok', hsweep', hlt⟩ := (hs.turn_spec hst.1 hst.2).1 st' h
    exact ⟨⟨hok', hsweep'⟩, hlt⟩
  have hreturn : ∀ st r, inv st → s.turn st = .inr r → ∃ heap', r = some heap' ∧
      Sweep s.rank s.k hitOf s.Wanted (heldBy entries sources) (fun _ => 0) heap' :=
    fun st r hst h => (hs.turn_spec hst.1 hst.2).2 r h
  have hstart : inv (sources, []) := ⟨hok, Sweep.start fun d hw => hw.2 rfl⟩
  have hfuel : size entries sources < (sources.map s.left).sum + 1 := by
    have hle : size entries sources ≤ (sources.map s.left).sum :=
      sum_le_sum fun source hsource => hs.length_le source (hok source hsource)
    omega
  obtain ⟨r, hrun, heap, rfl, hsweep⟩ := Loop.run_spec hturn hreturn
    hstart hfuel
  rw [top, hrun, join_some, map_some]
  exact congrArg some (hsweep.sortBy_eq (fun _ => rfl) hs.rank_hit hnodup hdocs)

end Search

end Merge

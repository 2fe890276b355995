/-
Top-k search with upper bounds.

With the cursors sorted by document, the first one at which the bounds added up
reach the worst score of a full heap is the pivot: a document before the pivot's
is on too few cursors to get into the heap, so the cursors before it move up to
it at once.
-/
import Riets.Walk
import Mathlib.Data.Prod.Lex

def u64Max : ℕ := 2 ^ 64 - 1

/-- `u64::saturating_add`. -/
def satAdd (a b : ℕ) : ℕ := min (a + b) u64Max

/-- `u64::saturating_mul`. -/
def satMul (a b : ℕ) : ℕ := min (a * b) u64Max

def satSum (l : List ℕ) : ℕ := l.foldl satAdd 0

theorem foldl_satAdd (l : List ℕ) (a : ℕ) (ha : a ≤ u64Max) :
    l.foldl satAdd a = min (a + l.sum) u64Max := by
  induction l generalizing a with
  | nil =>
    rw [List.foldl_nil, List.sum_nil]
    omega
  | cons b l ih =>
    rw [List.foldl_cons, List.sum_cons, ih (satAdd a b) (min_le_right _ _), satAdd]
    omega

theorem satSum_eq (l : List ℕ) : satSum l = min l.sum u64Max := by
  rw [satSum, foldl_satAdd l 0 (Nat.zero_le _), Nat.zero_add]

namespace Pivot

open List Option Keyed TopK

/-! ### The walk -/

/-- What a search walks with: its cursors, how good a document is, how many documents are asked
for and which of them are allowed. -/
structure Search (C D H : Type*) extends Walker C D where
  stepPast : C → D → C
  upperBound : C → ℕ
  sort : List C → List C
  k : ℕ
  allowed : D → Bool
  accepts : List C → Bool
  evaluate : List C → D → Option H
  docOf : H → D
  score : H → ℕ

namespace Search

variable {C D H : Type*} [LinearOrder D] (s : Search C D H)

/-- The order of hits: the score, then the document. -/
def rank (h : H) : ℕᵒᵈ ×ₗ D := toLex (OrderDual.toDual (s.score h), s.docOf h)

/-- The score that a new hit has to beat. -/
def threshold (heap : List H) : ℕ :=
  if heap.length < s.k then 0 else (heap.head?.map s.score).getD 0

/-- The bounds together beat the threshold. -/
def Reaches (threshold : ℕ) (cs : List C) : Prop :=
  threshold ≤ satSum (cs.map s.upperBound) ∧ 0 < satSum (cs.map s.upperBound) ∧ s.accepts cs = true

instance (threshold : ℕ) (cs : List C) : Decidable (s.Reaches threshold cs) :=
  inferInstanceAs (Decidable (_ ∧ _ ∧ _))

/-- The first cursor at which the bounds beat the threshold. -/
def pivotIndex (threshold : ℕ) (cs : List C) : Option ℕ :=
  (range cs.length).find? fun i => s.Reaches threshold (cs.take (i + 1))

def visited (cs : List C) (d : D) (heap : List H) : List H :=
  if s.allowed d then
    match s.evaluate cs d with
    | some hit => offer s.rank s.k heap hit
    | none => heap
  else heap

/-- One turn, on the cursors that are not exhausted, in the order of their documents. -/
def turnSorted (cs : List C) (heap : List H) : (List C × List H) ⊕ List H :=
  match s.pivotIndex (s.threshold heap) cs with
  | none => .inr heap
  | some i =>
    match cs.head?.bind s.doc, cs[i]?.bind s.doc with
    | some smallest, some pivot =>
      if smallest = pivot then
        .inl (cs.map fun c => s.stepPast c pivot, s.visited cs pivot heap)
      else .inl ((cs.take i).map (fun c => s.advanceTo c pivot) ++ cs.drop i, heap)
    | _, _ => .inr heap

/-- One turn of the loop: the state goes on, or the heap is done. -/
def turn (st : List C × List H) : (List C × List H) ⊕ List H :=
  s.turnSorted (s.sort (st.1.filter fun c => (s.doc c).isSome)) st.2

def top (cs : List C) : List H :=
  (Loop.run s.turn ((cs.map s.left).sum + 1) (cs, [])).getD []

/-! ### What the cursors hold -/

variable {s} {ok : C → Prop} {entries : C → List (D × ℕ)} {hit : D → Multiset (ℕ × ℕ) → H}

def held (s : Search C D H) (entries : C → List (D × ℕ)) (d : D) (c : C) : Option (ℕ × ℕ) :=
  (value d (entries c)).map fun v => (v, s.upperBound c)

/-- What the cursors hold for a document. -/
def heldBy (s : Search C D H) (entries : C → List (D × ℕ)) (cs : List C) (d : D) : Multiset (ℕ × ℕ) :=
  ↑(cs.filterMap (s.held entries d))

/-- A wanted document is allowed and on a cursor with a positive bound. -/
def Wanted (s : Search C D H) (d : D) (m : Multiset (ℕ × ℕ)) : Prop :=
  s.allowed d = true ∧ ∃ w ∈ m, 0 < w.2

/-- The operations do what they are for, and no entry is worth more than its cursor's bound. -/
structure Lawful (s : Search C D H) (ok : C → Prop) (entries : C → List (D × ℕ))
    (hit : D → Multiset (ℕ × ℕ) → H) : Prop extends s.toWalker.Lawful ok entries where
  ok_stepPast : ∀ c d, ok c → (∀ e ∈ entries c, d ≤ e.1) → ok (s.stepPast c d)
  entries_stepPast : ∀ c d, ok c → (∀ e ∈ entries c, d ≤ e.1) →
    entries (s.stepPast c d) = (entries c).filter fun e => e.1 ≠ d
  upperBound_advanceTo : ∀ c t, s.upperBound (s.advanceTo c t) = s.upperBound c
  upperBound_stepPast : ∀ c d, s.upperBound (s.stepPast c d) = s.upperBound c
  le_upperBound : ∀ c, ok c → ∀ e ∈ entries c, e.2 ≤ s.upperBound c
  sort_perm : ∀ cs, (s.sort cs).Perm cs
  sort_sorted : ∀ cs, (s.sort cs).Pairwise fun a b =>
    ∀ d d', s.doc a = some d → s.doc b = some d' → d ≤ d'
  k_pos : 0 < s.k
  accepts : ∀ cs, s.accepts cs = true
  evaluate : ∀ cs d, (∀ c ∈ cs, ok c) → (∀ c ∈ cs, ∀ e ∈ entries c, d ≤ e.1) →
    s.heldBy entries cs d ≠ 0 → s.evaluate cs d = some (hit d (s.heldBy entries cs d))
  docOf_hit : ∀ d m, s.docOf (hit d m) = d
  score_hit : ∀ d m, s.score (hit d m) = min (m.map Prod.fst).sum u64Max

variable {cs : List C}

theorem heldBy_perm {cs' : List C} (h : cs.Perm cs') (d : D) :
    s.heldBy entries cs d = s.heldBy entries cs' d :=
  Multiset.coe_eq_coe.mpr (h.filterMap _)

theorem heldBy_append (cs cs' : List C) (d : D) :
    s.heldBy entries (cs ++ cs') d = s.heldBy entries cs d + s.heldBy entries cs' d := by
  rw [heldBy, filterMap_append, ← Multiset.coe_add]
  rfl

variable {d : D}

theorem heldBy_eq_zero :
    s.heldBy entries cs d = 0 ↔ ∀ c ∈ cs, value d (entries c) = none := by
  rw [heldBy, Multiset.coe_eq_zero, filterMap_eq_nil_iff]
  simp [held]

theorem heldBy_map_eq {f : C → C}
    (h : ∀ c ∈ cs, s.upperBound (f c) = s.upperBound c ∧
      value d (entries (f c)) = value d (entries c)) :
    s.heldBy entries (cs.map f) d = s.heldBy entries cs d := by
  rw [heldBy, heldBy, filterMap_map]
  refine congrArg _ (filterMap_congr fun c hc => ?_)
  rw [Function.comp_apply, held, held, (h c hc).1, (h c hc).2]

/-! ### Bounds -/

theorem Lawful.sum_heldBy_le (hs : s.Lawful ok entries hit) (hok : ∀ c ∈ cs, ok c) (d : D) :
    ((s.heldBy entries cs d).map Prod.fst).sum ≤ (cs.map s.upperBound).sum := by
  rw [heldBy, Multiset.map_coe, Multiset.sum_coe]
  induction cs with
  | nil => exact le_rfl
  | cons c cs ih =>
    have hrest := ih fun c' hc' => hok c' (mem_cons_of_mem c hc')
    rw [map_cons, sum_cons, filterMap_cons]
    cases hv : value d (entries c) with
    | none =>
      have hheld : s.held entries d c = none := by rw [held, hv]; rfl
      simp only [hheld]
      omega
    | some v =>
      have hheld : s.held entries d c = some (v, s.upperBound c) := by rw [held, hv]; rfl
      have hle : v ≤ s.upperBound c :=
        hs.le_upperBound c (hok c mem_cons_self) _ (mem_of_value hv)
      simp only [hheld, map_cons, sum_cons]
      omega

theorem pos_of_wanted (h : s.Wanted d (s.heldBy entries cs d)) :
    0 < (cs.map s.upperBound).sum := by
  obtain ⟨-, w, hw, hpos⟩ := h
  obtain ⟨c, hc, hheld⟩ := mem_filterMap.mp (Multiset.mem_coe.mp hw)
  obtain ⟨v, -, rfl⟩ := map_eq_some_iff.mp hheld
  exact hpos.trans_le (le_sum_of_mem (mem_map.mpr ⟨c, hc, rfl⟩))

theorem rank_lt_of_score_lt {h h' : H} (hlt : s.score h' < s.score h) : s.rank h < s.rank h' :=
  Prod.Lex.lt_iff.mpr (.inl (OrderDual.toDual_lt_toDual.mpr hlt))

theorem score_le_of_rank_le {h h' : H} (hle : s.rank h ≤ s.rank h') : s.score h' ≤ s.score h :=
  not_lt.mp fun hlt => absurd (rank_lt_of_score_lt hlt) (not_lt.mpr hle)

theorem full_of_lt_threshold {S : Set H} {heap : List H} (h : Best s.rank s.k S heap) {n : ℕ}
    (hn : n < s.threshold heap) : heap.length = s.k ∧ ∀ b ∈ heap, n < s.score b := by
  rw [threshold] at hn
  split_ifs at hn with hlt
  · omega
  · refine ⟨le_antisymm h.length_le (not_lt.mp hlt), fun b hb => ?_⟩
    cases heap with
    | nil => exact absurd hb (by simp)
    | cons worst rest =>
      rw [head?_cons, map_some, getD_some] at hn
      rcases mem_cons.mp hb with rfl | hb
      · exact hn
      · exact hn.trans_le (score_le_of_rank_le ((pairwise_cons.mp h.sorted).1 b hb).le)

theorem Lawful.worse_of_short (hs : s.Lawful ok entries hit) {S : Set H} {heap : List H}
    (hbest : Best s.rank s.k S heap) (hok : ∀ c ∈ cs, ok c)
    (hshort : ¬ s.Reaches (s.threshold heap) cs) (hd : s.Wanted d (s.heldBy entries cs d)) :
    heap.length = s.k ∧ ∀ b ∈ heap, s.rank b < s.rank (hit d (s.heldBy entries cs d)) := by
  have hpos := pos_of_wanted hd
  have hle : s.score (hit d (s.heldBy entries cs d)) ≤ satSum (cs.map s.upperBound) := by
    rw [hs.score_hit, satSum_eq]
    have := hs.sum_heldBy_le hok d
    omega
  have hsum : 0 < satSum (cs.map s.upperBound) := by
    rw [satSum_eq, u64Max]
    omega
  have hlt : satSum (cs.map s.upperBound) < s.threshold heap :=
    not_le.mp fun hreach => hshort ⟨hreach, hsum, hs.accepts cs⟩
  obtain ⟨hfull, hall⟩ := full_of_lt_threshold hbest (lt_of_le_of_lt hle hlt)
  exact ⟨hfull, fun b hb => rank_lt_of_score_lt (hall b hb)⟩

omit [LinearOrder D] in
theorem not_reaches_nil (t : ℕ) : ¬ s.Reaches t [] := fun h => absurd h.2.1 (by simp [satSum])

variable {t : ℕ}

omit [LinearOrder D] in
theorem not_reaches_of_no_pivot (h : s.pivotIndex t cs = none) :
    ¬ s.Reaches t cs := by
  rw [pivotIndex, find?_eq_none] at h
  cases hcs : cs with
  | nil => exact not_reaches_nil t
  | cons c cs' =>
    have hlast : cs.length - 1 < cs.length := by rw [hcs]; simp
    have hnot := h (cs.length - 1) (mem_range.mpr hlast)
    rw [Nat.sub_add_cancel (by omega), take_length, hcs] at hnot
    simpa using hnot

variable {i : ℕ}

omit [LinearOrder D] in
theorem reaches_at_pivot (h : s.pivotIndex t cs = some i) :
    i < cs.length ∧ s.Reaches t (cs.take (i + 1)) ∧ ¬ s.Reaches t (cs.take i) := by
  rw [pivotIndex, find?_range_eq_some] at h
  obtain ⟨hat, hi, hbefore⟩ := h
  refine ⟨mem_range.mp hi, of_decide_eq_true hat, ?_⟩
  rcases i with _ | i
  · exact not_reaches_nil t
  · have hnot := hbefore i (Nat.lt_succ_self i)
    simpa using hnot

/-! ### One turn -/

def size (entries : C → List (D × ℕ)) (cs : List C) : ℕ := (cs.map fun c => (entries c).length).sum

/-- The cursors are in the order of their documents, none is exhausted. -/
structure InOrder (s : Search C D H) (ok : C → Prop) (cs : List C) : Prop where
  ok : ∀ c ∈ cs, ok c
  doc : ∀ c ∈ cs, ∃ d, s.doc c = some d
  sorted : cs.Pairwise fun a b => ∀ d d', s.doc a = some d → s.doc b = some d' → d ≤ d'

variable {c : C}

theorem Lawful.head_le (hs : s.Lawful ok entries hit) (h : s.InOrder ok (c :: cs))
    (hd : s.doc c = some d) : ∀ c' ∈ c :: cs, ∀ e ∈ entries c', d ≤ e.1 := by
  intro c' hc' e he
  obtain ⟨d', hd'⟩ := h.doc c' hc'
  have hfirst : d' ≤ e.1 := hs.toLawful.le_of_mem (h.ok c' hc') hd' he
  rcases mem_cons.mp hc' with rfl | hc'
  · rw [hd, some_inj] at hd'
    exact hd' ▸ hfirst
  · exact ((pairwise_cons.mp h.sorted).1 c' hc' d d' hd hd').trans hfirst

theorem heldBy_eq_zero_of_lt {e : D}
    (hle : ∀ c ∈ cs, ∀ x ∈ entries c, d ≤ x.1) (hlt : e < d) : s.heldBy entries cs e = 0 := by
  refine heldBy_eq_zero.mpr fun c hc => ?_
  rw [value, map_eq_none_iff, find_eq_none]
  intro x hx heq
  exact absurd (hle c hc x hx) (not_le.mpr (heq ▸ hlt))

theorem Lawful.heldBy_ne_zero (hs : s.Lawful ok entries hit) (hc : c ∈ cs)
    (hok : ok c) (hd : s.doc c = some d) :
    ∃ v, (v, s.upperBound c) ∈ s.heldBy entries cs d := by
  rw [hs.doc_eq c hok] at hd
  obtain ⟨e, he, rfl⟩ := map_eq_some_iff.mp hd
  refine ⟨e.2, Multiset.mem_coe.mpr (mem_filterMap.mpr ⟨c, hc, ?_⟩)⟩
  rw [held, value_of_mem (hs.ascending c hok) (mem_of_head? he)]
  rfl

theorem Lawful.heldBy_stepPast (hs : s.Lawful ok entries hit) (hok : ∀ c ∈ cs, ok c)
    (hle : ∀ c ∈ cs, ∀ x ∈ entries c, d ≤ x.1) :
    s.heldBy entries (cs.map fun c => s.stepPast c d) d = 0 ∧
      ∀ e, e ≠ d → s.heldBy entries (cs.map fun c => s.stepPast c d) e = s.heldBy entries cs e := by
  have hvalue : ∀ c ∈ cs, ∀ e, value e (entries (s.stepPast c d)) =
      if decide (e ≠ d) then value e (entries c) else none := by
    intro c hc e
    rw [hs.entries_stepPast c d (hok c hc) (hle c hc)]
    exact value_filter (hs.ascending c (hok c hc)) (fun e => decide (e ≠ d)) e
  constructor
  · refine heldBy_eq_zero.mpr fun c' hc' => ?_
    obtain ⟨c, hc, rfl⟩ := mem_map.mp hc'
    rw [hvalue c hc d, if_neg (by simp)]
  · intro e he
    refine heldBy_map_eq fun c hc => ⟨hs.upperBound_stepPast c d, ?_⟩
    rw [hvalue c hc e, if_pos (decide_eq_true he)]

theorem Lawful.heldBy_advanceTo (hs : s.Lawful ok entries hit) (hok : ∀ c ∈ cs, ok c)
    (t : D) (e : D) : s.heldBy entries (cs.map fun c => s.advanceTo c t) e =
      if t ≤ e then s.heldBy entries cs e else 0 := by
  have hvalue : ∀ c ∈ cs, value e (entries (s.advanceTo c t)) =
      if decide (t ≤ e) then value e (entries c) else none := by
    intro c hc
    rw [hs.entries_advanceTo c t (hok c hc)]
    exact value_filter (hs.ascending c (hok c hc)) (fun e => decide (t ≤ e)) e
  split_ifs with hte
  · refine heldBy_map_eq fun c hc => ⟨hs.upperBound_advanceTo c t, ?_⟩
    rw [hvalue c hc, if_pos (decide_eq_true hte)]
  · refine heldBy_eq_zero.mpr fun c' hc' => ?_
    obtain ⟨c, hc, rfl⟩ := mem_map.mp hc'
    rw [hvalue c hc, if_neg (by simpa using hte)]

variable {init : D → Multiset (ℕ × ℕ)} {heap : List H}

section

variable (hs : s.Lawful ok entries hit)
include hs

theorem Lawful.rank_hit :
    ∀ d d' m m', s.rank (hit d m) = s.rank (hit d' m') → d = d' := by
  intro d d' m m' h
  have hdoc : s.docOf (hit d m) = s.docOf (hit d' m') := congrArg (fun r => (ofLex r).2) h
  rwa [hs.docOf_hit, hs.docOf_hit] at hdoc

theorem Lawful.visit (h : s.InOrder ok (c :: cs))
    (hsweep : Sweep s.rank s.k hit s.Wanted init (s.heldBy entries (c :: cs)) heap)
    (hd : s.doc c = some d) (hpos : ∃ c' ∈ c :: cs, s.doc c' = some d ∧ 0 < s.upperBound c') :
    Sweep s.rank s.k hit s.Wanted init (s.heldBy entries ((c :: cs).map fun c => s.stepPast c d))
      (s.visited (c :: cs) d heap) := by
  have hle := hs.head_le h hd
  obtain ⟨hzero, hsame⟩ := hs.heldBy_stepPast h.ok hle
  obtain ⟨c', hc', hd', hpos⟩ := hpos
  obtain ⟨v, hv⟩ := hs.heldBy_ne_zero hc' (h.ok c' hc') hd'
  have hne : s.heldBy entries (c :: cs) d ≠ 0 := fun hz => Multiset.notMem_zero _ (hz ▸ hv)
  rw [visited]
  split_ifs with hallowed
  · rw [hs.evaluate _ d h.ok hle hne]
    exact hsweep.visit hs.k_pos hs.rank_hit hne hzero hsame ⟨hallowed, _, hv, hpos⟩
  · exact hsweep.drop hzero hsame fun hw => hallowed hw.1

theorem Lawful.pass (h : s.InOrder ok cs)
    (hsweep : Sweep s.rank s.k hit s.Wanted init (s.heldBy entries cs) heap) {t : D}
    (hrest : ∀ c ∈ cs.drop i, ∀ e ∈ entries c, t ≤ e.1)
    (hshort : ¬ s.Reaches (s.threshold heap) (cs.take i)) :
    Sweep s.rank s.k hit s.Wanted init
      (s.heldBy entries ((cs.take i).map (fun c => s.advanceTo c t) ++ cs.drop i)) heap := by
  have hok : ∀ c ∈ cs.take i, ok c := fun c hc => h.ok c (mem_of_mem_take hc)
  have hsplit : ∀ e, s.heldBy entries cs e =
      s.heldBy entries (cs.take i) e + s.heldBy entries (cs.drop i) e := by
    intro e
    rw [← heldBy_append, take_append_drop]
  refine hsweep.pass (fun e => ?_) fun e hgone hne hw => ?_
  · rw [heldBy_append, hs.heldBy_advanceTo hok, hsplit e]
    split_ifs with hte
    · exact .inl rfl
    · rw [heldBy_eq_zero_of_lt hrest (not_le.mp hte)]
      exact .inr rfl
  · rw [heldBy_append, hs.heldBy_advanceTo hok] at hgone
    split_ifs at hgone with hte
    · exact absurd (hsplit e ▸ hgone) hne
    · -- a document that goes is on the cursors before the pivot only
      have hbefore : s.heldBy entries cs e = s.heldBy entries (cs.take i) e := by
        rw [hsplit e, heldBy_eq_zero_of_lt hrest (not_le.mp hte), add_zero]
      rw [hbefore] at hw ⊢
      exact hs.worse_of_short hsweep.best hok hshort hw

theorem Lawful.le_of_mem_drop (h : s.InOrder ok cs)
    {t : D} (hc : cs[i]? = some c) (ht : s.doc c = some t) :
    ∀ c' ∈ cs.drop i, ∀ e ∈ entries c', t ≤ e.1 := by
  obtain ⟨hi, rfl⟩ := List.getElem?_eq_some_iff.mp hc
  have hdrop : cs.drop i = cs[i] :: cs.drop (i + 1) := (getElem_cons_drop hi).symm
  have hin : s.InOrder ok (cs.drop i) :=
    ⟨fun c' hc' => h.ok c' (mem_of_mem_drop hc'), fun c' hc' => h.doc c' (mem_of_mem_drop hc'),
      h.sorted.drop⟩
  rw [hdrop] at hin ⊢
  exact hs.head_le hin ht

end

theorem InOrder.doc_of_le (h : s.InOrder ok (c :: cs)) {p : C}
    (hp : (c :: cs)[i]? = some p) (hc : s.doc c = some d) (hpd : s.doc p = some d) :
    ∀ c' ∈ (c :: cs).take (i + 1), s.doc c' = some d := by
  intro c' hc'
  obtain ⟨j, hj, rfl⟩ := mem_take_iff_getElem.mp hc'
  obtain ⟨hi, rfl⟩ := List.getElem?_eq_some_iff.mp hp
  obtain ⟨d', hd'⟩ := h.doc (c :: cs)[j] (getElem_mem _)
  have hle : ∀ a b (ha : a < (c :: cs).length) (hb : b < (c :: cs).length), a ≤ b →
      ∀ x y, s.doc (c :: cs)[a] = some x → s.doc (c :: cs)[b] = some y → x ≤ y := by
    intro a b ha hb hab x y hx hy
    rcases hab.eq_or_lt with rfl | hlt
    · rw [hx, some_inj] at hy
      exact hy.le
    · exact pairwise_iff_getElem.mp h.sorted a b ha hb hlt x y hx hy
  have hlow : d ≤ d' := hle 0 j (by simp) (by omega) (Nat.zero_le j) d d' hc hd'
  have hhigh : d' ≤ d := hle j i (by omega) hi (by omega) d' d hd' hpd
  rw [hd', le_antisymm hhigh hlow]

omit [LinearOrder D] in
theorem size_map_lt {f : C → C}
    (hle : ∀ c ∈ cs, (entries (f c)).length ≤ (entries c).length)
    (hlt : ∃ c ∈ cs, (entries (f c)).length < (entries c).length) :
    size entries (cs.map f) < size entries cs := by
  rw [size, size, List.map_map]
  exact sum_lt_sum _ _ hle hlt

theorem Lawful.length_stepPast_le (hs : s.Lawful ok entries hit) (hc : ok c)
    (hle : ∀ e ∈ entries c, d ≤ e.1) : (entries (s.stepPast c d)).length ≤ (entries c).length := by
  rw [hs.entries_stepPast c d hc hle]
  exact length_filter_le _ _

theorem Lawful.turnSorted_spec (hs : s.Lawful ok entries hit) (h : s.InOrder ok cs)
    (hsweep : Sweep s.rank s.k hit s.Wanted init (s.heldBy entries cs) heap) :
    (∀ st, s.turnSorted cs heap = .inl st → (∀ c ∈ st.1, ok c) ∧
      Sweep s.rank s.k hit s.Wanted init (s.heldBy entries st.1) st.2 ∧
        size entries st.1 < size entries cs) ∧
      ∀ r, s.turnSorted cs heap = .inr r → Sweep s.rank s.k hit s.Wanted init (fun _ => 0) r := by
  rw [turnSorted]
  cases hpivot : s.pivotIndex (s.threshold heap) cs with
  | none =>
    -- all cursors together are not enough: what is left may go unseen
    refine ⟨fun st hst => by simp at hst, fun r hr => ?_⟩
    obtain rfl := Sum.inr.inj hr
    refine hsweep.pass (fun d => .inr rfl) fun d _ _ hw => ?_
    exact hs.worse_of_short hsweep.best h.ok (not_reaches_of_no_pivot hpivot) hw
  | some i =>
    obtain ⟨hi, hreach, hshort⟩ := reaches_at_pivot hpivot
    obtain ⟨c, cs', rfl⟩ := exists_cons_of_ne_nil (ne_nil_of_length_pos (by omega : 0 < cs.length))
    have hp : (c :: cs')[i]? = some (c :: cs')[i] := getElem?_eq_getElem hi
    obtain ⟨smallest, hsmallest⟩ := h.doc c mem_cons_self
    obtain ⟨pivot, hpd⟩ := h.doc (c :: cs')[i] (getElem_mem hi)
    simp only [head?_cons, bind_some, hsmallest, hp, hpd]
    have hle := hs.head_le h hsmallest
    split_ifs with heq
    · subst heq
      refine ⟨fun st hst => ?_, fun r hr => by simp at hr⟩
      obtain rfl := Sum.inl.inj hst
      -- the bounds are not all zero, and the cursors up to the pivot are on its document
      have hpos : ∃ c' ∈ c :: cs', s.doc c' = some smallest ∧ 0 < s.upperBound c' := by
        have hsum := hreach.2.1
        rw [satSum_eq] at hsum
        have hne : ((((c :: cs').take (i + 1)).map s.upperBound)).sum ≠ 0 := by omega
        obtain ⟨u, hu, hupos⟩ := exists_mem_ne_zero_of_sum_ne_zero hne
        obtain ⟨c', hc', rfl⟩ := mem_map.mp hu
        exact ⟨c', mem_of_mem_take hc', h.doc_of_le hp hsmallest hpd c' hc', Nat.pos_of_ne_zero hupos⟩
      refine ⟨fun c' hc' => ?_, hs.visit h hsweep hsmallest hpos, size_map_lt (fun c' hc' => ?_)
        ⟨c, mem_cons_self, ?_⟩⟩
      · obtain ⟨c'', hc'', rfl⟩ := mem_map.mp hc'
        exact hs.ok_stepPast c'' smallest (h.ok c'' hc'') (hle c'' hc'')
      · exact hs.length_stepPast_le (h.ok c' hc') (hle c' hc')
      · rw [hs.entries_stepPast c smallest (h.ok c mem_cons_self) (hle c mem_cons_self)]
        rw [hs.doc_eq c (h.ok c mem_cons_self)] at hsmallest
        obtain ⟨e, he, hes⟩ := map_eq_some_iff.mp hsmallest
        exact length_filter_lt_length_iff_exists.mpr ⟨e, mem_of_head? he, by simp [hes]⟩
    · refine ⟨fun st hst => ?_, fun r hr => by simp at hr⟩
      obtain rfl := Sum.inl.inj hst
      have hrest := hs.le_of_mem_drop h hp hpd
      have hpos : 0 < i := by
        refine Nat.pos_of_ne_zero fun hzero => heq ?_
        subst hzero
        rw [getElem_cons_zero, hsmallest, some_inj] at hpd
        exact hpd
      -- the first cursor is before the pivot
      have hlt : smallest < pivot := by
        refine lt_of_le_of_ne ?_ heq
        exact pairwise_iff_getElem.mp h.sorted 0 i (by simp) hi hpos smallest pivot hsmallest hpd
      refine ⟨fun c' hc' => ?_, hs.pass h hsweep hrest hshort, ?_⟩
      · rcases mem_append.mp hc' with hc' | hc'
        · obtain ⟨c'', hc'', rfl⟩ := mem_map.mp hc'
          exact hs.ok_advanceTo c'' pivot (h.ok c'' (mem_of_mem_take hc''))
        · exact h.ok c' (mem_of_mem_drop hc')
      · have hmem : c ∈ (c :: cs').take i := by
          obtain ⟨j, rfl⟩ := Nat.exists_eq_succ_of_ne_zero hpos.ne'
          exact mem_cons_self
        have hshrink : size entries (((c :: cs').take i).map fun c => s.advanceTo c pivot) <
            size entries ((c :: cs').take i) := by
          refine size_map_lt (fun c' hc' => ?_) ⟨c, hmem, ?_⟩
          · exact hs.toLawful.length_advanceTo_le (h.ok c' (mem_of_mem_take hc')) pivot
          · exact hs.toLawful.length_advanceTo_lt (h.ok c mem_cons_self) hsmallest hlt
        have hsplit : size entries (c :: cs') =
            size entries ((c :: cs').take i) + size entries ((c :: cs').drop i) := by
          rw [size, size, size, ← sum_append, ← map_append, take_append_drop]
        rw [hsplit, size, map_append, sum_append]
        exact Nat.add_lt_add_right hshrink _

section

variable (hs : s.Lawful ok entries hit)
include hs

theorem Lawful.heldBy_sort (hok : ∀ c ∈ cs, ok c) (d : D) :
    s.heldBy entries (s.sort (cs.filter fun c => (s.doc c).isSome)) d = s.heldBy entries cs d := by
  rw [heldBy_perm (hs.sort_perm _), heldBy, heldBy, filterMap_filter]
  refine congrArg _ (filterMap_congr fun c hc => ?_)
  split_ifs with hsome
  · rfl
  · have hnil : entries c = [] := by
      rw [hs.toLawful.entries_eq_nil (hok c hc)]
      simpa using hsome
    rw [held, hnil]
    rfl

theorem Lawful.inOrder_sort (hok : ∀ c ∈ cs, ok c) :
    s.InOrder ok (s.sort (cs.filter fun c => (s.doc c).isSome)) where
  ok := fun c hc => hok c (mem_of_mem_filter ((hs.sort_perm _).mem_iff.mp hc))
  doc := fun _ hc => isSome_iff_exists.mp (mem_filter.mp ((hs.sort_perm _).mem_iff.mp hc)).2
  sorted := hs.sort_sorted _

theorem Lawful.size_sort_le (cs : List C) :
    size entries (s.sort (cs.filter fun c => (s.doc c).isSome)) ≤ size entries cs := by
  have hperm : size entries (s.sort (cs.filter fun c => (s.doc c).isSome)) =
      size entries (cs.filter fun c => (s.doc c).isSome) := ((hs.sort_perm _).map _).sum_eq
  rw [hperm]
  exact (filter_sublist.map _).sum_le_sum fun _ _ => Nat.zero_le _

theorem Lawful.run_turn (hok : ∀ c ∈ cs, ok c) :
    ∃ heap, Loop.run s.turn ((cs.map s.left).sum + 1) (cs, []) = some heap ∧
      Sweep s.rank s.k hit s.Wanted (s.heldBy entries cs) (fun _ => 0) heap := by
  let inv : List C × List H → Prop := fun st => (∀ c ∈ st.1, ok c) ∧
    Sweep s.rank s.k hit s.Wanted (s.heldBy entries cs) (s.heldBy entries st.1) st.2
  have hsorted : ∀ st : List C × List H, inv st → Sweep s.rank s.k hit s.Wanted (s.heldBy entries cs)
      (s.heldBy entries (s.sort (st.1.filter fun c => (s.doc c).isSome))) st.2 := by
    intro st hst
    rw [funext (hs.heldBy_sort hst.1)]
    exact hst.2
  have hturn : ∀ st st', inv st → s.turn st = .inl st' →
      inv st' ∧ size entries st'.1 < size entries st.1 := by
    intro st st' hst h
    obtain ⟨hok', hsweep', hlt⟩ := (hs.turnSorted_spec (hs.inOrder_sort hst.1) (hsorted st hst)).1 st' h
    exact ⟨⟨hok', hsweep'⟩, hlt.trans_le (hs.size_sort_le st.1)⟩
  have hreturn : ∀ st r, inv st → s.turn st = .inr r →
      Sweep s.rank s.k hit s.Wanted (s.heldBy entries cs) (fun _ => 0) r := by
    intro st r hst h
    exact (hs.turnSorted_spec (hs.inOrder_sort hst.1) (hsorted st hst)).2 r h
  have hstart : inv (cs, []) := by
    refine ⟨hok, Sweep.start fun d hw => ?_⟩
    obtain ⟨-, w, hw, -⟩ := hw
    exact Multiset.notMem_zero w hw
  refine Loop.run_spec hturn hreturn hstart ?_
  have hle : size entries cs ≤ (cs.map s.left).sum :=
    sum_le_sum fun c hc => hs.length_le c (hok c hc)
  exact Nat.lt_succ_of_le hle

theorem Lawful.top_eq (hok : ∀ c ∈ cs, ok c) {docs : List D}
    (hnodup : docs.Nodup) (hdocs : ∀ d, d ∈ docs ↔ s.Wanted d (s.heldBy entries cs d)) :
    sortBy s.rank (s.top cs) =
      best s.rank s.k (docs.map fun d => hit d (s.heldBy entries cs d)) := by
  obtain ⟨heap, hrun, hsweep⟩ := hs.run_turn hok
  rw [top, hrun, getD_some]
  exact hsweep.sortBy_eq (fun _ => rfl) hs.rank_hit hnodup hdocs

end

end Search

end Pivot

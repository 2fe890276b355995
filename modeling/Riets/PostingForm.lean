/-
Well-formed posting lists.

A posting list is well formed when its documents ascend, the positions inside each posting
ascend, and no weight is above the bound it keeps.
-/
import Riets.Galloping

/-- The first of the new positions is not the last one the list has for the document. -/
def RawPostingList.Apart (list : RawPostingList) (docId : DocId) (positions : List ℕ) : Prop :=
  ∀ p ∈ list.items, p.docId = docId → ∀ x, p.positions.getLast? = some x →
    ¬(x ∈ positions ∧ ∀ y ∈ positions, x ≤ y)

namespace PostingList

open List Keyed Posting

def PositionsOk (list : PostingList) : Prop := ∀ p ∈ list.items, p.positions.Pairwise (· < ·)

theorem extendPositionsSorted_ascending {positions extra : List ℕ} (h : positions.Pairwise (· < ·))
    (hextra : extra.Pairwise (· < ·)) :
    (extendPositionsSorted positions extra).Pairwise (· < ·) ↔
      ∀ x, positions.getLast? = some x → extra.head? ≠ some x := by
  rcases eq_nil_or_concat' positions with rfl | ⟨init, last, rfl⟩
  · exact iff_of_true hextra fun x hx => by cases hx
  rw [extendPositionsSorted, getLast?_concat]
  cases extra with
  | nil => exact iff_of_true (ascending_sortDedup _) fun x _ hx => by cases hx
  | cons first extra =>
    simp only [head?_cons, Option.some.injEq]
    split_ifs with hle
    · constructor
      · -- the two positions stand side by side
        rintro hpair x rfl hx
        cases hx
        exact lt_irrefl _ ((pairwise_append.mp hpair).2.2 _ (by simp) _ mem_cons_self)
      · intro hne
        have hlt : last < first := lt_of_le_of_ne hle fun heq => hne last rfl (congrArg some heq.symm)
        refine pairwise_append.mpr ⟨h, hextra, fun x hx y hy => ?_⟩
        have hxle : x ≤ last := by
          rcases mem_append.mp hx with hx | hx
          · exact ((pairwise_append.mp h).2.2 x hx last (by simp)).le
          · exact (mem_singleton.mp hx).le
        have hyle : first ≤ y := by
          rcases mem_cons.mp hy with rfl | hy
          · exact le_rfl
          · exact ((pairwise_cons.mp hextra).1 y hy).le
        omega
    · refine iff_of_true (ascending_sortDedup _) ?_
      rintro x rfl hx
      cases hx
      exact hle le_rfl

theorem head?_sortDedup {l : List ℕ} {x : ℕ} : (sortDedup l).head? = some x ↔ x ∈ l ∧ ∀ y ∈ l, x ≤ y := by
  have hasc := ascending_sortDedup l
  constructor
  · intro h
    obtain ⟨rest, hrest⟩ := head?_eq_some_iff.mp h
    rw [hrest] at hasc
    refine ⟨mem_sortDedup.mp (by simp [hrest]), fun y hy => ?_⟩
    have hy' := mem_sortDedup.mpr hy
    rw [hrest] at hy'
    rcases mem_cons.mp hy' with rfl | hy'
    · exact le_rfl
    · exact ((pairwise_cons.mp hasc).1 y hy').le
  · rintro ⟨hx, hleast⟩
    cases hsorted : sortDedup l with
    | nil =>
      have hmem := mem_sortDedup.mpr hx
      rw [hsorted] at hmem
      cases hmem
    | cons first rest =>
      rw [hsorted] at hasc
      have hfirst : first ∈ l := mem_sortDedup.mp (by simp [hsorted])
      have hmem := mem_sortDedup.mpr hx
      rw [hsorted] at hmem
      rcases mem_cons.mp hmem with rfl | hmem
      · rfl
      · have hlt := (pairwise_cons.mp hasc).1 x hmem
        have hle := hleast first hfirst
        omega

/-! ### Joining postings -/

theorem foldl_absorb (l : List Posting) (p : Posting) (hp : p.positions.Pairwise (· < ·)) :
    (l.foldl absorb p).positions.Pairwise (· < ·) ∧
      (∀ x, x ∈ (l.foldl absorb p).positions ↔ ∃ q ∈ p :: l, x ∈ q.positions) ∧
      IsGreatest {w | ∃ q ∈ p :: l, q.weight = w} (l.foldl absorb p).weight := by
  induction l generalizing p with
  | nil =>
    refine ⟨hp, fun x => by simp, ⟨p, mem_singleton_self p, rfl⟩, ?_⟩
    rintro w ⟨q, hq, rfl⟩
    exact mem_singleton.mp hq ▸ le_rfl
  | cons q l ih =>
    obtain ⟨hasc, hmem, ⟨r, hr, hweight⟩, hbound⟩ := ih (p.absorb q) (ascending_sortDedup _)
    rw [foldl_cons]
    refine ⟨hasc, fun x => ?_, ?_, ?_⟩
    · simp only [hmem, mem_cons, exists_eq_or_imp]
      rw [← or_assoc]
      refine or_congr_left ?_
      rw [absorb, mem_sortDedup, mem_append]
    · rcases mem_cons.mp hr with rfl | hr
      · rw [← hweight]
        rcases max_choice p.weight q.weight with hmax | hmax
        · exact ⟨p, by simp, hmax.symm⟩
        · exact ⟨q, by simp, hmax.symm⟩
      · exact ⟨r, by simp [hr], hweight⟩
    · rintro w ⟨r, hr, rfl⟩
      have hjoined : max p.weight q.weight ≤ (l.foldl absorb (p.absorb q)).weight :=
        hbound ⟨_, mem_cons_self, rfl⟩
      rcases mem_cons.mp hr with rfl | hr
      · exact (le_max_left _ _).trans hjoined
      · rcases mem_cons.mp hr with rfl | hr
        · exact (le_max_right _ _).trans hjoined
        · exact hbound ⟨r, mem_cons_of_mem _ hr, rfl⟩

theorem foldRun_positions {l : List Posting} (h : ∀ q ∈ l, q.positions.Pairwise (· < ·)) {p : Posting}
    (hp : foldRun absorb l = some p) :
    p.positions.Pairwise (· < ·) ∧ (∀ x, x ∈ p.positions ↔ ∃ q ∈ l, x ∈ q.positions) ∧
      IsGreatest {w | ∃ q ∈ l, q.weight = w} p.weight := by
  cases l with
  | nil => cases hp
  | cons q l =>
    cases hp
    exact foldl_absorb l q (h q mem_cons_self)

theorem positionsOk_iff {list : PostingList} :
    list.PositionsOk ↔ ∀ d p, list.find d = some p → p.positions.Pairwise (· < ·) := by
  constructor
  · intro h d p hp
    exact h p (find_mem hp)
  · intro h p hp
    exact h p.docId p ((mem_iff_find list.ascending).mp hp)

structure WellFormed (list : PostingList) : Prop where
  positions : list.PositionsOk
  weights : list.WeightsOk

theorem wellFormed_fromItems {items : List Posting} (h : ∀ p ∈ items, p.positions.Pairwise (· < ·)) :
    (fromItems items).WellFormed := by
  refine ⟨positionsOk_iff.mpr fun d p hp => ?_, weightsOk_fromItems items⟩
  rw [find_fromItems] at hp
  exact (foldRun_positions (fun q hq => h q (mem_of_mem_filter hq)) hp).1

theorem wellFormed_unionMany {lists : List PostingList} (h : ∀ l ∈ lists, l.WellFormed) :
    (unionMany lists).WellFormed := by
  refine ⟨positionsOk_iff.mpr fun d p hp => ?_, fun p hp => ?_⟩
  · rw [find_unionMany] at hp
    refine (foldRun_positions (fun q hq => ?_) hp).1
    obtain ⟨l, hl, hq⟩ := mem_filterMap.mp hq
    exact positionsOk_iff.mp (h l hl).positions d q hq
  · exact (le_foldl_max _ 0).2 p.weight (mem_map.mpr ⟨p, hp, rfl⟩)

theorem wellFormed_append {a b : PostingList} (ha : a.WellFormed) (hb : b.WellFormed) : (a.append b).WellFormed := by
  have hpositions : ∀ p ∈ a.items ++ b.items, p.positions.Pairwise (· < ·) := by
    intro p hp
    rcases mem_append.mp hp with hp | hp
    · exact ha.positions p hp
    · exact hb.positions p hp
  rw [append]
  split
  · exact ha
  · split
    · exact hb
    · split_ifs
      · refine ⟨hpositions, fun p hp => ?_⟩
        rcases mem_append.mp hp with hp | hp
        · exact (ha.weights p hp).trans (le_max_left _ _)
        · exact (hb.weights p hp).trans (le_max_right _ _)
      · exact wellFormed_fromItems hpositions

theorem wellFormed_insertPosting {list : PostingList} (h : list.WellFormed) (docId : DocId) (positions : List ℕ)
    (weight : ℕ) : (list.insertPosting docId positions weight).WellFormed ↔ list.raw.Apart docId positions := by
  by_cases hempty : positions = []
  · rw [insertPosting, if_pos hempty]
    refine iff_of_true h fun p _ _ x _ hx => ?_
    rw [hempty] at hx
    cases hx.1
  have hself := find_insertPosting_self list docId positions weight
  have hbound : (list.insertPosting docId positions weight).maxWeight = max list.maxWeight weight := by
    rw [insertPosting, if_neg hempty]
  rw [if_neg hempty] at hself
  have hweights : (list.insertPosting docId positions weight).WeightsOk := by
    intro p hp
    rw [hbound]
    have hfound := (mem_iff_find (list.insertPosting docId positions weight).ascending).mp hp
    by_cases hd : p.docId = docId
    · rw [hd] at hfound
      cases hf : list.find docId with
      | none =>
        rw [hf] at hself
        cases hfound.symm.trans hself
        exact le_max_right _ _
      | some q =>
        rw [hf] at hself
        cases hfound.symm.trans hself
        exact max_le_max_right weight (h.weights q (find_mem hf))
    · have hkept := hfound.symm.trans (find_insertPosting list docId positions weight p.docId hd)
      exact (h.weights p (find_mem hkept.symm)).trans (le_max_left _ _)
  constructor
  · rintro ⟨hpositions, -⟩ p hp hdoc x hlast hleast
    have hf : list.find docId = some p := hdoc ▸ (mem_iff_find list.ascending).mp hp
    rw [hf] at hself
    have hasc := positionsOk_iff.mp hpositions docId _ hself
    exact (extendPositionsSorted_ascending (h.positions p hp) (ascending_sortDedup _)).mp hasc x hlast
      (head?_sortDedup.mpr hleast)
  · intro hapart
    refine ⟨positionsOk_iff.mpr fun d p hp => ?_, hweights⟩
    by_cases hd : d = docId
    · rw [hd, hself] at hp
      cases hf : list.find docId with
      | none =>
        rw [hf] at hp
        cases hp
        exact ascending_sortDedup _
      | some q =>
        rw [hf] at hp
        cases hp
        have hq := find_mem hf
        exact (extendPositionsSorted_ascending (h.positions q hq) (ascending_sortDedup _)).mpr fun x hlast hhead =>
          hapart q hq (find_docId hf) x hlast (head?_sortDedup.mp hhead)
    · rw [find_insertPosting list docId positions weight d hd] at hp
      exact positionsOk_iff.mp h.positions d p hp

end PostingList

namespace RawPostingList

open PostingList List Keyed

open PostingList (weightBound)

/-- Documents ascend, positions ascend inside each posting, and the bound is one. -/
structure WellFormed (list : RawPostingList) : Prop where
  documents : Ascending Posting.docId list.items
  positions : ∀ p ∈ list.items, p.positions.Pairwise (· < ·)
  weights : ∀ p ∈ list.items, p.weight ≤ list.maxWeight

theorem wellFormed_raw {list : PostingList} : list.raw.WellFormed ↔ list.WellFormed :=
  ⟨fun h => ⟨h.positions, h.weights⟩, fun h => ⟨list.ascending, h.positions, h.weights⟩⟩

theorem WellFormed.exists_list {list : RawPostingList} (h : list.WellFormed) :
    ∃ l : PostingList, l.WellFormed ∧ list = l.raw :=
  ⟨⟨list.items, list.maxWeight, h.documents⟩, ⟨h.positions, h.weights⟩, rfl⟩

theorem WellFormed.exists_lists {lists : List RawPostingList} (h : ∀ l ∈ lists, l.WellFormed) :
    ∃ ls : List PostingList, (∀ l ∈ ls, l.WellFormed) ∧ lists = ls.map raw := by
  induction lists with
  | nil => exact ⟨[], fun _ hl => (by cases hl), rfl⟩
  | cons list lists ih =>
    obtain ⟨hlist, hlists⟩ := forall_mem_cons.mp h
    obtain ⟨l, hl, rfl⟩ := hlist.exists_list
    obtain ⟨ls, hls, rfl⟩ := ih hlists
    exact ⟨l :: ls, forall_mem_cons.mpr ⟨hl, hls⟩, rfl⟩

/-- Lists built from the empty one; `fits` is what an insertion has to meet. -/
inductive Built (fits : RawPostingList → DocId → List ℕ → Prop) : RawPostingList → Prop
  | new : Built fits new
  | insertPosting {list : RawPostingList} {docId : DocId} {positions : List ℕ} {weight : ℕ}
      (hlist : Built fits list) (hfits : fits list docId positions) :
      Built fits (list.insertPosting docId positions weight)
  | append {list other : RawPostingList} (hlist : Built fits list) (hother : Built fits other) :
      Built fits (list.append other)
  | retain {list : RawPostingList} {keep : Posting → Bool} (hlist : Built fits list) :
      Built fits (list.retain keep)
  | unionMany {lists : List RawPostingList} (hlists : ∀ l ∈ lists, Built fits l) :
      Built fits (unionMany lists)
  | intersection {left right : RawPostingList} (hleft : Built fits left) (hright : Built fits right) :
      Built fits (intersection left right)
  | fromItems {lists : List RawPostingList} {items : List Posting} (hlists : ∀ l ∈ lists, Built fits l)
      (hitems : ∀ p ∈ items, ∃ l ∈ lists, p ∈ l.items) : Built fits (fromItems items)

theorem wellFormed_intersection {a b : PostingList} (ha : a.WellFormed) (hb : b.WellFormed) :
    (intersection a.raw b.raw).WellFormed := by
  -- either way some postings of one of the lists
  have hfilter : ∀ {l : PostingList}, l.WellFormed → ∀ keep : Posting → Bool,
      WellFormed ⟨l.items.filter keep, weightBound (l.items.filter keep)⟩ := fun {l} hl keep =>
    ⟨ascending_filter l.ascending keep, fun p hp => hl.positions p (mem_of_mem_filter hp),
      fun p hp => (le_foldl_max _ 0).2 p.weight (mem_map.mpr ⟨p, hp, rfl⟩)⟩
  rw [intersection]
  show (if _ then _ else _ : RawPostingList).WellFormed
  split_ifs
  · obtain ⟨short, long, hcases, heq⟩ := exponentialSearch_raw a b
    rw [heq]
    rcases hcases with ⟨rfl, rfl⟩ | ⟨rfl, rfl⟩
    · exact hfilter ha _
    · exact hfilter hb _
  · rw [linearSearch_raw]
    exact hfilter ha _

theorem insertPosting_wellFormed {list : RawPostingList} (h : list.WellFormed) (docId : DocId)
    (positions : List ℕ) (weight : ℕ) :
    (list.insertPosting docId positions weight).WellFormed ↔ list.Apart docId positions := by
  obtain ⟨l, hl, rfl⟩ := h.exists_list
  rw [insertPosting_raw, wellFormed_raw]
  exact wellFormed_insertPosting hl docId positions weight

/-- Where every insertion is apart from the positions held, the lists are well formed. -/
theorem wellFormed_built (list : RawPostingList) :
    (Built Apart list → list.WellFormed) ∧
    (list.WellFormed → ∀ docId positions weight,
      ((list.insertPosting docId positions weight).WellFormed ↔ list.Apart docId positions)) := by
  refine ⟨fun h => ?_, insertPosting_wellFormed⟩
  induction h with
  | new => exact ⟨Pairwise.nil, fun p hp => (by cases hp), fun p hp => (by cases hp)⟩
  | insertPosting _ hfits ih => exact (insertPosting_wellFormed ih _ _ _).mpr hfits
  | append _ _ ih ih' =>
    obtain ⟨l, hl, rfl⟩ := ih.exists_list
    obtain ⟨l', hl', rfl⟩ := ih'.exists_list
    rw [append_raw, wellFormed_raw]
    exact wellFormed_append hl hl'
  | retain _ ih =>
    exact ⟨ascending_filter ih.documents _, fun p hp => ih.positions p (mem_of_mem_filter hp),
      fun p hp => ih.weights p (mem_of_mem_filter hp)⟩
  | unionMany _ ih =>
    obtain ⟨ls, hls, rfl⟩ := WellFormed.exists_lists ih
    rw [unionMany_raw, wellFormed_raw]
    exact wellFormed_unionMany hls
  | intersection _ _ ih ih' =>
    obtain ⟨l, hl, rfl⟩ := ih.exists_list
    obtain ⟨l', hl', rfl⟩ := ih'.exists_list
    exact wellFormed_intersection hl hl'
  | fromItems _ hitems ih =>
    rw [fromItems_raw, wellFormed_raw]
    refine wellFormed_fromItems fun p hp => ?_
    obtain ⟨l, hl, hmem⟩ := hitems p hp
    exact (ih l hl).positions p hmem

/-- A position that comes twice for a document stays twice. -/
theorem insertPosting_repeats : ¬∀ list, Built (fun _ _ _ => True) list → list.WellFormed := by
  intro h
  have hbuilt : Built (fun _ _ _ => True) ((new.insertPosting 1 [3] 1).insertPosting 1 [3] 1) :=
    .insertPosting (.insertPosting .new trivial) trivial
  exact absurd ((h _ hbuilt).positions ⟨1, [3, 3], 1⟩ (by decide)) (by decide)

structure UnionOf (lists : List PostingList) (union : RawPostingList) : Prop where
  documents : union.ids.Pairwise (· < ·)
  mem_ids : ∀ d, d ∈ union.ids ↔ ∃ l ∈ lists, d ∈ l.ids
  positions : ∀ p ∈ union.items, p.positions.Pairwise (· < ·) ∧
    ∀ x, x ∈ p.positions ↔ ∃ l ∈ lists, ∃ q ∈ l.items, q.docId = p.docId ∧ x ∈ q.positions
  weight : ∀ p ∈ union.items,
    IsGreatest {w | ∃ l ∈ lists, ∃ q ∈ l.items, q.docId = p.docId ∧ q.weight = w} p.weight
  maxWeight : IsGreatest (insert 0 {w | ∃ p ∈ union.items, p.weight = w}) union.maxWeight

theorem weightBound_isGreatest (items : List Posting) :
    IsGreatest (insert 0 {w | ∃ p ∈ items, p.weight = w}) (weightBound items) := by
  have hmem : ∀ (l : List ℕ) (b : ℕ), l.foldl max b = b ∨ l.foldl max b ∈ l := by
    intro l
    induction l with
    | nil => exact fun _ => .inl rfl
    | cons a l ih =>
      intro b
      rw [foldl_cons]
      rcases ih (max b a) with h | h
      · rcases max_choice b a with hmax | hmax
        · exact .inl (h.trans hmax)
        · exact .inr (mem_cons.mpr (.inl (h.trans hmax)))
      · exact .inr (mem_cons_of_mem _ h)
  obtain ⟨hzero, hle⟩ := le_foldl_max (items.map Posting.weight) 0
  constructor
  · rcases hmem (items.map Posting.weight) 0 with h | h
    · exact .inl h
    · exact .inr (mem_map.mp h)
  · rintro w (rfl | ⟨p, hp, rfl⟩)
    · exact hzero
    · exact hle _ (mem_map_of_mem hp)

theorem unionOf_unionMany {lists : List PostingList} (h : ∀ l ∈ lists, l.WellFormed) :
    UnionOf lists (unionMany (lists.map raw)) := by
  have hmem : ∀ (d : DocId) (q : Posting), (q ∈ lists.filterMap fun l => l.find d) ↔
      ∃ l ∈ lists, q ∈ l.items ∧ q.docId = d := by
    intro d q
    rw [mem_filterMap]
    refine exists_congr fun l => and_congr_right fun _ => ?_
    constructor
    · intro hfind
      exact ⟨find_mem hfind, find_docId hfind⟩
    · rintro ⟨hq, rfl⟩
      exact (mem_iff_find l.ascending).mp hq
  have hunion : ∀ p ∈ (PostingList.unionMany lists).items, p.positions.Pairwise (· < ·) ∧
      (∀ x, x ∈ p.positions ↔ ∃ q ∈ lists.filterMap fun l => l.find p.docId, x ∈ q.positions) ∧
      IsGreatest {w | ∃ q ∈ lists.filterMap fun l => l.find p.docId, q.weight = w} p.weight := by
    intro p hp
    have hfind := (mem_iff_find (PostingList.unionMany lists).ascending).mp hp
    refine foldRun_positions (fun q hq => ?_)
      ((find_unionMany lists p.docId).symm.trans hfind)
    obtain ⟨l, hl, hq, -⟩ := (hmem _ q).mp hq
    exact (h l hl).positions q hq
  rw [unionMany_raw]
  refine ⟨pairwise_map.mpr (PostingList.unionMany lists).ascending, fun d => ?_, fun p hp => ?_,
    fun p hp => ?_, weightBound_isGreatest _⟩
  · show d ∈ (PostingList.unionMany lists).ids ↔ _
    rw [mem_ids, find_unionMany]
    constructor
    · intro hne
      cases hl : lists.filterMap fun l => l.find d with
      | nil =>
        rw [hl] at hne
        exact absurd rfl hne
      | cons q qs =>
        obtain ⟨l, hmemq, hq, hd⟩ := (hmem d q).mp (hl ▸ mem_cons_self)
        exact ⟨l, hmemq, mem_map.mpr ⟨q, hq, hd⟩⟩
    · rintro ⟨l, hl, hd⟩ hnone
      obtain ⟨q, hq, hdoc⟩ := mem_map.mp hd
      have hin := (hmem d q).mpr ⟨l, hl, hq, hdoc⟩
      cases hf : lists.filterMap fun l => l.find d with
      | nil =>
        rw [hf] at hin
        cases hin
      | cons q qs =>
        rw [hf] at hnone
        cases hnone
  · obtain ⟨hasc, hpositions, -⟩ := hunion p hp
    refine ⟨hasc, fun x => (hpositions x).trans ?_⟩
    simp only [hmem]
    constructor
    · rintro ⟨q, ⟨l, hl, hq, hd⟩, hx⟩
      exact ⟨l, hl, q, hq, hd, hx⟩
    · rintro ⟨l, hl, q, hq, hd, hx⟩
      exact ⟨q, ⟨l, hl, hq, hd⟩, hx⟩
  · obtain ⟨-, -, ⟨q, hq, hweight⟩, hbound⟩ := hunion p hp
    constructor
    · obtain ⟨l, hl, hq, hd⟩ := (hmem _ q).mp hq
      exact ⟨l, hl, q, hq, hd, hweight⟩
    · rintro w ⟨l, hl, q, hq, hd, rfl⟩
      exact hbound ⟨q, (hmem _ q).mpr ⟨l, hl, hq, hd⟩, rfl⟩

theorem UnionOf.unique {lists : List PostingList} {a b : RawPostingList} (ha : UnionOf lists a)
    (hb : UnionOf lists b) : a = b := by
  have hsub : ∀ {a b : RawPostingList}, UnionOf lists a → UnionOf lists b → ∀ p ∈ a.items, p ∈ b.items := by
    intro a b ha hb p hp
    obtain ⟨q, hq, hd⟩ := mem_map.mp
      ((hb.mem_ids p.docId).mpr ((ha.mem_ids p.docId).mp (mem_map_of_mem hp)))
    have hpositions : p.positions = q.positions := by
      refine (ha.positions p hp).1.eq_of_mem_iff (hb.positions q hq).1 fun x => ?_
      rw [(ha.positions p hp).2, (hb.positions q hq).2, hd]
    have hweight : p.weight = q.weight := by
      have hgreatest := hb.weight q hq
      rw [hd] at hgreatest
      exact (ha.weight p hp).unique hgreatest
    have heq : p = q := by
      cases p
      cases q
      cases hd
      cases hpositions
      cases hweight
      rfl
    exact heq ▸ hq
  have hasc : Ascending Posting.docId a.items := pairwise_map.mp ha.documents
  have hasc' : Ascending Posting.docId b.items := pairwise_map.mp hb.documents
  have hitems : a.items = b.items := ext_mem hasc hasc' fun p => ⟨hsub ha hb p, hsub hb ha p⟩
  have hmax := ha.maxWeight
  rw [hitems] at hmax
  cases a
  cases b
  cases hitems
  cases hmax.unique hb.maxWeight
  rfl

/-- The union of well-formed lists has the documents of all of them, each with all its
positions and its greatest weight, in whatever order the lists come. -/
theorem unionMany_perm {lists : List PostingList} (h : ∀ l ∈ lists, l.WellFormed) :
    UnionOf lists (unionMany (lists.map raw)) ∧
      ∀ lists' : List PostingList, lists.Perm lists' →
        unionMany (lists'.map raw) = unionMany (lists.map raw) := by
  refine ⟨unionOf_unionMany h, fun lists' hperm => ?_⟩
  have hmem : ∀ {P : PostingList → Prop}, (∃ l ∈ lists', P l) ↔ ∃ l ∈ lists, P l := fun {P} =>
    exists_congr fun l => and_congr_left' hperm.mem_iff.symm
  have hunion := unionOf_unionMany fun l hl => h l (hperm.mem_iff.mpr hl)
  refine UnionOf.unique ⟨hunion.documents, fun d => (hunion.mem_ids d).trans hmem, fun p hp => ?_, fun p hp => ?_,
    hunion.maxWeight⟩ (unionOf_unionMany h)
  · exact ⟨(hunion.positions p hp).1, fun x => ((hunion.positions p hp).2 x).trans hmem⟩
  · have hgreatest := hunion.weight p hp
    simp only [hmem] at hgreatest
    exact hgreatest

theorem unionMany_perm_shared :
    (∀ l ∈ [PostingList.new.insertPosting 1 [3] 2, PostingList.new.insertPosting 1 [1, 3] 5], l.WellFormed) ∧
    unionMany [(PostingList.new.insertPosting 1 [1, 3] 5).raw, (PostingList.new.insertPosting 1 [3] 2).raw] =
      unionMany [(PostingList.new.insertPosting 1 [3] 2).raw, (PostingList.new.insertPosting 1 [1, 3] 5).raw] := by
  have hnew : PostingList.new.WellFormed := ⟨fun p hp => (by cases hp), weightsOk_new⟩
  have hone : ∀ positions weight, (PostingList.new.insertPosting 1 positions weight).WellFormed :=
    fun positions weight =>
      (wellFormed_insertPosting hnew 1 positions weight).mpr fun p hp => (by cases hp)
  have hwell : ∀ l ∈ [PostingList.new.insertPosting 1 [3] 2, PostingList.new.insertPosting 1 [1, 3] 5],
      l.WellFormed :=
    forall_mem_cons.mpr ⟨hone _ _, forall_mem_singleton.mpr (hone _ _)⟩
  exact ⟨hwell, (unionMany_perm hwell).2 _ (.swap _ _ _)⟩

end RawPostingList

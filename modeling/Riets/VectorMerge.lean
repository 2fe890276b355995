/-
Merging the hits of a vector search.

Every segment, field and shard keeps its best hits; the lists are merged by taking each
document at its best score.  Scores are totally ordered here, so no score is NaN.
-/
import Riets.TopK
import Riets.Posting

namespace VectorSearch

open List Keyed TopK

structure VectorHit (S : Type*) where
  docId : DocId
  score : S
  deriving DecidableEq

namespace VectorHit

open TopK (best Best)

variable {S : Type*} [LinearOrder S] {k : ℕ} {rows hits : List (VectorHit S)}

/-- `hit_order`: the higher score first, then the lower document. -/
def hitOrder (h : VectorHit S) : Sᵒᵈ ×ₗ ℕ := toLex (OrderDual.toDual h.score, h.docId)

/-- Offers a hit to the `k` best ones, which are sorted best first. -/
def offer (k : ℕ) (hits : List (VectorHit S)) (hit : VectorHit S) : List (VectorHit S) :=
  if k = 0 then hits
  else if hits.length = k ∧ (hits[k - 1]?).all (fun worst => ¬hitOrder hit < hitOrder worst) then hits
  else
    let pos := (hits.takeWhile fun existing => hitOrder existing < hitOrder hit).length
    (hits.insertIdx pos hit).take k

def cut (k : ℕ) (rows : List (VectorHit S)) : List (VectorHit S) := rows.foldl (offer k) []

def retainUnseen : List DocId → List (VectorHit S) → List (VectorHit S)
  | _, [] => []
  | seen, hit :: hits =>
    if hit.docId ∈ seen then retainUnseen seen hits else hit :: retainUnseen (hit.docId :: seen) hits

def mergeHits (lists : List (List (VectorHit S))) (k : ℕ) : List (VectorHit S) :=
  (retainUnseen [] (sortBy hitOrder lists.flatten)).take k

/-! ### The bounded list -/

omit [LinearOrder S] in
theorem hitOrder_injective : Function.Injective (hitOrder : VectorHit S → _) := by
  rintro ⟨d, s⟩ ⟨d', s'⟩ h
  obtain ⟨hscore, hdoc⟩ : s = s' ∧ d = d' := Prod.mk.inj (toLex_inj.mp h)
  rw [hscore, hdoc]

theorem insertIdx_eq_orderedInsert (hit : VectorHit S) (hits : List (VectorHit S)) :
    hits.insertIdx (hits.takeWhile fun existing => hitOrder existing < hitOrder hit).length hit =
      hits.orderedInsert (fun a b => hitOrder a ≤ hitOrder b) hit := by
  induction hits with
  | nil => rfl
  | cons a hits ih =>
    rw [orderedInsert]
    by_cases hlt : hitOrder a < hitOrder hit
    · rw [takeWhile_cons_of_pos (by simpa using hlt), if_neg (not_le.mpr hlt), length_cons, ← ih]
      rfl
    · rw [takeWhile_cons_of_neg (by simpa using hlt), if_pos (not_lt.mp hlt)]
      rfl

theorem take_orderedInsert_take {K α : Type*} [LinearOrder K] {key : α → K} (k : ℕ) (a : α) (l : List α) :
    ((l.take k).orderedInsert (fun x y => key x ≤ key y) a).take k =
      (l.orderedInsert (fun x y => key x ≤ key y) a).take k := by
  induction k generalizing l with
  | zero => rfl
  | succ k ih =>
    cases l with
    | nil => rfl
    | cons b l =>
      rw [take_succ_cons, orderedInsert, orderedInsert]
      split_ifs
      · rw [take_succ_cons, take_succ_cons]
        cases k with
        | zero => rfl
        | succ k => rw [take_succ_cons, take_succ_cons, take_take, min_eq_left (Nat.le_succ k)]
      · rw [take_succ_cons, take_succ_cons, ih]

theorem take_orderedInsert_of_lt {K α : Type*} [LinearOrder K] {key : α → K} {a : α} {l : List α}
    (hk : k ≤ l.length) (h : ∀ b ∈ l.take k, key b < key a) :
    (l.orderedInsert (fun x y => key x ≤ key y) a).take k = l.take k := by
  induction l generalizing k with
  | nil =>
    obtain rfl : k = 0 := Nat.le_zero.mp hk
    rfl
  | cons b l ih =>
    cases k with
    | zero => rfl
    | succ k =>
      rw [take_succ_cons] at h
      obtain ⟨hb, hrest⟩ := forall_mem_cons.mp h
      rw [orderedInsert, if_neg (not_le.mpr hb), take_succ_cons, take_succ_cons,
        ih (Nat.le_of_succ_le_succ hk) hrest]

theorem offer_best (k : ℕ) {rows : List (VectorHit S)} {hit : VectorHit S}
    (hne : ∀ b ∈ rows, hitOrder b ≠ hitOrder hit) :
    offer k (best hitOrder k rows) hit = best hitOrder k (hit :: rows) := by
  have hsort : (sortBy hitOrder rows).orderedInsert (fun a b => hitOrder a ≤ hitOrder b) hit =
      sortBy hitOrder (hit :: rows) := rfl
  rw [offer]
  split_ifs with hzero hfull
  · rw [hzero]
    rfl
  · -- the list is full and its last hit is before the new one, so all are
    obtain ⟨hlength, hworst⟩ := hfull
    have hlt : k - 1 < (best hitOrder k rows).length := by omega
    rw [getElem?_eq_getElem hlt, Option.all_some, decide_eq_true_eq, not_lt] at hworst
    have hk : k ≤ (sortBy hitOrder rows).length := by
      rw [best, length_take] at hlength
      omega
    rw [best, best, ← hsort, take_orderedInsert_of_lt hk]
    intro b hb
    refine lt_of_le_of_ne (le_trans ?_ hworst) (hne b (mem_of_mem_best hb))
    obtain ⟨i, hi, rfl⟩ := mem_iff_getElem.mp hb
    have hsorted : Sorted hitOrder (best hitOrder k rows) :=
      (sorted_sortBy rows).sublist (take_sublist k _)
    rcases Nat.lt_or_ge i (k - 1) with hbefore | hlast
    · exact pairwise_iff_getElem.mp hsorted i (k - 1) hi hlt hbefore
    · have hi' : i < (best hitOrder k rows).length := hi
      obtain rfl : i = k - 1 := by omega
      exact le_rfl
  · show ((best hitOrder k rows).insertIdx _ hit).take k = _
    rw [insertIdx_eq_orderedInsert, best, take_orderedInsert_take, hsort, best]

theorem foldl_offer {seen : List (VectorHit S)}
    (h : (rows.reverse ++ seen).Pairwise fun a b => hitOrder a ≠ hitOrder b) :
    rows.foldl (offer k) (best hitOrder k seen) = best hitOrder k (rows.reverse ++ seen) := by
  induction rows generalizing seen with
  | nil => rfl
  | cons hit rows ih =>
    have hmove : (hit :: rows).reverse ++ seen = rows.reverse ++ hit :: seen := by
      rw [reverse_cons, append_assoc, singleton_append]
    rw [hmove] at h ⊢
    have hne : ∀ b ∈ seen, hitOrder b ≠ hitOrder hit := fun b hb =>
      ((pairwise_cons.mp (pairwise_append.mp h).2.1).1 b hb).symm
    rw [foldl_cons, offer_best k hne, ih h]

omit [LinearOrder S] in
theorem pairwise_hitOrder (h : (rows.map docId).Nodup) : rows.Pairwise fun a b => hitOrder a ≠ hitOrder b :=
  (pairwise_map.mp h).imp fun hne heq => hne (congrArg docId (hitOrder_injective heq))

theorem cut_eq (h : (rows.map docId).Nodup) : cut k rows = best hitOrder k rows := by
  have hreverse : (rows.reverse ++ []).Pairwise fun a b => hitOrder a ≠ hitOrder b := by
    rw [append_nil]
    exact pairwise_reverse.mpr ((pairwise_hitOrder h).imp Ne.symm)
  have hfold := foldl_offer (k := k) hreverse
  rw [best_nil] at hfold
  exact hfold.trans (best_congr (pairwise_hitOrder h) hreverse (fun a => by simp) k)

/-! ### The best row of each document -/

def IsBest (rows : List (VectorHit S)) (hit : VectorHit S) : Prop :=
  hit ∈ rows ∧ ∀ r ∈ rows, r.docId = hit.docId → hitOrder hit ≤ hitOrder r

theorem mem_retainUnseen {seen : List DocId} (h : Sorted hitOrder rows) {hit : VectorHit S} :
    hit ∈ retainUnseen seen rows ↔ hit.docId ∉ seen ∧ IsBest rows hit := by
  induction rows generalizing seen with
  | nil =>
    refine iff_of_false not_mem_nil fun hbest => ?_
    cases hbest.2.1
  | cons a rows ih =>
    obtain ⟨hle, htail⟩ := pairwise_cons.mp h
    have hskip : a.docId ≠ hit.docId → (IsBest (a :: rows) hit ↔ IsBest rows hit) := by
      intro hne
      have hother : hit ≠ a := fun heq => hne (congrArg docId heq).symm
      rw [IsBest, IsBest, mem_cons, or_iff_right hother, forall_mem_cons]
      exact and_congr_right fun _ => and_iff_right fun heq => absurd heq hne
    rw [retainUnseen]
    split_ifs with hseen
    · rw [ih htail]
      refine and_congr_right fun hnot => (hskip ?_).symm
      rintro heq
      exact hnot (heq ▸ hseen)
    · rw [mem_cons, ih htail, mem_cons, not_or]
      by_cases heq : a.docId = hit.docId
      · constructor
        · rintro (rfl | ⟨⟨hne, -⟩, -⟩)
          · refine ⟨hseen, mem_cons_self, fun r hr _ => ?_⟩
            rcases mem_cons.mp hr with rfl | hr
            · exact le_rfl
            · exact hle r hr
          · exact absurd heq.symm hne
        · rintro ⟨-, hmem, hbest⟩
          rcases mem_cons.mp hmem with rfl | hmem
          · exact .inl rfl
          · exact .inl (hitOrder_injective (le_antisymm (hbest a mem_cons_self heq) (hle hit hmem)))
      · have hother : hit ≠ a := fun h => heq (congrArg docId h).symm
        rw [or_iff_right hother, hskip heq]
        exact and_congr_left' (and_iff_right (Ne.symm heq))

omit [LinearOrder S] in
theorem nodup_retainUnseen (seen : List DocId) (rows : List (VectorHit S)) :
    ((retainUnseen seen rows).map docId).Nodup ∧ ∀ hit ∈ retainUnseen seen rows, hit.docId ∉ seen := by
  induction rows generalizing seen with
  | nil => exact ⟨nodup_nil, fun _ h => (by cases h)⟩
  | cons a rows ih =>
    rw [retainUnseen]
    split_ifs with hseen
    · exact ih seen
    · obtain ⟨hnodup, hfresh⟩ := ih (a.docId :: seen)
      refine ⟨nodup_cons.mpr ⟨fun hmem => ?_, hnodup⟩, forall_mem_cons.mpr ⟨hseen, fun hit hhit hin => ?_⟩⟩
      · obtain ⟨hit, hhit, heq⟩ := mem_map.mp hmem
        exact hfresh hit hhit (heq ▸ mem_cons_self)
      · exact hfresh hit hhit (mem_cons_of_mem _ hin)

def distinctBest (rows : List (VectorHit S)) : List (VectorHit S) :=
  retainUnseen [] (sortBy hitOrder rows)

theorem mem_distinctBest {hit : VectorHit S} : hit ∈ distinctBest rows ↔ IsBest rows hit := by
  have hmem : ∀ a, a ∈ sortBy hitOrder rows ↔ a ∈ rows := fun a => (perm_sortBy rows).mem_iff
  rw [distinctBest, mem_retainUnseen (sorted_sortBy rows), and_iff_right not_mem_nil, IsBest, IsBest, hmem]
  exact and_congr_right fun _ => forall_congr' fun r => by rw [hmem]

theorem nodup_distinctBest (rows : List (VectorHit S)) : ((distinctBest rows).map docId).Nodup :=
  (nodup_retainUnseen [] _).1

theorem ascending_distinctBest (rows : List (VectorHit S)) : Ascending hitOrder (distinctBest rows) := by
  have hsublist : ∀ (seen : List DocId) (l : List (VectorHit S)), (retainUnseen seen l).Sublist l := by
    intro seen l
    induction l generalizing seen with
    | nil => exact Sublist.slnil
    | cons a l ih =>
      rw [retainUnseen]
      split_ifs
      · exact (ih seen).cons a
      · exact (ih _).cons_cons a
  have hsorted : Sorted hitOrder (distinctBest rows) :=
    (sorted_sortBy rows).sublist (hsublist [] _)
  exact (hsorted.and (pairwise_hitOrder (nodup_distinctBest rows))).imp fun hab => lt_of_le_of_ne hab.1 hab.2

theorem exists_distinctBest {r : VectorHit S} (hr : r ∈ rows) :
    ∃ b ∈ distinctBest rows, b.docId = r.docId ∧ hitOrder b ≤ hitOrder r := by
  have hdoc : ∀ (seen : List DocId) (l : List (VectorHit S)), r ∈ l → r.docId ∉ seen →
      ∃ b ∈ retainUnseen seen l, b.docId = r.docId := by
    intro seen l
    induction l generalizing seen with
    | nil => exact fun hr => (by cases hr)
    | cons a l ih =>
      intro hr hseen
      rw [retainUnseen]
      by_cases heq : a.docId = r.docId
      · rw [if_neg (heq ▸ hseen)]
        exact ⟨a, mem_cons_self, heq⟩
      · have hin : r ∈ l := (mem_cons.mp hr).resolve_left fun h => heq (congrArg docId h).symm
        split_ifs
        · exact ih seen hin hseen
        · obtain ⟨b, hb, hbdoc⟩ := ih (a.docId :: seen) hin
            (mem_cons.not.mpr (not_or.mpr ⟨Ne.symm heq, hseen⟩))
          exact ⟨b, mem_cons_of_mem a hb, hbdoc⟩
  obtain ⟨b, hb, hbdoc⟩ := hdoc [] (sortBy hitOrder rows) ((perm_sortBy rows).mem_iff.mpr hr)
    not_mem_nil
  exact ⟨b, hb, hbdoc, (mem_distinctBest.mp hb).2 r hr hbdoc.symm⟩

theorem mergeHits_eq (lists : List (List (VectorHit S))) (k : ℕ) :
    mergeHits lists k = best hitOrder k (distinctBest lists.flatten) := by
  rw [best, sortBy_of_sorted (ascending_distinctBest _).sorted]
  rfl

theorem distinctBest_congr {rows' : List (VectorHit S)} (h : ∀ r, r ∈ rows ↔ r ∈ rows') :
    distinctBest rows = distinctBest rows' := by
  refine ext_mem (ascending_distinctBest _) (ascending_distinctBest _) fun hit => ?_
  rw [mem_distinctBest, mem_distinctBest, IsBest, IsBest, h]
  exact and_congr_right fun _ => forall_congr' fun r => by rw [h]

theorem place_le_distinctBest {m : List (VectorHit S)} (hm : (m.map docId).Nodup) (hsub : ∀ r ∈ m, r ∈ rows)
    (hit : VectorHit S) : place hitOrder m hit ≤ place hitOrder (distinctBest rows) hit := by
  have hnodup : ((m.filter fun b => hitOrder b < hitOrder hit).map docId).Nodup :=
    hm.sublist (Sublist.map docId filter_sublist)
  have hdocs : (m.filter fun b => hitOrder b < hitOrder hit).map docId ⊆
      ((distinctBest rows).filter fun b => hitOrder b < hitOrder hit).map docId := by
    intro d hd
    obtain ⟨r, hr, rfl⟩ := mem_map.mp hd
    obtain ⟨hin, hlt⟩ := mem_filter.mp hr
    obtain ⟨b, hb, hdoc, hle⟩ := exists_distinctBest (hsub r hin)
    refine mem_map.mpr ⟨b, mem_filter.mpr ⟨hb, decide_eq_true ?_⟩, hdoc⟩
    exact lt_of_le_of_lt hle (of_decide_eq_true hlt)
  have hlength := (hnodup.subperm hdocs).length_le
  rw [length_map, length_map] at hlength
  exact hlength

theorem best_cuts_distinct {ms : List (List (VectorHit S))} (hdistinct : ∀ m ∈ ms, (m.map docId).Nodup)
    (hsub : ∀ m ∈ ms, ∀ r ∈ m, r ∈ rows) (hcover : ∀ hit, IsBest rows hit → ∃ m ∈ ms, hit ∈ m) :
    best hitOrder k (distinctBest (cuts hitOrder k ms)) = best hitOrder k (distinctBest rows) := by
  have hpair := pairwise_hitOrder (nodup_distinctBest rows)
  have hcuts : ∀ r ∈ cuts hitOrder k ms, r ∈ rows := by
    intro r hr
    obtain ⟨m, hm, hin⟩ := mem_cuts.mp hr
    exact hsub m hm r (mem_of_mem_best hin)
  have hkept : ∀ hit ∈ best hitOrder k (distinctBest rows), hit ∈ cuts hitOrder k ms := by
    intro hit hhit
    obtain ⟨hin, hplace⟩ := (mem_best_iff hpair).mp hhit
    obtain ⟨m, hm, hmem⟩ := hcover hit (mem_distinctBest.mp hin)
    refine mem_cuts.mpr ⟨m, hm, (mem_best_iff (pairwise_hitOrder (hdistinct m hm))).mpr ⟨hmem, ?_⟩⟩
    exact (place_le_distinctBest (hdistinct m hm) (hsub m hm) hit).trans_lt hplace
  have hbest := Best.of_best hpair k
  refine best_eq_of_best hpair (pairwise_hitOrder (nodup_distinctBest _)) ⟨fun a ha => ?_, hbest.sorted,
    hbest.length_le, fun a ha hnot => ?_⟩
  · have hin := mem_reverse.mp ha
    exact mem_distinctBest.mpr ⟨hkept a hin, fun r hr =>
      (mem_distinctBest.mp (mem_of_mem_best hin)).2 r (hcuts r hr)⟩
  · -- a row left over is not better than the best of its document, which is not among the first either
    have hleft := mem_distinctBest.mp ha
    obtain ⟨b, hb, hdoc, hle⟩ := exists_distinctBest (hcuts a hleft.1)
    have hout : b ∉ (best hitOrder k (distinctBest rows)).reverse := by
      intro hin
      have hge := hleft.2 b (hkept b (mem_reverse.mp hin)) hdoc
      exact hnot (hitOrder_injective (le_antisymm hle hge) ▸ hin)
    obtain ⟨hfull, hafter⟩ := hbest.rest b hb hout
    exact ⟨hfull, fun c hc => (hafter c hc).trans_le hle⟩

/-- The `k` best documents of some rows, each at its best score. -/
structure KBest (k : ℕ) (rows hits : List (VectorHit S)) : Prop where
  sorted : hits.Pairwise fun a b => hitOrder a < hitOrder b
  once : (hits.map docId).Nodup
  best : ∀ hit ∈ hits, hit ∈ rows ∧ ∀ r ∈ rows, r.docId = hit.docId → r.score ≤ hit.score
  count : hits.length = min k (rows.map docId).dedup.length
  rest : ∀ r ∈ rows, r.docId ∉ hits.map docId → ∀ hit ∈ hits, hitOrder hit < hitOrder r

theorem score_le_of_hitOrder {a b : VectorHit S} (h : hitOrder a ≤ hitOrder b) : b.score ≤ a.score := by
  rcases Prod.Lex.le_iff.mp h with hlt | ⟨heq, -⟩
  · exact le_of_lt (OrderDual.toDual_lt_toDual.mp hlt)
  · exact (OrderDual.toDual_inj.mp heq).ge

theorem kBest_best (k : ℕ) (rows : List (VectorHit S)) : KBest k rows (best hitOrder k (distinctBest rows)) := by
  have htake : best hitOrder k (distinctBest rows) = (distinctBest rows).take k := by
    rw [best, sortBy_of_sorted (ascending_distinctBest rows).sorted]
  rw [htake]
  refine ⟨(ascending_distinctBest rows).sublist (take_sublist k _),
    (nodup_distinctBest rows).sublist ((take_sublist k _).map docId), fun hit hhit => ?_, ?_,
    fun r hr hout hit hhit => ?_⟩
  · obtain ⟨hmem, hbest⟩ := mem_distinctBest.mp (mem_of_mem_take hhit)
    exact ⟨hmem, fun r hr hdoc => score_le_of_hitOrder (hbest r hr hdoc)⟩
  · have hdocs : ((distinctBest rows).map docId).Perm (rows.map docId).dedup := by
      refine (perm_ext_iff_of_nodup (nodup_distinctBest rows) (nodup_dedup _)).mpr fun d => ?_
      rw [mem_dedup, mem_map, mem_map]
      constructor
      · rintro ⟨b, hb, rfl⟩
        exact ⟨b, (mem_distinctBest.mp hb).1, rfl⟩
      · rintro ⟨r, hr, rfl⟩
        obtain ⟨b, hb, hdoc, -⟩ := exists_distinctBest hr
        exact ⟨b, hb, hdoc⟩
    rw [length_take, ← hdocs.length_eq, length_map]
  · obtain ⟨b, hb, hdoc, hle⟩ := exists_distinctBest hr
    have hasc := ascending_distinctBest rows
    rw [← take_append_drop k (distinctBest rows)] at hasc hb
    rcases mem_append.mp hb with hin | hafter
    · exact absurd (mem_map.mpr ⟨b, hin, hdoc⟩) hout
    · exact ((pairwise_append.mp hasc).2.2 hit hhit b hafter).trans_le hle

theorem mergeHits_cut {sets : List (List (VectorHit S))} (h : ∀ rows ∈ sets, (rows.map docId).Nodup) :
    mergeHits (sets.map (cut k)) k = best hitOrder k (distinctBest sets.flatten) := by
  have hcuts : (sets.map (cut k)).flatten = cuts hitOrder k sets := by
    rw [cuts, flatMap_def]
    exact congrArg flatten (map_congr_left fun rows hrows => cut_eq (h rows hrows))
  rw [mergeHits_eq, hcuts]
  refine best_cuts_distinct h (fun m hm r hr => mem_flatten_of_mem hm hr) fun hit hbest => ?_
  exact mem_flatten.mp hbest.1

theorem mergeHits_mergeHits (groups : List (List (List (VectorHit S)))) :
    mergeHits (groups.map fun lists => mergeHits lists k) k = mergeHits groups.flatten k := by
  have hcuts : (groups.map fun lists => mergeHits lists k).flatten =
      cuts hitOrder k (groups.map fun lists => distinctBest lists.flatten) := by
    rw [cuts, flatMap_map, flatMap_def]
    exact congrArg flatten (map_congr_left fun lists _ => mergeHits_eq lists k)
  rw [mergeHits_eq, mergeHits_eq, hcuts]
  refine best_cuts_distinct (fun m hm => ?_) (fun m hm r hr => ?_) fun hit hbest => ?_
  · obtain ⟨lists, -, rfl⟩ := mem_map.mp hm
    exact nodup_distinctBest _
  · obtain ⟨lists, hlists, rfl⟩ := mem_map.mp hm
    obtain ⟨rows, hrows, hin⟩ := mem_flatten.mp (mem_distinctBest.mp hr).1
    exact mem_flatten_of_mem (mem_flatten_of_mem hlists hrows) hin
  · -- the best row of all is the best of its group
    obtain ⟨rows, hrows, hin⟩ := mem_flatten.mp hbest.1
    obtain ⟨lists, hlists, hmem⟩ := mem_flatten.mp hrows
    refine ⟨_, mem_map_of_mem hlists, mem_distinctBest.mpr ⟨mem_flatten_of_mem hmem hin,
      fun r hr => hbest.2 r ?_⟩⟩
    obtain ⟨rows', hrows', hr'⟩ := mem_flatten.mp hr
    exact mem_flatten_of_mem (mem_flatten_of_mem hlists hrows') hr'

/-- Merging what is left of every set gives the best documents of all sets; neither the order of
the sets nor that of their rows matters, and merging in two stages gives the same list. -/
theorem mergeHits_exact (k : ℕ) {sets : List (List (VectorHit S))}
    (h : ∀ rows ∈ sets, (rows.map docId).Nodup) :
    KBest k sets.flatten (mergeHits (sets.map (cut k)) k) ∧
    (∀ ordered offered : List (List (VectorHit S)), sets.Perm ordered → Forall₂ Perm ordered offered →
      mergeHits (offered.map (cut k)) k = mergeHits (sets.map (cut k)) k) ∧
    ∀ groups : List (List (List (VectorHit S))), groups.flatten = sets →
      mergeHits (groups.map fun group => mergeHits (group.map (cut k)) k) k = mergeHits (sets.map (cut k)) k := by
  refine ⟨mergeHits_cut h ▸ kBest_best k _, fun ordered offered hperm hoffered => ?_, fun groups hgroups => ?_⟩
  · have hordered : ∀ rows ∈ ordered, (rows.map docId).Nodup := fun rows hrows => h rows (hperm.mem_iff.mpr hrows)
    have hboth : (∀ rows ∈ offered, (rows.map docId).Nodup) ∧ ∀ r, r ∈ offered.flatten ↔ r ∈ ordered.flatten := by
      clear hperm
      induction hoffered with
      | nil => exact ⟨fun _ hrows => (by cases hrows), fun _ => Iff.rfl⟩
      | cons hrows _ ih =>
        obtain ⟨hfirst, hrest⟩ := forall_mem_cons.mp hordered
        obtain ⟨hnodup, hmem⟩ := ih hrest
        refine ⟨forall_mem_cons.mpr ⟨(hrows.map docId).nodup_iff.mp hfirst, hnodup⟩, fun r => ?_⟩
        rw [flatten_cons, flatten_cons, mem_append, mem_append, hmem, hrows.mem_iff]
    rw [mergeHits_cut hboth.1, mergeHits_cut h,
      distinctBest_congr fun r => (hboth.2 r).trans hperm.flatten.symm.mem_iff]
  · have hlists : groups.flatten.map (cut k) = (groups.map fun group => group.map (cut k)).flatten := by
      rw [map_flatten]
    rw [← hgroups, hlists, ← mergeHits_mergeHits, map_map]
    rfl

/-- One document in two sets with two scores, and a tie. -/
theorem mergeHits_exact_shared :
    (∀ rows ∈ [[⟨1, 5⟩, ⟨2, 3⟩], [⟨2, 5⟩, (⟨3, 1⟩ : VectorHit ℤ)]], (rows.map docId).Nodup) ∧
    KBest 2 [⟨1, 5⟩, ⟨2, 3⟩, ⟨2, 5⟩, ⟨3, 1⟩]
      (mergeHits ([[⟨1, 5⟩, ⟨2, 3⟩], [⟨2, 5⟩, (⟨3, 1⟩ : VectorHit ℤ)]].map (cut 2)) 2) := by
  have hdistinct : ∀ rows ∈ [[⟨1, 5⟩, ⟨2, 3⟩], [⟨2, 5⟩, (⟨3, 1⟩ : VectorHit ℤ)]], (rows.map docId).Nodup := by
    decide
  exact ⟨hdistinct, (mergeHits_exact 2 hdistinct).1⟩

end VectorHit

end VectorSearch

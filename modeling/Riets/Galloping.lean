/-
Intersecting two posting lists.

Lists of about one length are walked side by side; where one is much shorter, its
documents are searched in the longer one by doubling strides and a binary search.
-/
import Riets.PostingCursor
import Riets.RawPostings

open PostingCursor

namespace RawPostingList

open List Keyed

open PostingList (weightBound)

def linearLoop : List Posting → List Posting → List Posting
  | [], _ => []
  | _ :: _, [] => []
  | p :: a, q :: b =>
    if p.docId < q.docId then linearLoop a (q :: b)
    else if q.docId < p.docId then linearLoop (p :: a) b
    else p :: linearLoop a b
termination_by a b => a.length + b.length

def linearSearch (left right : RawPostingList) : RawPostingList :=
  fromSorted (linearLoop left.items right.items)

/-- The first place from `start` on whose posting is not before the target. -/
def exponentSearchTo (slice : List Posting) (start : ℕ) (target : DocId) : ℕ :=
  if (slice[start]?).all fun p => target ≤ p.docId then start
  else
    let bound := gallop slice start target slice.length 1
    let hi := min (start + bound + 1) slice.length
    -- the posting at `start` is before the target
    let lo := start + 1
    lowerBound slice target (hi - lo) lo hi

/-- `cursor` is the place reached in the longer list. -/
def exponentialLoop (long : List Posting) : List Posting → ℕ → List Posting
  | [], _ => []
  | item :: short, cursor =>
    if long.length ≤ cursor then []
    else
      let cursor := exponentSearchTo long cursor item.docId
      if (long[cursor]?).any fun p => p.docId = item.docId then
        item :: exponentialLoop long short (cursor + 1)
      else exponentialLoop long short cursor

def exponentialSearch (left right : RawPostingList) : RawPostingList :=
  let a := left.items
  let b := right.items
  fromSorted (if a.length ≤ b.length then exponentialLoop b a 0 else exponentialLoop a b 0)

def intersection (left right : RawPostingList) : RawPostingList :=
  let shortLen := min left.items.length right.items.length
  let longLen := max left.items.length right.items.length
  let gallopCost := min (shortLen * (Nat.log2 (max (longLen / max shortLen 1) 1) + 1)) (2 ^ 64 - 1)
  let mergeCost := left.items.length + right.items.length
  if gallopCost < mergeCost then exponentialSearch left right else linearSearch left right

/-! ### The two loops -/

theorem linearLoop_eq {a b : List Posting} (ha : Ascending Posting.docId a)
    (hb : Ascending Posting.docId b) :
    linearLoop a b = a.filter fun p => p.docId ∈ b.map Posting.docId := by
  -- documents before the other list's first are not in it
  have hbefore : ∀ {d : DocId} {q : Posting} {b : List Posting}, Ascending Posting.docId (q :: b) →
      d < q.docId → d ∉ (q :: b).map Posting.docId := by
    intro d q b hb hlt hmem
    obtain ⟨r, hr, heq⟩ := mem_map.mp hmem
    rcases mem_cons.mp hr with rfl | hr
    · exact absurd heq (ne_of_gt hlt)
    · exact absurd heq (ne_of_gt (hlt.trans (hb.head_lt hr)))
  induction a, b using linearLoop.induct with
  | case1 b => rw [linearLoop, filter_nil]
  | case2 p a =>
    rw [linearLoop, map_nil]
    exact (filter_eq_nil_iff.mpr fun r _ => by simp).symm
  | case3 p a q b hlt ih =>
    rw [linearLoop, if_pos hlt, ih ha.of_cons hb, filter_cons_of_neg (by simpa using hbefore hb hlt)]
  | case4 p a q b hnlt hgt ih =>
    rw [linearLoop, if_neg hnlt, if_pos hgt, ih ha hb.of_cons]
    refine filter_congr fun r hr => decide_eq_decide.mpr ?_
    have hlt : q.docId < r.docId := by
      rcases mem_cons.mp hr with rfl | hr
      · exact hgt
      · exact hgt.trans (ha.head_lt hr)
    rw [map_cons, mem_cons, or_iff_right (ne_of_gt hlt)]
  | case5 p a q b hnlt hngt ih =>
    have heq : p.docId = q.docId := le_antisymm (not_lt.mp hngt) (not_lt.mp hnlt)
    rw [linearLoop, if_neg hnlt, if_neg hngt, ih ha.of_cons hb.of_cons, filter_cons_of_pos (by simp [heq])]
    congr 1
    refine filter_congr fun r hr => decide_eq_decide.mpr ?_
    rw [map_cons, mem_cons, or_iff_right (ne_of_gt (heq ▸ ha.head_lt hr))]

theorem exponentSearchTo_spec {slice : List Posting} (hasc : Ascending Posting.docId slice) {start : ℕ}
    {target : DocId} (hstart : ∀ j p, j < start → slice[j]? = some p → p.docId < target) :
    Splits slice target (exponentSearchTo slice start target) := by
  rw [exponentSearchTo]
  split_ifs with hall
  · refine ⟨hstart, fun j p hj hp => ?_⟩
    have hlen := (List.getElem?_eq_some_iff.mp hp).1
    have hget : slice[start]? = some slice[start] := getElem?_eq_getElem (by omega)
    rw [hget, Option.all_some, decide_eq_true_eq] at hall
    rcases hj.eq_or_lt with rfl | hj
    · rw [hget, Option.some_inj] at hp
      exact hp ▸ hall
    · exact hall.trans (docId_lt_of_lt hasc hj hget hp).le
  · obtain ⟨p, hp, hlt⟩ : ∃ p, slice[start]? = some p ∧ p.docId < target := by
      cases hget : slice[start]? with
      | none =>
        rw [hget] at hall
        exact absurd rfl hall
      | some p =>
        rw [hget, Option.all_some, decide_eq_true_eq] at hall
        exact ⟨p, rfl, not_le.mp hall⟩
    obtain ⟨-, hpast⟩ := @gallop_spec slice target start slice.length 1
      Nat.one_pos (by omega) ⟨p, by simpa using hp, hlt⟩
    generalize gallop slice start target slice.length 1 = bound at hpast
    have hlen := (List.getElem?_eq_some_iff.mp hp).1
    refine lowerBound_spec hasc le_rfl (min_le_right _ _) (by omega) (fun j r hj hr => ?_) fun j r hj hr => ?_
    · rcases Nat.lt_succ_iff_lt_or_eq.mp hj with hj | rfl
      · exact hstart j r hj hr
      · rw [hp, Option.some_inj] at hr
        exact hr ▸ hlt
    · have hjlt := (List.getElem?_eq_some_iff.mp hr).1
      have hbound : start + bound < slice.length := by omega
      have hget : slice[start + bound]? = some slice[start + bound] := getElem?_eq_getElem hbound
      exact (hpast _ hget).trans (docId_lt_of_lt hasc (by omega) hget hr).le

theorem exponentialLoop_eq {long short : List Posting} (hlong : Ascending Posting.docId long)
    (hshort : Ascending Posting.docId short) {cursor : ℕ}
    (hpassed : ∀ j p q, j < cursor → long[j]? = some p → q ∈ short → p.docId < q.docId) :
    exponentialLoop long short cursor = short.filter fun p => p.docId ∈ long.map Posting.docId := by
  induction short generalizing cursor with
  | nil => rfl
  | cons item short ih =>
    rw [exponentialLoop]
    split_ifs with hend
    · -- all of the longer list is passed
      refine (filter_eq_nil_iff.mpr fun q hq => ?_).symm
      rw [decide_eq_true_eq]
      intro hmem
      obtain ⟨p, hp, heq⟩ := mem_map.mp hmem
      obtain ⟨j, hj⟩ := mem_iff_getElem?.mp hp
      have hjlt := (List.getElem?_eq_some_iff.mp hj).1
      exact absurd heq (ne_of_lt (hpassed j p q (by omega) hj hq))
    · have hsplits := @exponentSearchTo_spec long hlong cursor item.docId
        fun j p hj hp => hpassed j p item hj hp mem_cons_self
      show (if _ then _ else _) = _
      generalize exponentSearchTo long cursor item.docId = place at hsplits
      split_ifs with hfound
      · obtain ⟨q, hq, heq⟩ := (Option.any_eq_true _ _).mp hfound
        have hdoc : q.docId = item.docId := of_decide_eq_true heq
        have hmem : item.docId ∈ long.map Posting.docId :=
          mem_map.mpr ⟨q, mem_iff_getElem?.mpr ⟨place, hq⟩, hdoc⟩
        rw [filter_cons_of_pos (by simpa using hmem), ih hshort.of_cons fun j p r hj hp hr => ?_]
        have hle : p.docId ≤ item.docId := by
          rcases Nat.lt_succ_iff_lt_or_eq.mp hj with hj | rfl
          · exact (hsplits.1 j p hj hp).le
          · rw [hq, Option.some_inj] at hp
            rw [← hp, hdoc]
        exact lt_of_le_of_lt hle (hshort.head_lt hr)
      · have hmem : item.docId ∉ long.map Posting.docId := by
          intro hmem
          obtain ⟨p, hp, heq⟩ := mem_map.mp hmem
          obtain ⟨j, hj⟩ := mem_iff_getElem?.mp hp
          rcases Nat.lt_trichotomy j place with hlt | rfl | hgt
          · exact absurd heq (ne_of_lt (hsplits.1 j p hlt hj))
          · rw [hj, Option.any_some, decide_eq_true_eq] at hfound
            exact hfound heq
          · -- the posting at the place lies between
            have hjlt := (List.getElem?_eq_some_iff.mp hj).1
            have hget : long[place]? = some long[place] := getElem?_eq_getElem (by omega)
            have hle := hsplits.2 place _ le_rfl hget
            exact absurd heq (ne_of_gt (lt_of_le_of_lt hle (docId_lt_of_lt hlong hgt hget hj)))
        rw [filter_cons_of_neg (by simpa using hmem), ih hshort.of_cons fun j p r hj hp hr => ?_]
        exact (hsplits.1 j p hj hp).trans (hshort.head_lt hr)

section Lists

variable (a b : PostingList)

theorem linearSearch_raw : linearSearch a.raw b.raw =
    ⟨a.items.filter fun p => p.docId ∈ b.ids, weightBound (a.items.filter fun p => p.docId ∈ b.ids)⟩ := by
  have hloop := linearLoop_eq a.ascending b.ascending
  have hasc := ascending_filter a.ascending fun p => p.docId ∈ b.ids
  rw [linearSearch, PostingList.raw, PostingList.raw, hloop]
  exact (fromSorted_raw hasc.sorted).trans (fromSorted_of_ascending hasc)

theorem exponentialSearch_raw : ∃ short long : PostingList, (short = a ∧ long = b ∨ short = b ∧ long = a) ∧
    exponentialSearch a.raw b.raw = ⟨short.items.filter fun p => p.docId ∈ long.ids,
      weightBound (short.items.filter fun p => p.docId ∈ long.ids)⟩ := by
  have hloop : ∀ short long : PostingList, fromSorted (exponentialLoop long.items short.items 0) =
      ⟨short.items.filter fun p => p.docId ∈ long.ids,
        weightBound (short.items.filter fun p => p.docId ∈ long.ids)⟩ := by
    intro short long
    have hasc := ascending_filter short.ascending fun p => p.docId ∈ long.ids
    rw [exponentialLoop_eq long.ascending short.ascending fun j _ _ hj => absurd hj (Nat.not_lt_zero j)]
    exact (fromSorted_raw hasc.sorted).trans (fromSorted_of_ascending hasc)
  rw [exponentialSearch]
  by_cases hle : a.items.length ≤ b.items.length
  · refine ⟨a, b, .inl ⟨rfl, rfl⟩, ?_⟩
    rw [← hloop a b]
    exact congrArg fromSorted (if_pos hle)
  · refine ⟨b, a, .inr ⟨rfl, rfl⟩, ?_⟩
    rw [← hloop b a]
    exact congrArg fromSorted (if_neg hle)

theorem ids_filter (l : PostingList) (p : DocId → Bool) :
    (l.items.filter fun q => p q.docId).map Posting.docId = l.ids.filter p := by
  rw [PostingList.ids, filter_map]
  rfl

theorem linearSearch_ids : (linearSearch a.raw b.raw).ids = a.ids.filter (· ∈ b.ids) := by
  rw [linearSearch_raw]
  exact ids_filter a fun d => d ∈ b.ids

theorem exponentialSearch_ids : (exponentialSearch a.raw b.raw).ids = a.ids.filter (· ∈ b.ids) := by
  obtain ⟨short, long, hcases, heq⟩ := exponentialSearch_raw a b
  rw [heq]
  refine (ids_filter short fun d => d ∈ long.ids).trans ?_
  rcases hcases with ⟨rfl, rfl⟩ | ⟨rfl, rfl⟩
  · rfl
  · -- both are ascending and have the same members
    have hasc : ∀ l m : PostingList, (l.ids.filter (· ∈ m.ids)).Pairwise (· < ·) := fun l m =>
      (pairwise_map.mpr l.ascending).sublist filter_sublist
    refine (hasc _ _).eq_of_mem_iff (hasc _ _) fun d => ?_
    simp only [mem_filter, decide_eq_true_eq]
    exact and_comm

theorem intersection_ids : (intersection a.raw b.raw).ids = a.ids.filter (· ∈ b.ids) := by
  rw [intersection]
  show (if _ then _ else _ : RawPostingList).ids = _
  split_ifs
  · exact exponentialSearch_ids a b
  · exact linearSearch_ids a b

end Lists

end RawPostingList

/-! ### Advancing a cursor -/

namespace PostingCursor

variable {items : List Posting} {start : ℕ} {target : DocId}

def gallopWithin (items : List Posting) (start : ℕ) (target : DocId) : ℕ → ℕ → Option ℕ
  | 0, _ => none
  | turns + 1, bound =>
    if (items[start + bound]?).any fun p => p.docId < target then gallopWithin items start target turns (bound * 2)
    else some bound

def lowerBoundWithin (items : List Posting) (target : DocId) : ℕ → ℕ → ℕ → Option ℕ
  | 0, _, _ => none
  | turns + 1, left, right =>
    if left < right then
      let mid := left + (right - left) / 2
      if (items[mid]?).any fun p => p.docId < target then lowerBoundWithin items target turns (mid + 1) right
      else lowerBoundWithin items target turns left mid
    else some left

/-- `advance_to` with a bound on the turns of each of its loops. -/
def advanceToWithin (turns : ℕ) (c : PostingCursor) (target : DocId) : Option PostingCursor :=
  if (c.docId).all fun d => target ≤ d then some c
  else do
    let items := c.postings.items
    let bound ← gallopWithin items c.index target turns 1
    let left := c.index + bound / 2
    let right := min (c.index + bound + 1) items.length
    let index ← lowerBoundWithin items target turns left right
    return { c with index := index }

theorem gallopWithin_eq {n turns bound : ℕ} (hturns : n < turns)
    (hend : ∀ p, items[start + gallop items start target n bound]? = some p → target ≤ p.docId) :
    gallopWithin items start target turns bound = some (gallop items start target n bound) := by
  obtain ⟨turns, rfl⟩ := Nat.exists_eq_succ_of_ne_zero (Nat.ne_of_gt (Nat.zero_lt_of_lt hturns))
  induction n generalizing turns bound with
  | zero =>
    rw [gallopWithin, if_neg, gallop]
    intro hbefore
    obtain ⟨p, hp, hlt⟩ := (Option.any_eq_true _ _).mp hbefore
    exact absurd (hend p hp) (not_le.mpr (of_decide_eq_true hlt))
  | succ n ih =>
    rw [gallop] at hend ⊢
    rw [gallopWithin]
    split_ifs at hend ⊢ with hbefore
    · obtain ⟨turns, rfl⟩ := Nat.exists_eq_succ_of_ne_zero (n := turns) (by omega)
      exact ih hend turns (by omega)
    · rfl

theorem lowerBoundWithin_eq {n turns left right : ℕ} (hn : right - left ≤ n) (hturns : n < turns) :
    lowerBoundWithin items target turns left right = some (lowerBound items target n left right) := by
  induction turns generalizing n left right with
  | zero => omega
  | succ turns ih =>
    rw [lowerBoundWithin]
    cases n with
    | zero => rw [if_neg (by omega), lowerBound]
    | succ n =>
      rw [lowerBound]
      simp only
      split_ifs
      · exact ih (by omega) (by omega)
      · exact ih (by omega) (by omega)
      · rfl

theorem lowerBound_le {n left right : ℕ} (hle : left ≤ right) : lowerBound items target n left right ≤ right := by
  induction n generalizing left right with
  | zero => exact hle
  | succ n ih =>
    rw [lowerBound]
    simp only
    split_ifs
    · exact ih (by omega)
    · exact (ih (by omega)).trans (by omega)
    · exact hle

theorem seek_le {p : Posting} (hp : items[start]? = some p) (hlt : p.docId < target) :
    seek items start target ≤ items.length := by
  obtain ⟨⟨q, hq, -⟩, -⟩ := @gallop_spec items target start items.length 1
    Nat.one_pos (by omega) ⟨p, by simpa using hp, hlt⟩
  have hlen := (List.getElem?_eq_some_iff.mp hq).1
  rw [seek]
  exact (lowerBound_le (by omega)).trans (min_le_right _ _)

theorem advanceToWithin_eq (c : PostingCursor) (target : DocId) {turns : ℕ}
    (hturns : c.postings.items.length < turns) : c.advanceToWithin turns target = some (c.advanceTo target) := by
  rw [advanceToWithin, advanceTo]
  split_ifs with hall
  · rfl
  · obtain ⟨p, hp, hlt⟩ := exists_before hall
    obtain ⟨⟨q, hq, -⟩, hpast⟩ := @gallop_spec c.postings.items target c.index c.postings.items.length 1
      Nat.one_pos (by omega) ⟨p, by simpa using hp, hlt⟩
    show (gallopWithin c.postings.items c.index target turns 1 >>= _) = _
    rw [gallopWithin_eq hturns hpast, seek]
    show (lowerBoundWithin c.postings.items target turns _ _ >>= _) = _
    rw [lowerBoundWithin_eq (Nat.le_refl _) (by omega)]
    rfl

theorem isLeast_advanceTo (c : PostingCursor) (target : DocId) :
    IsLeast {j | c.index ≤ j ∧ ∀ p, c.postings.items[j]? = some p → target ≤ p.docId}
      (c.advanceTo target).index := by
  rw [advanceTo]
  split_ifs with hall
  · -- the cursor stays
    refine ⟨⟨le_rfl, fun p hp => ?_⟩, fun j hj => hj.1⟩
    rw [docId, current, hp, Option.map_some, Option.all_some] at hall
    exact of_decide_eq_true hall
  · obtain ⟨p, hp, hlt⟩ := exists_before hall
    have hsplits := seek_spec c.postings.ascending hp hlt
    refine ⟨⟨?_, fun q hq => hsplits.2 _ q le_rfl hq⟩, fun j hj => ?_⟩
    · exact not_lt.mp fun hbefore => absurd (hsplits.2 c.index p hbefore.le hp) (not_le.mpr hlt)
    · by_contra hbefore
      have hin : j < c.postings.items.length := (not_le.mp hbefore).trans_le (seek_le hp hlt)
      have hget : c.postings.items[j]? = some c.postings.items[j] := List.getElem?_eq_getElem hin
      exact absurd (hj.2 _ hget) (not_le.mpr (hsplits.1 j _ (not_le.mp hbefore) hget))

end PostingCursor

/-- The strategies of the intersection agree and find the common documents, and `advance_to`
ends at the first posting from the current one on that is not before the target, or at the end. -/
theorem galloping_exact :
    (∀ a b : PostingList, (RawPostingList.intersection a.raw b.raw).ids = a.ids.filter (· ∈ b.ids) ∧
      (RawPostingList.exponentialSearch a.raw b.raw).ids = a.ids.filter (· ∈ b.ids) ∧
      (RawPostingList.linearSearch a.raw b.raw).ids = a.ids.filter (· ∈ b.ids)) ∧
    ∀ (c : PostingCursor) (target : DocId) (turns : ℕ), c.postings.items.length < turns →
      ∃ c' : PostingCursor, c.advanceToWithin turns target = some c' ∧ c'.postings = c.postings ∧
        IsLeast {j | c.index ≤ j ∧ ∀ p, c.postings.items[j]? = some p → target ≤ p.docId} c'.index :=
  ⟨fun a b => ⟨RawPostingList.intersection_ids a b, RawPostingList.exponentialSearch_ids a b,
      RawPostingList.linearSearch_ids a b⟩,
    fun c target _ hturns => ⟨_, advanceToWithin_eq c target hturns, postings_advanceTo c target,
      isLeast_advanceTo c target⟩⟩

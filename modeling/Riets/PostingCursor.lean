/-
Cursors over posting lists.

A cursor stands at a place of a posting list and moves forwards only.  To reach
a document it doubles its stride until it has passed it, and then halves the
last stride.
-/
import Riets.Walk
import Riets.Posting

structure PostingCursor where
  postings : PostingList
  index : ℕ
  deriving DecidableEq

namespace PostingCursor

open List Option Keyed

def new (list : PostingList) : PostingCursor := ⟨list, 0⟩

def rest (c : PostingCursor) : List Posting := c.postings.items.drop c.index

def isExhausted (c : PostingCursor) : Bool := c.postings.items.length ≤ c.index

def current (c : PostingCursor) : Option Posting := c.postings.items[c.index]?

def docId (c : PostingCursor) : Option DocId := c.current.map Posting.docId

def next (c : PostingCursor) : PostingCursor :=
  if c.isExhausted then c else { c with index := c.index + 1 }

/-- The stride doubles until it passes the target or the end; it stays below twice the length of
the list, so the saturating product of the source is exact. -/
def gallop (items : List Posting) (start : ℕ) (target : DocId) : ℕ → ℕ → ℕ
  | 0, bound => bound
  | n + 1, bound =>
    if (items[start + bound]?).any fun p => p.docId < target then gallop items start target n (bound * 2)
    else bound

/-- The first place from `left` on, up to `right`, whose posting is not before the target. -/
def lowerBound (items : List Posting) (target : DocId) : ℕ → ℕ → ℕ → ℕ
  | 0, left, _ => left
  | n + 1, left, right =>
    if left < right then
      let mid := left + (right - left) / 2
      if (items[mid]?).any fun p => p.docId < target then lowerBound items target n (mid + 1) right
      else lowerBound items target n left mid
    else left

/-- The place a search for the target from `start` on ends at. -/
def seek (items : List Posting) (start : ℕ) (target : DocId) : ℕ :=
  let bound := gallop items start target items.length 1
  let left := start + bound / 2
  let right := min (start + bound + 1) items.length
  lowerBound items target (right - left) left right

def advanceTo (c : PostingCursor) (target : DocId) : PostingCursor :=
  if (c.docId).all fun d => target ≤ d then c
  else { c with index := seek c.postings.items c.index target }

variable {items : List Posting} {target : DocId}

/-- Below `i` the documents are before the target, from `i` on they are not. -/
def Splits (items : List Posting) (target : DocId) (i : ℕ) : Prop :=
  (∀ j p, j < i → items[j]? = some p → p.docId < target) ∧
    ∀ j p, i ≤ j → items[j]? = some p → target ≤ p.docId

theorem docId_lt_of_lt (hasc : Ascending Posting.docId items) {i j : ℕ} {p q : Posting} (hij : i < j)
    (hp : items[i]? = some p) (hq : items[j]? = some q) : p.docId < q.docId := by
  obtain ⟨hi, rfl⟩ := List.getElem?_eq_some_iff.mp hp
  obtain ⟨hj, rfl⟩ := List.getElem?_eq_some_iff.mp hq
  exact pairwise_iff_getElem.mp hasc i j hi hj hij

theorem lowerBound_spec (hasc : Ascending Posting.docId items) {n left right : ℕ}
    (hn : right - left ≤ n) (hright : right ≤ items.length) (hle : left ≤ right)
    (hlow : ∀ j p, j < left → items[j]? = some p → p.docId < target)
    (hhigh : ∀ j p, right ≤ j → items[j]? = some p → target ≤ p.docId) :
    Splits items target (lowerBound items target n left right) := by
  induction n generalizing left right with
  | zero =>
    obtain rfl : left = right := by omega
    exact ⟨hlow, hhigh⟩
  | succ n ih =>
    rw [lowerBound]
    split_ifs with hlt
    · have hmid : left + (right - left) / 2 < items.length := by omega
      have hget : items[left + (right - left) / 2]? = some items[left + (right - left) / 2] :=
        getElem?_eq_getElem hmid
      simp only [hget, any_some, decide_eq_true_eq]
      split_ifs with hbefore
      · refine ih (by omega) hright (by omega) (fun j p hj hp => ?_) hhigh
        rcases Nat.lt_succ_iff_lt_or_eq.mp hj with hj | rfl
        · exact (docId_lt_of_lt hasc hj hp hget).trans hbefore
        · rw [hget, some_inj] at hp
          exact hp ▸ hbefore
      · refine ih (by omega) (by omega) (by omega) hlow fun j p hj hp => ?_
        rcases hj.eq_or_lt with rfl | hj
        · rw [hget, some_inj] at hp
          exact hp ▸ not_lt.mp hbefore
        · exact (not_lt.mp hbefore).trans (docId_lt_of_lt hasc hj hget hp).le
    · obtain rfl : left = right := by omega
      exact ⟨hlow, hhigh⟩

theorem gallop_spec {start n bound : ℕ} (hpos : 0 < bound) (hn : items.length ≤ n + bound)
    (hhalf : ∃ p, items[start + bound / 2]? = some p ∧ p.docId < target) :
    (∃ p, items[start + gallop items start target n bound / 2]? = some p ∧ p.docId < target) ∧
      ∀ p, items[start + gallop items start target n bound]? = some p → target ≤ p.docId := by
  induction n generalizing bound with
  | zero =>
    refine ⟨hhalf, fun p hp => ?_⟩
    have hlt := (List.getElem?_eq_some_iff.mp hp).1
    rw [gallop] at hlt
    omega
  | succ n ih =>
    rw [gallop]
    split_ifs with hbefore
    · refine ih (by omega) (by omega) ?_
      rw [Nat.mul_div_cancel _ (by omega : 0 < 2)]
      exact (any_eq_true _ _).mp hbefore |>.imp fun p hp => ⟨hp.1, of_decide_eq_true hp.2⟩
    · refine ⟨hhalf, fun p hp => ?_⟩
      rw [hp, any_some, decide_eq_true_eq] at hbefore
      exact not_lt.mp hbefore

theorem seek_spec (hasc : Ascending Posting.docId items) {start : ℕ} {p : Posting}
    (hp : items[start]? = some p) (hlt : p.docId < target) : Splits items target (seek items start target) := by
  obtain ⟨⟨q, hq, hqlt⟩, hpast⟩ := @gallop_spec items _ _ items.length _
    Nat.one_pos (by omega) ⟨p, by simpa using hp, hlt⟩
  rw [seek]
  generalize gallop items start target items.length 1 = bound at hq hpast
  have hleft := (List.getElem?_eq_some_iff.mp hq).1
  refine lowerBound_spec hasc le_rfl (min_le_right _ _) (by omega) (fun j r hj hr => ?_) fun j r hj hr => ?_
  · exact (docId_lt_of_lt hasc hj hr hq).trans hqlt
  · -- everything behind the stride is behind the target
    have hjlt := (List.getElem?_eq_some_iff.mp hr).1
    have hbound : start + bound < items.length := by omega
    have hget : items[start + bound]? = some items[start + bound] := getElem?_eq_getElem hbound
    exact (hpast _ hget).trans (docId_lt_of_lt hasc (by omega) hget hr).le

theorem drop_of_splits {i j : ℕ} (hij : i ≤ j) (h : Splits items target j) :
    items.drop j = (items.drop i).filter fun p => target ≤ p.docId := by
  obtain ⟨n, rfl⟩ := Nat.exists_eq_add_of_le hij
  have hsplit : items.drop i = (items.drop i).take n ++ items.drop (i + n) := by
    rw [← drop_drop, take_append_drop]
  have hskipped : ((items.drop i).take n).filter (fun p => decide (target ≤ p.docId)) = [] := by
    refine filter_eq_nil_iff.mpr fun p hp => ?_
    obtain ⟨m, hm⟩ := mem_iff_getElem?.mp hp
    rw [getElem?_take] at hm
    split_ifs at hm with hmn
    rw [getElem?_drop] at hm
    simpa using h.1 (i + m) p (by omega) hm
  have hkept : (items.drop (i + n)).filter (fun p => decide (target ≤ p.docId)) = items.drop (i + n) := by
    refine filter_eq_self.mpr fun p hp => ?_
    obtain ⟨m, hm⟩ := mem_iff_getElem?.mp hp
    rw [getElem?_drop] at hm
    exact decide_eq_true (h.2 (i + n + m) p (by omega) hm)
  rw [hsplit, filter_append, hskipped, hkept, nil_append]

/-! ### The moves -/

theorem ascending_rest (c : PostingCursor) : Ascending Posting.docId c.rest :=
  Pairwise.sublist (drop_sublist _ _) c.postings.ascending

theorem current_eq (c : PostingCursor) : c.current = c.rest.head? := by
  rw [current, rest, head?_drop]

theorem rest_next (c : PostingCursor) : c.next.rest = c.rest.tail := by
  rw [next, rest]
  split_ifs with h
  · have hnil : c.rest = [] := drop_eq_nil_of_le (of_decide_eq_true h)
    rw [← rest, hnil]
    rfl
  · rw [rest, tail_drop]

@[simp] theorem postings_next (c : PostingCursor) : c.next.postings = c.postings := by
  rw [next]
  split_ifs <;> rfl

@[simp] theorem postings_advanceTo (c : PostingCursor) (t : DocId) :
    (c.advanceTo t).postings = c.postings := by
  rw [advanceTo]
  split_ifs <;> rfl

theorem exists_before {c : PostingCursor} {t : DocId} (h : ¬(c.docId.all fun d => t ≤ d) = true) :
    ∃ p, c.postings.items[c.index]? = some p ∧ p.docId < t := by
  cases hcur : c.current with
  | none => rw [docId, hcur] at h; exact absurd rfl h
  | some p =>
    rw [docId, hcur, map_some, all_some, decide_eq_true_eq] at h
    exact ⟨p, hcur, not_le.mp h⟩

theorem rest_advanceTo (c : PostingCursor) (t : DocId) :
    (c.advanceTo t).rest = c.rest.filter fun p => t ≤ p.docId := by
  rw [advanceTo]
  split_ifs with hall
  · -- the cursor is at the target, past it, or exhausted
    refine (filter_eq_self.mpr fun p hp => ?_).symm
    have hrest := c.ascending_rest
    rw [docId, current_eq] at hall
    cases hr : c.rest with
    | nil => rw [hr] at hp; exact absurd hp (by simp)
    | cons q l =>
      rw [hr, head?_cons, map_some, all_some] at hall
      rw [hr] at hp hrest
      have hq : t ≤ q.docId := of_decide_eq_true hall
      rcases mem_cons.mp hp with rfl | hp
      · exact decide_eq_true hq
      · exact decide_eq_true (hq.trans (hrest.head_lt hp).le)
  · obtain ⟨p, hp, hlt⟩ := exists_before hall
    have hsplits := seek_spec c.postings.ascending hp hlt
    refine drop_of_splits (not_lt.mp fun hbefore => ?_) hsplits
    -- the search does not end before the current posting, which is before the target
    exact absurd (hsplits.2 c.index p hbefore.le hp) (not_le.mpr hlt)

def walker : Walker PostingCursor DocId where
  doc := docId
  left := fun c => c.postings.items.length - c.index
  advanceTo := advanceTo

def entries (c : PostingCursor) : List (DocId × Posting) := c.rest.map fun p => (p.docId, p)

theorem lawful : walker.Lawful (fun _ => True) entries where
  ascending := fun c _ => pairwise_map.mpr c.ascending_rest
  doc_eq := by
    intro c _
    change c.docId = _
    rw [docId, current_eq, entries, head?_map, Option.map_map]
    rfl
  length_le := by
    intro c _
    rw [entries, length_map, rest, length_drop]
    exact le_rfl
  ok_advanceTo := fun _ _ _ => trivial
  entries_advanceTo := by
    intro c t _
    change ((c.advanceTo t).rest).map _ = _
    rw [rest_advanceTo, entries, List.filter_map]
    rfl

end PostingCursor

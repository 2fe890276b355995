/-
The smallest window that holds a position of every word.

The positions of all words are sorted together.  A window is moved over them: it grows
by one event at its right end, and shrinks from the left while it holds every word.
Counts and spans are `u32`s, and lists are read at an index, each of which could fail.
-/
import Mathlib.Data.Finset.Card
import Mathlib.Data.Finset.Lattice.Fold
import Riets.Executor
import Riets.Fallible

open Fallible List

/-- The positions of a word in a document: `u32`s, and a `u32` counts them where they are stored. -/
structure StoredPositions where
  positions : List ℕ
  fits : ∀ p ∈ positions, p < 2 ^ 32
  counted : positions.length < 2 ^ 32

abbrev CoverEvent := ℕ × ℕ

def eventLe (a b : CoverEvent) : Bool := decide (a.1 < b.1 ∨ (a.1 = b.1 ∧ a.2 ≤ b.2))

def coverEvents (lists : List StoredPositions) : List CoverEvent :=
  (lists.zipIdx.flatMap fun entry => entry.1.positions.map fun position =>
    (positionStart position, entry.2)).mergeSort eventLe

/-- The window, by its left end, with the counts of the words in it. -/
structure CoverState where
  counts : List ℕ
  covered : ℕ
  best : Option ℕ
  left : ℕ

def uncover (covered count : ℕ) : Fallible ℕ := if count = 0 then sub covered 1 else ok covered

/-- The inner loop: shrink from the left while the window still holds every word. -/
def shrink (events : List CoverEvent) (words right : ℕ) (s : CoverState) : Fallible CoverState :=
  if s.covered = words then
    if hleft : s.left < events.length then do
      let last ← index events right
      let first ← index events s.left
      let distance ← sub last.1 first.1
      let span ← add (2 ^ 32) distance 1
      let counted ← index s.counts first.2
      let count ← sub counted 1
      let counts ← setAt s.counts first.2 count
      let covered ← uncover s.covered count
      shrink events words right
        ⟨counts, covered, some (s.best.elim span fun known => min known span), s.left + 1⟩
    else fault
  else ok s
termination_by events.length - s.left

/-- One turn of the outer loop: the event at `right` comes into the window. -/
def advance (events : List CoverEvent) (words : ℕ) (s : CoverState) (right : ℕ) : Fallible CoverState := do
  let event ← index events right
  let counted ← index s.counts event.2
  let count ← add (2 ^ 32) counted 1
  let counts ← setAt s.counts event.2 count
  shrink events words right
    { s with counts := counts, covered := if counted = 0 then s.covered + 1 else s.covered }

def minCoverSpan (lists : List StoredPositions) : Fallible (Option ℕ) :=
  if lists = [] ∨ ∃ list ∈ lists, list.positions = [] then ok none
  else do
    let events := coverEvents lists
    let s ← (range events.length).foldlM (advance events lists.length)
      ⟨replicate lists.length 0, 0, none, 0⟩
    return s.best

section Windows

variable {events : List CoverEvent} {n left right : ℕ}

def wordsBetween (events : List CoverEvent) (left right : ℕ) : List ℕ :=
  ((events.take right).drop left).map Prod.snd

def Covers (events : List CoverEvent) (n left right : ℕ) : Prop :=
  ∀ word < n, word ∈ wordsBetween events left right

theorem wordsBetween_push {event : CoverEvent} (hle : left ≤ right) (h : events[right]? = some event) :
    wordsBetween events left (right + 1) = wordsBetween events left right ++ [event.2] := by
  obtain ⟨hlt, -⟩ := List.getElem?_eq_some_iff.mp h
  have hlen : left ≤ (events.take right).length := by
    rw [length_take]
    omega
  rw [wordsBetween, take_add_one, h, Option.toList_some, drop_append_of_le_length hlen, map_append]
  rfl

theorem wordsBetween_pop {event : CoverEvent} (hlt : left < right) (h : events[left]? = some event) :
    wordsBetween events left right = event.2 :: wordsBetween events (left + 1) right := by
  obtain ⟨hlen, hget⟩ := List.getElem?_eq_some_iff.mp h
  have htake : left < (events.take right).length := by
    rw [length_take]
    omega
  rw [wordsBetween, drop_eq_getElem_cons htake, map_cons, getElem_take, hget]
  rfl

theorem mem_wordsBetween {word : ℕ} : word ∈ wordsBetween events left right ↔
    ∃ i event, left ≤ i ∧ i < right ∧ events[i]? = some event ∧ event.2 = word := by
  rw [wordsBetween, mem_map]
  constructor
  · rintro ⟨event, hmem, rfl⟩
    obtain ⟨j, hj⟩ := mem_iff_getElem?.mp hmem
    rw [getElem?_drop, getElem?_take] at hj
    split_ifs at hj with hlt
    exact ⟨left + j, event, by omega, hlt, hj, rfl⟩
  · rintro ⟨i, event, hle, hlt, hget, rfl⟩
    refine ⟨event, mem_iff_getElem?.mpr ⟨i - left, ?_⟩, rfl⟩
    rw [getElem?_drop, getElem?_take, if_pos (by omega), Nat.add_sub_cancel' hle, hget]

theorem Covers.mono (h : Covers events n left right) {left' : ℕ} (hle : left' ≤ left) :
    Covers events n left' right := by
  intro word hword
  obtain ⟨i, event, hi, hlt, hget, heq⟩ := mem_wordsBetween.mp (h word hword)
  exact mem_wordsBetween.mpr ⟨i, event, hle.trans hi, hlt, hget, heq⟩

theorem covers_iff_card (hwords : ∀ event ∈ events, event.2 < n) :
    (wordsBetween events left right).toFinset.card = n ↔ Covers events n left right := by
  have hsub : (wordsBetween events left right).toFinset ⊆ Finset.range n := by
    intro word hword
    obtain ⟨i, event, -, -, hget, rfl⟩ := mem_wordsBetween.mp (mem_toFinset.mp hword)
    exact Finset.mem_range.mpr (hwords event (mem_of_getElem? hget))
  constructor
  · intro hcard word hword
    have heq : (wordsBetween events left right).toFinset = Finset.range n := by
      refine Finset.eq_of_subset_of_card_le hsub ?_
      rw [Finset.card_range, hcard]
    exact mem_toFinset.mp (heq ▸ Finset.mem_range.mpr hword)
  · intro hcovers
    have heq : (wordsBetween events left right).toFinset = Finset.range n := by
      refine Finset.Subset.antisymm hsub fun word hword => ?_
      exact mem_toFinset.mpr (hcovers word (Finset.mem_range.mp hword))
    rw [heq, Finset.card_range]

end Windows

/-! ### The loops -/

section Loops

variable {events : List CoverEvent} {n : ℕ}

/-- The state belongs to the window from its left end up to `right`; windows that end before
`done` have been seen. -/
structure Slid (events : List CoverEvent) (n right done : ℕ) (s : CoverState) : Prop where
  left_le : s.left ≤ right
  length : s.counts.length = n
  counts : ∀ word < n, s.counts[word]? = some ((wordsBetween events s.left right).count word)
  covered : s.covered = (wordsBetween events s.left right).toFinset.card
  /-- a window that begins at an event that was left behind is not smaller -/
  passed : ∀ l < s.left, ∀ first last, events[l]? = some first → events[right - 1]? = some last →
    ∃ b, s.best = some b ∧ b + first.1 ≤ last.1 + 1
  found : ∀ b, s.best = some b → ∃ l r first last, l ≤ r ∧ r < right ∧ events[l]? = some first ∧
    events[r]? = some last ∧ Covers events n l (r + 1) ∧ b + first.1 = last.1 + 1
  least : ∀ l r first last, l ≤ r → r < done → events[l]? = some first → events[r]? = some last →
    Covers events n l (r + 1) → ∃ b, s.best = some b ∧ b + first.1 ≤ last.1 + 1

/-- The events are sorted, and all numbers about them fit their types. -/
structure EventsOk (events : List CoverEvent) (n : ℕ) : Prop where
  sorted : ∀ (i j : ℕ) (a b : CoverEvent), i ≤ j → events[i]? = some a → events[j]? = some b → a.1 ≤ b.1
  words : ∀ event ∈ events, event.2 < n
  starts : ∀ event ∈ events, event.1 + 1 < 2 ^ 32
  counted : ∀ word, (events.map Prod.snd).count word < 2 ^ 32

theorem slid_start : Slid events n 0 0 ⟨replicate n 0, 0, none, 0⟩ where
  left_le := le_rfl
  length := length_replicate
  counts word hword := by
    rw [getElem?_replicate, if_pos hword]
    rfl
  covered := rfl
  passed l hl := absurd hl (Nat.not_lt_zero l)
  found b hb := by cases hb
  least l r _ _ _ hr := absurd hr (Nat.not_lt_zero r)

def leftBehind (s : CoverState) (first : CoverEvent) (count span : ℕ) : CoverState where
  counts := s.counts.set first.2 count
  covered := if count = 0 then s.covered - 1 else s.covered
  best := some (s.best.elim span fun known => min known span)
  left := s.left + 1

theorem leftBehind_best (s : CoverState) (first : CoverEvent) (count span : ℕ) :
    ∃ b, (leftBehind s first count span).best = some b ∧ b ≤ span ∧ (∀ known, s.best = some known → b ≤ known) ∧
      (b = span ∨ s.best = some b) := by
  refine ⟨_, rfl, ?_⟩
  cases s.best with
  | none => exact ⟨le_rfl, fun known hknown => (by cases hknown), .inl rfl⟩
  | some known =>
    refine ⟨min_le_right known span, fun known' hknown => ?_, ?_⟩
    · rw [← Option.some_inj.mp hknown]
      exact min_le_left known span
    · rcases min_choice known span with hmin | hmin
      · exact .inr (congrArg some hmin.symm)
      · exact .inl hmin

variable {s : CoverState}

variable {right : ℕ}

theorem leftBehind_slid {first last : CoverEvent} {span : ℕ}
    (h : Slid events n (right + 1) right s) (hle : s.left ≤ right)
    (hfirst : events[s.left]? = some first) (hlast : events[right]? = some last)
    (hcovers : Covers events n s.left (right + 1)) (hspan : span + first.1 = last.1 + 1) :
    Slid events n (right + 1) right
      (leftBehind s first ((wordsBetween events (s.left + 1) (right + 1)).count first.2) span) := by
  have hpop := wordsBetween_pop (Nat.lt_succ_of_le hle) hfirst
  obtain ⟨b, hb, hbspan, hold, hbest⟩ :=
    leftBehind_best s first ((wordsBetween events (s.left + 1) (right + 1)).count first.2) span
  refine ⟨?_, ?_, ?_, ?_, ?_, ?_, ?_⟩
  · show s.left + 1 ≤ right + 1
    omega
  · show (s.counts.set _ _).length = n
    rw [length_set, h.length]
  · intro word hword
    show (s.counts.set first.2 _)[word]? = some ((wordsBetween events (s.left + 1) (right + 1)).count word)
    by_cases heq : first.2 = word
    · subst heq
      rw [getElem?_set_self (by rw [h.length]; exact hword)]
    · rw [getElem?_set_ne heq, h.counts word hword, hpop, count_cons_of_ne heq]
  · show (if _ = 0 then s.covered - 1 else s.covered) = (wordsBetween events (s.left + 1) (right + 1)).toFinset.card
    rw [h.covered, hpop, toFinset_cons]
    by_cases hgone : first.2 ∈ wordsBetween events (s.left + 1) (right + 1)
    · rw [if_neg (count_pos_iff.mpr hgone).ne', Finset.insert_eq_of_mem (mem_toFinset.mpr hgone)]
    · rw [if_pos (count_eq_zero.mpr hgone), Finset.card_insert_of_notMem (by rwa [mem_toFinset]),
        Nat.add_sub_cancel]
  · intro l hl first' last' hfirst' hlast'
    refine ⟨b, hb, ?_⟩
    rcases Nat.lt_succ_iff_lt_or_eq.mp hl with hlt | rfl
    · obtain ⟨known, hknown, hle'⟩ := h.passed l hlt first' last' hfirst' hlast'
      have := hold known hknown
      omega
    · rw [hfirst] at hfirst'
      obtain rfl := Option.some_inj.mp hfirst'
      rw [Nat.add_sub_cancel, hlast] at hlast'
      obtain rfl := Option.some_inj.mp hlast'
      omega
  · intro b' hb'
    rw [hb] at hb'
    obtain rfl := Option.some_inj.mp hb'
    rcases hbest with rfl | hknown
    · exact ⟨s.left, right, first, last, hle, Nat.lt_succ_self right, hfirst, hlast, hcovers, hspan⟩
    · exact h.found b hknown
  · intro l r first' last' hlr hr hfirst' hlast' hcovers'
    obtain ⟨known, hknown, hle'⟩ := h.least l r first' last' hlr hr hfirst' hlast' hcovers'
    have := hold known hknown
    exact ⟨b, hb, by omega⟩

theorem shrink_done (h : Slid events n (right + 1) right s)
    (hok : EventsOk events n) (hcovered : ¬ s.covered = n) :
    ∃ s', shrink events n right s = ok s' ∧ Slid events n (right + 1) (right + 1) s' := by
  refine ⟨s, by rw [shrink, if_neg hcovered], { h with least := ?_ }⟩
  intro l r first last hlr hr hfirst hlast hcovers
  rcases Nat.lt_succ_iff_lt_or_eq.mp hr with hlt | rfl
  · exact h.least l r first last hlr hlt hfirst hlast hcovers
  · refine h.passed l (not_le.mp fun hle => hcovered ?_) first last hfirst hlast
    rw [h.covered]
    exact (covers_iff_card hok.words).mpr (hcovers.mono hle)

theorem shrink_covered {first last : CoverEvent}
    (h : Slid events n (right + 1) right s) (hok : EventsOk events n) (hle : s.left ≤ right)
    (hfirst : events[s.left]? = some first) (hlast : events[right]? = some last) (hcovered : s.covered = n)
    (hn : 0 < n) :
    shrink events n right s = shrink events n right (leftBehind s first
      ((wordsBetween events (s.left + 1) (right + 1)).count first.2) (last.1 - first.1 + 1)) := by
  have hpop := wordsBetween_pop (Nat.lt_succ_of_le hle) hfirst
  obtain ⟨hlt, -⟩ := List.getElem?_eq_some_iff.mp hfirst
  have hword := hok.words first (mem_of_getElem? hfirst)
  have hsorted : first.1 ≤ last.1 := hok.sorted s.left right first last hle hfirst hlast
  have hspan : last.1 - first.1 + 1 < 2 ^ 32 := by
    have := hok.starts last (mem_of_getElem? hlast)
    omega
  have hcount : s.counts[first.2]? =
      some ((wordsBetween events (s.left + 1) (right + 1)).count first.2 + 1) := by
    rw [h.counts first.2 hword, hpop, count_cons_self]
  have hcovers : uncover s.covered ((wordsBetween events (s.left + 1) (right + 1)).count first.2) =
      ok (if (wordsBetween events (s.left + 1) (right + 1)).count first.2 = 0 then s.covered - 1
        else s.covered) := by
    rw [uncover]
    split_ifs
    · exact sub_of_le (by omega)
    · rfl
  conv_lhs => rw [shrink]
  rw [if_pos hcovered, dif_pos hlt, index_of_some hlast, ok_bind, index_of_some hfirst, ok_bind,
    sub_of_le hsorted, ok_bind, add_of_lt hspan, ok_bind, index_of_some hcount, ok_bind,
    sub_of_le (Nat.le_add_left 1 _), ok_bind, Nat.add_sub_cancel,
    setAt_of_lt (by rw [h.length]; exact hword), ok_bind, hcovers, ok_bind]
  rfl

theorem shrink_spec (h : Slid events n (right + 1) right s)
    (hok : EventsOk events n) (hn : 0 < n) (hright : right < events.length) :
    ∃ s', shrink events n right s = ok s' ∧ Slid events n (right + 1) (right + 1) s' := by
  induction hk : right + 1 - s.left generalizing s with
  | zero =>
    -- an empty window holds no word
    have hempty : wordsBetween events s.left (right + 1) = [] := by
      rw [wordsBetween, drop_eq_nil_of_le, map_nil]
      rw [length_take]
      omega
    have hcovered : ¬ s.covered = n := by
      rw [h.covered, hempty, toFinset_nil, Finset.card_empty]
      omega
    exact shrink_done h hok hcovered
  | succ k ih =>
    by_cases hcovered : s.covered = n
    · have hle : s.left ≤ right := by omega
      have hfirst : events[s.left]? = some events[s.left] := getElem?_eq_getElem (by omega)
      have hlast : events[right]? = some events[right] := getElem?_eq_getElem hright
      have hcovers : Covers events n s.left (right + 1) :=
        (covers_iff_card hok.words).mp (h.covered.symm.trans hcovered)
      have hsorted := hok.sorted s.left right _ _ hle hfirst hlast
      rw [shrink_covered h hok hle hfirst hlast hcovered hn]
      refine ih (leftBehind_slid h hle hfirst hlast hcovers (by omega)) ?_
      show right + 1 - (s.left + 1) = k
      omega
    · exact shrink_done h hok hcovered

theorem advance_spec (h : Slid events n right right s) (hok : EventsOk events n)
    (hn : 0 < n) (hright : right < events.length) :
    ∃ s', advance events n s right = ok s' ∧ Slid events n (right + 1) (right + 1) s' := by
  have hevent : events[right]? = some events[right] := getElem?_eq_getElem hright
  have hword := hok.words _ (mem_of_getElem? hevent)
  have hpush := wordsBetween_push h.left_le hevent
  have hcount := h.counts _ hword
  have hroom : (wordsBetween events s.left right).count events[right].2 + 1 < 2 ^ 32 := by
    -- the word is in the window once more than before, and nowhere more often than in all events
    refine lt_of_le_of_lt ?_ (hok.counted events[right].2)
    have hsub : (wordsBetween events s.left (right + 1)).Sublist (events.map Prod.snd) :=
      ((drop_sublist _ _).trans (take_sublist _ _)).map Prod.snd
    have hle := hsub.count_le events[right].2
    rw [hpush, count_append, count_singleton_self] at hle
    exact hle
  rw [advance, index_of_some hevent, ok_bind, index_of_some hcount, ok_bind, add_of_lt hroom, ok_bind,
    setAt_of_lt (by rw [h.length]; exact hword), ok_bind]
  refine shrink_spec ?_ hok hn hright
  refine ⟨?_, ?_, ?_, ?_, ?_, ?_, h.least⟩
  · show s.left ≤ right + 1
    exact h.left_le.trans (Nat.le_succ right)
  · show (s.counts.set _ _).length = n
    rw [length_set, h.length]
  · intro word hword'
    show (s.counts.set _ _)[word]? = some ((wordsBetween events s.left (right + 1)).count word)
    by_cases heq : events[right].2 = word
    · rw [hpush, count_append, ← heq, count_singleton_self,
        getElem?_set_self (by rw [h.length]; exact hword)]
    · rw [hpush, count_append, count_singleton, getElem?_set_ne heq, h.counts word hword']
      simp [heq]
  · show (if _ = 0 then s.covered + 1 else s.covered) = (wordsBetween events s.left (right + 1)).toFinset.card
    rw [hpush, toFinset_append, toFinset_cons, toFinset_nil, insert_empty_eq, Finset.union_comm,
      ← Finset.insert_eq, h.covered]
    by_cases hin : events[right].2 ∈ wordsBetween events s.left right
    · rw [if_neg (count_pos_iff.mpr hin).ne', Finset.insert_eq_of_mem (mem_toFinset.mpr hin)]
    · rw [if_pos (count_eq_zero.mpr hin), Finset.card_insert_of_notMem (by rwa [mem_toFinset])]
  · intro l hl first last hfirst hlast
    -- the windows left behind ended before this event
    obtain ⟨hlt, -⟩ := List.getElem?_eq_some_iff.mp hfirst
    have hl' : l < s.left := hl
    have hle := h.left_le
    have hbefore : events[right - 1]? = some events[right - 1] := getElem?_eq_getElem (by omega)
    obtain ⟨b, hb, hble⟩ := h.passed l hl first _ hfirst hbefore
    rw [Nat.add_sub_cancel] at hlast
    have hsorted := hok.sorted (right - 1) right _ _ (by omega) hbefore hlast
    exact ⟨b, hb, by omega⟩
  · intro b hb
    obtain ⟨l, r, first, last, hlr, hr, hrest⟩ := h.found b hb
    exact ⟨l, r, first, last, hlr, hr.trans (Nat.lt_succ_self right), hrest⟩

theorem slid_all (hok : EventsOk events n) (hn : 0 < n) (hright : right ≤ events.length) :
    ∃ s, (range right).foldlM (advance events n) ⟨replicate n 0, 0, none, 0⟩ = ok s ∧
      Slid events n right right s := by
  induction right with
  | zero => exact ⟨_, rfl, slid_start⟩
  | succ right ih =>
    obtain ⟨s, hs, hslid⟩ := ih (by omega)
    obtain ⟨s', hs', hslid'⟩ := advance_spec hslid hok hn hright
    refine ⟨s', ?_, hslid'⟩
    rw [range_succ, foldlM_append, hs, ok_bind, foldlM_cons, hs', ok_bind]
    rfl

end Loops

section Lists

variable {lists : List StoredPositions}

theorem eventLe_trans (a b c : CoverEvent) (h : eventLe a b = true) (h' : eventLe b c = true) :
    eventLe a c = true := by
  simp only [eventLe, decide_eq_true_eq] at h h' ⊢
  omega

theorem eventLe_total (a b : CoverEvent) : (eventLe a b || eventLe b a) = true := by
  simp only [eventLe, Bool.or_eq_true, decide_eq_true_eq]
  omega

theorem mem_coverEvents {event : CoverEvent} : event ∈ coverEvents lists ↔
    ∃ list, lists[event.2]? = some list ∧ ∃ p ∈ list.positions, positionStart p = event.1 := by
  rw [coverEvents, mem_mergeSort, mem_flatMap]
  constructor
  · rintro ⟨⟨list, word⟩, hentry, hevent⟩
    obtain ⟨p, hp, rfl⟩ := mem_map.mp hevent
    exact ⟨list, mk_mem_zipIdx_iff_getElem?.mp hentry, p, hp, rfl⟩
  · rintro ⟨list, hlist, p, hp, hstart⟩
    refine ⟨(list, event.2), mk_mem_zipIdx_iff_getElem?.mpr hlist, mem_map.mpr ⟨p, hp, ?_⟩⟩
    rw [hstart]

theorem count_words (lists : List StoredPositions) (k word : ℕ) :
    (((lists.zipIdx k).flatMap fun entry => entry.1.positions.map fun position =>
      (positionStart position, entry.2)).map Prod.snd).count word < 2 ^ 32 := by
  induction lists generalizing k with
  | nil => simp
  | cons list lists ih =>
    rw [zipIdx_cons, flatMap_cons, map_append, count_append, map_map]
    have hsame : (list.positions.map (Prod.snd ∘ fun position => (positionStart position, k))).count word =
        if k = word then list.positions.length else 0 := by
      rw [show (Prod.snd ∘ fun position => (positionStart position, k)) = fun _ : ℕ => k from rfl,
        map_const', count_replicate]
      simp
    by_cases hk : k = word
    · -- the other lists are of later words
      have hlater : (((lists.zipIdx (k + 1)).flatMap fun entry => entry.1.positions.map fun position =>
          (positionStart position, entry.2)).map Prod.snd).count word = 0 := by
        rw [count_eq_zero, mem_map]
        rintro ⟨event, hevent, rfl⟩
        obtain ⟨entry, hentry, hmem⟩ := mem_flatMap.mp hevent
        obtain ⟨p, -, rfl⟩ := mem_map.mp hmem
        have hle := (mem_zipIdx hentry).1
        have heq : k = entry.2 := hk
        omega
      rw [hsame, if_pos hk, hlater, Nat.add_zero]
      exact list.counted
    · rw [hsame, if_neg hk, Nat.zero_add]
      exact ih (k + 1)

theorem positionStart_lt {p : ℕ} (h : p < 2 ^ 32) : positionStart p < 2 ^ 28 := by
  rw [positionStart, spanBits, Nat.shiftRight_eq_div_pow]
  omega

theorem coverEvents_ok (lists : List StoredPositions) : EventsOk (coverEvents lists) lists.length where
  sorted i j a b hij ha hb := by
    have hsorted := pairwise_mergeSort eventLe_trans eventLe_total
      (lists.zipIdx.flatMap fun entry => entry.1.positions.map fun position => (positionStart position, entry.2))
    rcases Nat.lt_or_eq_of_le hij with hlt | rfl
    · obtain ⟨hi, rfl⟩ := List.getElem?_eq_some_iff.mp ha
      obtain ⟨hj, rfl⟩ := List.getElem?_eq_some_iff.mp hb
      have hle := pairwise_iff_getElem.mp hsorted i j hi hj hlt
      simp only [eventLe, decide_eq_true_eq] at hle
      have hle' : (coverEvents lists)[i].1 < (coverEvents lists)[j].1 ∨
          ((coverEvents lists)[i].1 = (coverEvents lists)[j].1 ∧
            (coverEvents lists)[i].2 ≤ (coverEvents lists)[j].2) := hle
      omega
    · rw [ha] at hb
      rw [Option.some_inj.mp hb]
  words event hevent := by
    obtain ⟨list, hlist, -⟩ := mem_coverEvents.mp hevent
    exact (List.getElem?_eq_some_iff.mp hlist).1
  starts event hevent := by
    obtain ⟨list, -, p, hp, hstart⟩ := mem_coverEvents.mp hevent
    have := positionStart_lt (list.fits p hp)
    omega
  counted word := by
    rw [coverEvents, ((mergeSort_perm _ eventLe).map Prod.snd).count_eq word]
    exact count_words lists 0 word

end Lists

/-! ### The least span -/

def Chosen (lists : List StoredPositions) (chosen : List ℕ) : Prop :=
  Forall₂ (fun p list => p ∈ list.positions) chosen lists

def chosenSpan (chosen : List ℕ) : ℕ :=
  ((chosen.map positionStart).max?).getD 0 - ((chosen.map positionStart).min?).getD 0 + 1

theorem chosenSpan_le {chosen : List ℕ} {lo hi : ℕ} (hne : chosen ≠ [])
    (h : ∀ p ∈ chosen, lo ≤ positionStart p ∧ positionStart p ≤ hi) : chosenSpan chosen ≤ hi - lo + 1 := by
  obtain ⟨p, hp⟩ := exists_mem_of_ne_nil _ hne
  have hmax : ((chosen.map positionStart).max?).getD 0 ≤ hi := by
    cases hm : (chosen.map positionStart).max? with
    | none => exact Nat.zero_le hi
    | some m =>
      obtain ⟨q, hq, rfl⟩ := mem_map.mp (max?_mem hm)
      exact (h q hq).2
  have hmin : lo ≤ ((chosen.map positionStart).min?).getD 0 := by
    cases hm : (chosen.map positionStart).min? with
    | none =>
      rw [min?_eq_none_iff, map_eq_nil_iff] at hm
      exact absurd hm hne
    | some m =>
      obtain ⟨q, hq, rfl⟩ := mem_map.mp (min?_mem hm)
      exact (h q hq).1
  rw [chosenSpan]
  omega

theorem le_chosenSpan {chosen : List ℕ} {p q : ℕ} (hp : p ∈ chosen) (hq : q ∈ chosen) :
    positionStart q + 1 ≤ chosenSpan chosen + positionStart p := by
  have hmax : positionStart q ≤ ((chosen.map positionStart).max?).getD 0 := by
    cases hm : (chosen.map positionStart).max? with
    | none =>
      rw [max?_eq_none_iff, map_eq_nil_iff] at hm
      rw [hm] at hq
      cases hq
    | some m => exact (max?_eq_some_iff.mp hm).2 _ (mem_map_of_mem hq)
  have hmin : ((chosen.map positionStart).min?).getD 0 ≤ positionStart p := by
    cases hm : (chosen.map positionStart).min? with
    | none =>
      rw [min?_eq_none_iff, map_eq_nil_iff] at hm
      rw [hm] at hp
      cases hp
    | some m => exact (min?_eq_some_iff.mp hm).2 _ (mem_map_of_mem hp)
  rw [chosenSpan]
  omega

section Least

variable {lists : List StoredPositions}

theorem exists_chosen {P : ℕ → Prop} (h : ∀ list ∈ lists, ∃ p ∈ list.positions, P p) :
    ∃ chosen, Chosen lists chosen ∧ ∀ p ∈ chosen, P p := by
  induction lists with
  | nil => exact ⟨[], .nil, fun p hp => by cases hp⟩
  | cons list lists ih =>
    obtain ⟨p, hp, hP⟩ := h list mem_cons_self
    obtain ⟨chosen, hchosen, hall⟩ := ih fun list hlist => h list (mem_cons_of_mem _ hlist)
    exact ⟨p :: chosen, .cons hp hchosen, forall_mem_cons.mpr ⟨hP, hall⟩⟩

theorem window_of_chosen {chosen : List ℕ} (hne : lists ≠ []) (h : Chosen lists chosen) :
    ∃ l r first last, l ≤ r ∧ r < (coverEvents lists).length ∧ (coverEvents lists)[l]? = some first ∧
      (coverEvents lists)[r]? = some last ∧ Covers (coverEvents lists) lists.length l (r + 1) ∧
      last.1 + 1 ≤ chosenSpan chosen + first.1 := by
  -- where the chosen position of each word stands among the events
  have hplace : ∀ word : ℕ, ∃ i : ℕ, word < lists.length → ∃ p ∈ chosen,
      (coverEvents lists)[i]? = some (positionStart p, word) := by
    intro word
    by_cases hword : word < lists.length
    · have hword' : word < chosen.length := by rw [h.length_eq]; exact hword
      have hmem : chosen[word] ∈ lists[word].positions := h.get hword' hword
      have hevent : (positionStart chosen[word], word) ∈ coverEvents lists :=
        mem_coverEvents.mpr ⟨lists[word], getElem?_eq_getElem hword, chosen[word], hmem, rfl⟩
      obtain ⟨i, hi⟩ := mem_iff_getElem?.mp hevent
      exact ⟨i, fun _ => ⟨chosen[word], getElem_mem hword', hi⟩⟩
    · exact ⟨0, fun hword' => absurd hword' hword⟩
  choose place hplace using hplace
  have hsome : (Finset.range lists.length).Nonempty :=
    ⟨0, Finset.mem_range.mpr (length_pos_iff.mpr hne)⟩
  obtain ⟨leftmost, hleft, hmin⟩ := Finset.exists_min_image _ place hsome
  obtain ⟨rightmost, hright, hmax⟩ := Finset.exists_max_image _ place hsome
  obtain ⟨p, hp, hfirst⟩ := hplace leftmost (Finset.mem_range.mp hleft)
  obtain ⟨q, hq, hlast⟩ := hplace rightmost (Finset.mem_range.mp hright)
  refine ⟨place leftmost, place rightmost, _, _, hmin rightmost hright,
    (List.getElem?_eq_some_iff.mp hlast).1, hfirst, hlast, fun word hword => ?_, le_chosenSpan hp hq⟩
  obtain ⟨_, -, hget⟩ := hplace word hword
  have hword' := Finset.mem_range.mpr hword
  exact mem_wordsBetween.mpr ⟨place word, _, hmin word hword', Nat.lt_succ_of_le (hmax word hword'), hget, rfl⟩

theorem chosen_of_window {l r : ℕ} {first last : CoverEvent} (hne : lists ≠ [])
    (hfirst : (coverEvents lists)[l]? = some first) (hlast : (coverEvents lists)[r]? = some last)
    (hcovers : Covers (coverEvents lists) lists.length l (r + 1)) :
    ∃ chosen, Chosen lists chosen ∧ chosenSpan chosen ≤ last.1 - first.1 + 1 := by
  have hok := coverEvents_ok lists
  obtain ⟨chosen, hchosen, hall⟩ := exists_chosen
    (P := fun p => first.1 ≤ positionStart p ∧ positionStart p ≤ last.1) fun list (hlist : list ∈ lists) => by
      obtain ⟨word, hword, rfl⟩ := mem_iff_getElem.mp hlist
      obtain ⟨i, event, hle, hlt, hget, hevent⟩ := mem_wordsBetween.mp (hcovers word hword)
      obtain ⟨list, hlist', p, hp, hstart⟩ := mem_coverEvents.mp (mem_of_getElem? hget)
      rw [hevent, getElem?_eq_getElem hword] at hlist'
      refine ⟨p, Option.some_inj.mp hlist' ▸ hp, ?_⟩
      rw [hstart]
      exact ⟨hok.sorted l i first event hle hfirst hget,
        hok.sorted i r event last (Nat.lt_succ_iff.mp hlt) hget hlast⟩
  have hnonempty : chosen ≠ [] := by
    rintro rfl
    cases hchosen
    exact hne rfl
  exact ⟨chosen, hchosen, chosenSpan_le hnonempty hall⟩

end Least

/-- **Proximity uses the smallest window.**  For words that all have positions, the two
loops end without an index that is out of bounds and without a number that does not fit,
and the span they give is the least over all choices of one position of every word. -/
theorem minCoverSpan_least (lists : List StoredPositions) (hne : lists ≠ [])
    (hall : ∀ list ∈ lists, list.positions ≠ []) :
    ∃ span, minCoverSpan lists = .ok (some span) ∧
      IsLeast {span | ∃ chosen, Chosen lists chosen ∧ span = chosenSpan chosen} span := by
  have hok := coverEvents_ok lists
  obtain ⟨s, hs, hslid⟩ := slid_all hok (length_pos_iff.mpr hne) le_rfl
  have hlower : ∀ chosen, Chosen lists chosen → ∃ b, s.best = some b ∧ b ≤ chosenSpan chosen := by
    intro chosen hchosen
    obtain ⟨l, r, first, last, hle, hlt, hfirst, hlast, hcovers, hspan⟩ := window_of_chosen hne hchosen
    obtain ⟨b, hb, hble⟩ := hslid.least l r first last hle hlt hfirst hlast hcovers
    exact ⟨b, hb, by omega⟩
  obtain ⟨chosen, hchosen, -⟩ := exists_chosen (P := fun _ => True) fun list hlist => by
    obtain ⟨p, hp⟩ := exists_mem_of_ne_nil _ (hall list hlist)
    exact ⟨p, hp, trivial⟩
  obtain ⟨span, hspan, -⟩ := hlower chosen hchosen
  refine ⟨span, ?_, ?_, ?_⟩
  · have hsome : ¬ (lists = [] ∨ ∃ list ∈ lists, list.positions = []) := by
      rintro (hnil | ⟨list, hlist, hnil⟩)
      · exact hne hnil
      · exact hall list hlist hnil
    rw [minCoverSpan, if_neg hsome]
    simp only [hs, ok_bind, pure_eq, hspan]
  · -- the window that was found holds a choice, which is not narrower
    obtain ⟨l, r, first, last, hle, -, hfirst, hlast, hcovers, hsum⟩ := hslid.found span hspan
    obtain ⟨chosen, hchosen, hwithin⟩ := chosen_of_window hne hfirst hlast hcovers
    obtain ⟨b, hb, hble⟩ := hlower chosen hchosen
    rw [hspan] at hb
    obtain rfl := Option.some_inj.mp hb
    have hsorted := hok.sorted l r first last hle hfirst hlast
    exact ⟨chosen, hchosen, by omega⟩
  · rintro _ ⟨chosen, hchosen, rfl⟩
    obtain ⟨b, hb, hble⟩ := hlower chosen hchosen
    rw [hspan] at hb
    rw [Option.some_inj.mp hb]
    exact hble

def twoWords : List StoredPositions := [⟨[0, 80], by decide, by decide⟩, ⟨[96], by decide, by decide⟩]

theorem minCoverSpan_twoWords : ∃ span, minCoverSpan twoWords = .ok (some span) ∧
    IsLeast {span | ∃ chosen, Chosen twoWords chosen ∧ span = chosenSpan chosen} span := by
  refine minCoverSpan_least twoWords (cons_ne_nil _ _) fun list hlist => ?_
  simp only [twoWords, mem_cons, not_mem_nil, or_false] at hlist
  rcases hlist with rfl | rfl
  · exact cons_ne_nil _ _
  · exact cons_ne_nil _ _

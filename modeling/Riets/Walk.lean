/-
Walking ascending lists of documents.

A cursor stands on an entry of an ascending list and only moves forwards; what
it has left is the list of its entries.
-/
import Riets.TopK
import Mathlib.Algebra.BigOperators.Group.List.Basic
import Mathlib.Algebra.Order.BigOperators.Group.List
import Mathlib.Algebra.Order.Group.Nat
import Mathlib.Data.Finset.Defs
import Mathlib.Data.Multiset.Filter

open Keyed

namespace Loop

variable {σ ρ : Type*}

/-- Takes turns until one of them returns; `none` when `n` turns are not enough. -/
def run (turn : σ → σ ⊕ ρ) : ℕ → σ → Option ρ
  | 0, _ => none
  | n + 1, s =>
    match turn s with
    | .inl s' => run turn n s'
    | .inr r => some r

theorem run_spec {turn : σ → σ ⊕ ρ} {inv : σ → Prop} {post : ρ → Prop} {size : σ → ℕ}
    (hturn : ∀ s s', inv s → turn s = .inl s' → inv s' ∧ size s' < size s)
    (hreturn : ∀ s r, inv s → turn s = .inr r → post r) {n : ℕ} {s : σ} (hs : inv s)
    (hn : size s < n) : ∃ r, run turn n s = some r ∧ post r := by
  induction n generalizing s with
  | zero => omega
  | succ n ih =>
    rw [run]
    cases h : turn s with
    | inl s' =>
      obtain ⟨hs', hlt⟩ := hturn s s' hs h
      exact ih hs' (by omega)
    | inr r => exact ⟨r, rfl, hreturn s r hs h⟩

end Loop

namespace Keyed

open List Option

variable {D V : Type*} [LinearOrder D]

/-! ### Common entries -/

def value (d : D) (l : List (D × V)) : Option V := (find Prod.fst d l).map Prod.snd

/-- The entries whose key is in all lists, each with its values in the order of the lists. -/
def meetAll : List (List (D × V)) → List (D × List V)
  | [] => []
  | l :: ls => l.filterMap fun e => (ls.mapM (value e.1)).map fun vs => (e.1, e.2 :: vs)

theorem find_eq_value (d : D) (l : List (D × V)) :
    find Prod.fst d l = (value d l).map fun v => (d, v) := by
  rw [value]
  cases h : find Prod.fst d l with
  | none => rfl
  | some e =>
    have hkey : e.1 = d := find_key h
    rw [← hkey]
    rfl

theorem value_cons (d : D) (e : D × V) (l : List (D × V)) :
    value d (e :: l) = if e.1 = d then some e.2 else value d l := by
  rw [value, find_cons]
  split_ifs <;> rfl

variable {l : List (D × V)}

theorem mem_of_value {d : D} {v : V} (h : value d l = some v) : (d, v) ∈ l := by
  have hfind := find_eq_value d l
  rw [h] at hfind
  exact find_mem hfind

theorem value_of_mem (hl : Ascending Prod.fst l) {e : D × V} (he : e ∈ l) :
    value e.1 l = some e.2 := by
  rw [value, (mem_iff_find hl).mp he]
  rfl

theorem value_filter (hl : Ascending Prod.fst l) (p : D → Bool) (d : D) :
    value d (l.filter fun e => p e.1) = if p d then value d l else none := by
  by_cases hp : p d = true
  · rw [if_pos hp]
    cases h : value d l with
    | none =>
      rw [value, map_eq_none_iff, find_eq_none] at h ⊢
      exact fun e he => h e (mem_of_mem_filter he)
    | some v =>
      have hmem : (d, v) ∈ l.filter fun e => p e.1 := mem_filter.mpr ⟨mem_of_value h, hp⟩
      exact value_of_mem (ascending_filter hl _) hmem
  · rw [if_neg hp, value, map_eq_none_iff, find_eq_none]
    intro e he heq
    exact hp (heq ▸ (mem_filter.mp he).2)

theorem ext_value {l' : List (D × V)} (hl : Ascending Prod.fst l) (hl' : Ascending Prod.fst l')
    (h : ∀ d, value d l = value d l') : l = l' :=
  ext_find hl hl' fun d => by rw [find_eq_value, find_eq_value, h d]

variable {ls : List (List (D × V))}

theorem ascending_meetAll (h : ∀ l ∈ ls, Ascending Prod.fst l) :
    Ascending Prod.fst (meetAll ls) := by
  cases ls with
  | nil => exact Pairwise.nil
  | cons l ls =>
    refine ascending_filterMap (fun e e' he => ?_) (h l mem_cons_self)
    obtain ⟨vs, -, rfl⟩ := map_eq_some_iff.mp he
    rfl

theorem value_meetAll (h : ∀ l ∈ ls, Ascending Prod.fst l) (hne : ls ≠ [])
    (d : D) : value d (meetAll ls) = ls.mapM (value d) := by
  cases ls with
  | nil => exact absurd rfl hne
  | cons l ls =>
    have hkey : ∀ (e : D × V) (e' : D × List V),
        ((ls.mapM (value e.1)).map fun vs => (e.1, e.2 :: vs)) = some e' → e'.1 = e.1 := by
      intro e e' he
      obtain ⟨vs, -, rfl⟩ := map_eq_some_iff.mp he
      rfl
    have hl : Ascending Prod.fst l := h l mem_cons_self
    rw [meetAll, value, find_filterMap hkey hl, find_eq_value, mapM_cons]
    cases value d l with
    | none => rfl
    | some v =>
      change Option.map Prod.snd (Option.map (fun vs => (d, v :: vs)) (ls.mapM (value d))) = _
      cases ls.mapM (value d) <;> rfl

theorem mapM_value_eq_none {d : D} :
    ls.mapM (value d) = none ↔ ∃ l ∈ ls, value d l = none := by
  induction ls with
  | nil => simp
  | cons l ls ih =>
    rw [mapM_cons]
    cases h : value d l with
    | none => simp [h]
    | some v =>
      have hcons : (do let vs ← ls.mapM (value d); pure (v :: vs)) = none ↔ ls.mapM (value d) = none := by
        cases ls.mapM (value d) <;> simp
      simpa [h] using hcons.trans ih

theorem filter_ne_eq (hl : Ascending Prod.fst l) {d : D} (hle : ∀ e ∈ l, d ≤ e.1) :
    l.filter (fun e => e.1 ≠ d) = if l.head?.map Prod.fst = some d then l.tail else l := by
  cases l with
  | nil => rfl
  | cons e l =>
    simp only [head?_cons, map_some, some_inj, tail_cons]
    have htail : ∀ e' ∈ l, e'.1 ≠ d := fun e' he' heq =>
      absurd (hl.head_lt he') (not_lt.mpr (heq ▸ hle e mem_cons_self))
    split_ifs with hd
    · rw [filter_cons_of_neg (by simpa using hd)]
      exact filter_eq_self.mpr fun e' he' => decide_eq_true (htail e' he')
    · refine filter_eq_self.mpr fun e' he' => decide_eq_true ?_
      rcases mem_cons.mp he' with rfl | he'
      · exact hd
      · exact htail e' he'

theorem value_of_meetAll (h : ∀ l ∈ ls, Ascending Prod.fst l) {e : D × List V}
    (he : e ∈ meetAll ls) (hl : l ∈ ls) : ∃ v, (e.1, v) ∈ l := by
  have hvalue := value_of_mem (ascending_meetAll h) he
  rw [value_meetAll h (ne_nil_of_mem hl)] at hvalue
  cases hd : value e.1 l with
  | none =>
    rw [mapM_value_eq_none.mpr ⟨l, hl, hd⟩] at hvalue
    exact absurd hvalue (by simp)
  | some v => exact ⟨v, mem_of_value hd⟩

theorem meetAll_filter_head (p : D → Bool) (l : List (D × V)) (ls : List (List (D × V))) :
    meetAll ((l.filter fun e => p e.1) :: ls) = (meetAll (l :: ls)).filter fun e => p e.1 := by
  rw [meetAll, meetAll, filterMap_filter, filter_filterMap]
  congr 1
  funext e
  by_cases hp : p e.1 = true
  · cases ls.mapM (value e.1) <;> simp [hp, filter_some]
  · cases ls.mapM (value e.1) <;> simp [hp, filter_some]

theorem mapM_value_map_filter (h : ∀ l ∈ ls, Ascending Prod.fst l)
    (p : D → Bool) {d : D} (hp : p d = true) :
    (ls.map fun l => l.filter fun e => p e.1).mapM (value d) = ls.mapM (value d) := by
  induction ls with
  | nil => rfl
  | cons l ls ih =>
    rw [map_cons, mapM_cons, mapM_cons, value_filter (h l mem_cons_self), if_pos hp,
      ih fun l' hl' => h l' (mem_cons_of_mem l hl')]

theorem meetAll_map_filter (h : ∀ l ∈ ls, Ascending Prod.fst l)
    (p : D → Bool) :
    meetAll (ls.map fun l => l.filter fun e => p e.1) = (meetAll ls).filter fun e => p e.1 := by
  rcases ls with _ | ⟨l, ls⟩
  · rfl
  · rw [← meetAll_filter_head, map_cons, meetAll, meetAll]
    refine filterMap_congr fun e he => ?_
    rw [mapM_value_map_filter (fun l' hl' => h l' (mem_cons_of_mem l hl')) p (mem_filter.mp he).2]

end Keyed

def Finset.ascending {D : Type*} [LinearOrder D] (s : Finset D) : List D :=
  Quot.liftOn s.val (sortBy id) fun l l' h => by
    have hperm : (sortBy id l).Perm (sortBy id l') :=
      (perm_sortBy l).trans (h.trans (perm_sortBy l').symm)
    exact hperm.eq_of_pairwise (fun _ _ _ _ => le_antisymm) (sorted_sortBy l) (sorted_sortBy l')

theorem Finset.mem_ascending {D : Type*} [LinearOrder D] {s : Finset D} {d : D} :
    d ∈ s.ascending ↔ d ∈ s := by
  obtain ⟨m, hm⟩ := s
  induction m using Quot.inductionOn with
  | h l => exact (perm_sortBy l).mem_iff

theorem Finset.pairwise_ascending {D : Type*} [LinearOrder D] (s : Finset D) :
    s.ascending.Pairwise (· < ·) := by
  obtain ⟨m, hm⟩ := s
  induction m using Quot.inductionOn with
  | h l =>
    have hsorted : (sortBy id l).Pairwise (· ≤ ·) := sorted_sortBy l
    have hnodup : (sortBy id l).Nodup := (perm_sortBy l).nodup_iff.mpr hm
    exact (hsorted.and hnodup).imp fun h => lt_of_le_of_ne h.1 h.2

/-- What moves a cursor over documents: the document it is on, a bound on the documents it has
left, and the move to the first document that is not before a given one. -/
structure Walker (C D : Type*) where
  doc : C → Option D
  left : C → ℕ
  advanceTo : C → D → C

namespace Walker

open List Keyed

variable {C D V : Type*} [LinearOrder D]

/-- The cursors that are `ok` stand on the first of their entries; advancing leaves the entries
from the target on. -/
structure Lawful (w : Walker C D) (ok : C → Prop) (entries : C → List (D × V)) : Prop where
  ascending : ∀ c, ok c → Ascending Prod.fst (entries c)
  doc_eq : ∀ c, ok c → w.doc c = (entries c).head?.map Prod.fst
  length_le : ∀ c, ok c → (entries c).length ≤ w.left c
  ok_advanceTo : ∀ c t, ok c → ok (w.advanceTo c t)
  entries_advanceTo : ∀ c t, ok c → entries (w.advanceTo c t) = (entries c).filter fun e => t ≤ e.1

/-! ### Leaping to the first common document -/

/-- The greatest document a cursor is on, `none` when one of them has none left. -/
def farthest (w : Walker C D) (cs : List C) : Option D :=
  if cs.any fun c => (w.doc c).isNone then none else (cs.filterMap w.doc).max?

/-- Moves every cursor up to the greatest document one of them is on. -/
def leapTurn (w : Walker C D) (cs : List C) : List C ⊕ Option D × List C :=
  match w.farthest cs with
  | none => .inr (none, cs)
  | some target =>
    let cs := cs.map fun c => w.advanceTo c target
    if cs.all fun c => w.doc c = some target then .inr (some target, cs) else .inl cs

/-- Moves the cursors to the first document all of them have, or until one has none left. -/
def leapRun (w : Walker C D) (cs : List C) : Option (Option D × List C) :=
  Loop.run w.leapTurn ((cs.map w.left).sum + 1) cs

def leap (w : Walker C D) (cs : List C) : Option D × List C := (w.leapRun cs).getD (none, cs)

theorem farthest_eq_none {w : Walker C D} {cs : List C} (hne : cs ≠ []) (h : w.farthest cs = none) :
    ∃ c ∈ cs, w.doc c = none := by
  rw [farthest] at h
  split_ifs at h with hany
  · obtain ⟨c, hc, hnone⟩ := any_eq_true.mp hany
    exact ⟨c, hc, Option.isNone_iff_eq_none.mp hnone⟩
  · obtain ⟨c, cs, rfl⟩ := exists_cons_of_ne_nil hne
    have hnil := max?_eq_none_iff.mp h
    exact ⟨c, mem_cons_self, filterMap_eq_nil_iff.mp hnil c mem_cons_self⟩

theorem farthest_eq_some {w : Walker C D} {cs : List C} {t : D} (h : w.farthest cs = some t) :
    (∃ c ∈ cs, w.doc c = some t) ∧ ∀ c ∈ cs, ∃ d, w.doc c = some d ∧ d ≤ t := by
  rw [farthest] at h
  split_ifs at h with hany
  obtain ⟨hmem, hle⟩ := max?_eq_some_iff.mp h
  refine ⟨mem_filterMap.mp hmem, fun c hc => ?_⟩
  cases hd : w.doc c with
  | none => exact absurd (any_eq_true.mpr ⟨c, hc, by simp [hd]⟩) hany
  | some d => exact ⟨d, rfl, hle d (mem_filterMap.mpr ⟨c, hc, hd⟩)⟩

section Leap

variable {w : Walker C D} {ok : C → Prop} {entries : C → List (D × V)}

theorem Lawful.entries_eq_nil (hw : w.Lawful ok entries) {c : C} (hc : ok c) :
    entries c = [] ↔ w.doc c = none := by
  rw [hw.doc_eq c hc, Option.map_eq_none_iff, head?_eq_none_iff]

theorem Lawful.le_of_mem (hw : w.Lawful ok entries) {c : C} (hc : ok c) {d : D} (hd : w.doc c = some d)
    {e : D × V} (he : e ∈ entries c) : d ≤ e.1 := by
  have hasc := hw.ascending c hc
  rw [hw.doc_eq c hc] at hd
  cases hl : entries c with
  | nil => simp [hl] at hd
  | cons e' l =>
    rw [hl, head?_cons, Option.map_some, Option.some_inj] at hd
    rw [hl] at he hasc
    rcases mem_cons.mp he with rfl | he
    · exact hd.ge
    · exact hd ▸ (hasc.head_lt he).le

variable {cs : List C}

section

variable (hw : w.Lawful ok entries)
include hw

theorem Lawful.ascending_of_mem (hok : ∀ c ∈ cs, ok c) :
    ∀ l ∈ cs.map entries, Ascending Prod.fst l := by
  intro l hl
  obtain ⟨c, hc, rfl⟩ := mem_map.mp hl
  exact hw.ascending c (hok c hc)

theorem Lawful.meetAll_advanceTo (hok : ∀ c ∈ cs, ok c) {t : D}
    (ht : ∃ c ∈ cs, w.doc c = some t) :
    meetAll ((cs.map fun c => w.advanceTo c t).map entries) = meetAll (cs.map entries) := by
  have hasc := hw.ascending_of_mem hok
  have hmoved : (cs.map fun c => w.advanceTo c t).map entries =
      (cs.map entries).map fun l => l.filter fun e => decide (t ≤ e.1) := by
    rw [map_map, map_map]
    exact map_congr_left fun c hc => hw.entries_advanceTo c t (hok c hc)
  rw [hmoved, meetAll_map_filter hasc fun d => decide (t ≤ d), filter_eq_self]
  intro e he
  -- the cursor on the target has no document before it
  obtain ⟨c, hc, hdoc⟩ := ht
  obtain ⟨v, hv⟩ := value_of_meetAll hasc he (mem_map.mpr ⟨c, hc, rfl⟩)
  exact decide_eq_true (hw.le_of_mem (hok c hc) hdoc hv)

theorem Lawful.head?_meetAll (hne : cs ≠ [])
    (hok : ∀ c ∈ cs, ok c) {t : D} (hall : ∀ c ∈ cs, w.doc c = some t) :
    (meetAll (cs.map entries)).head?.map Prod.fst = some t := by
  have hasc := hw.ascending_of_mem hok
  have hhas : ∀ c ∈ cs, value t (entries c) ≠ none := by
    intro c hc hnone
    have hdoc := hall c hc
    rw [hw.doc_eq c (hok c hc)] at hdoc
    obtain ⟨e, he, rfl⟩ := Option.map_eq_some_iff.mp hdoc
    rw [value_of_mem (hw.ascending c (hok c hc)) (mem_of_head? he)] at hnone
    exact absurd hnone (by simp)
  have hcommon : (cs.map entries).mapM (value t) ≠ none := by
    intro hnone
    obtain ⟨l, hl, hvalue⟩ := mapM_value_eq_none.mp hnone
    obtain ⟨c, hc, rfl⟩ := mem_map.mp hl
    exact hhas c hc hvalue
  rw [← value_meetAll hasc (by simpa using hne)] at hcommon
  obtain ⟨vs, hvs⟩ := Option.ne_none_iff_exists'.mp hcommon
  have hmem := mem_of_value hvs
  cases hm : meetAll (cs.map entries) with
  | nil => rw [hm] at hmem; exact absurd hmem (by simp)
  | cons e l =>
    -- no common document is before the one all cursors are on
    obtain ⟨c, cs', rfl⟩ := exists_cons_of_ne_nil hne
    have he : e ∈ meetAll ((c :: cs').map entries) := by rw [hm]; exact mem_cons_self
    obtain ⟨v, hv⟩ := value_of_meetAll hasc he mem_cons_self
    have hle : t ≤ e.1 := hw.le_of_mem (hok c mem_cons_self) (hall c mem_cons_self) hv
    have hge : e.1 ≤ t := by
      have hsorted := ascending_meetAll hasc
      rw [hm] at hmem hsorted
      rcases mem_cons.mp hmem with rfl | hmem
      · exact le_rfl
      · exact (hsorted.head_lt hmem).le
    rw [head?_cons, Option.map_some, le_antisymm hge hle]

theorem Lawful.length_advanceTo_le {c : C} (hc : ok c) (t : D) :
    (entries (w.advanceTo c t)).length ≤ (entries c).length := by
  rw [hw.entries_advanceTo c t hc]
  exact length_filter_le _ _

theorem Lawful.length_advanceTo_lt {c : C} (hc : ok c) {d t : D}
    (hd : w.doc c = some d) (hlt : d < t) : (entries (w.advanceTo c t)).length < (entries c).length := by
  rw [hw.doc_eq c hc] at hd
  obtain ⟨e, he, rfl⟩ := Option.map_eq_some_iff.mp hd
  rw [hw.entries_advanceTo c t hc]
  exact length_filter_lt_length_iff_exists.mpr
    ⟨e, mem_of_head? he, by simpa using hlt⟩

theorem Lawful.leapTurn_lt {cs' : List C} (hok : ∀ c ∈ cs, ok c)
    (h : w.leapTurn cs = .inl cs') :
    ((cs'.map fun c => (entries c).length)).sum < (cs.map fun c => (entries c).length).sum := by
  rw [leapTurn] at h
  cases ht : w.farthest cs with
  | none => simp [ht] at h
  | some t =>
    simp only [ht] at h
    split_ifs at h with hall
    obtain rfl := Sum.inl.inj h
    rw [map_map]
    obtain ⟨c, hc, hdoc⟩ : ∃ c ∈ cs, w.doc (w.advanceTo c t) ≠ some t := by
      by_contra hcon
      push Not at hcon
      refine hall (all_eq_true.mpr fun c' hc' => ?_)
      obtain ⟨c, hc, rfl⟩ := mem_map.mp hc'
      exact decide_eq_true (hcon c hc)
    obtain ⟨d, hd, hle⟩ := (farthest_eq_some ht).2 c hc
    have hlt : d < t := by
      refine lt_of_le_of_ne hle fun heq => hdoc ?_
      -- a cursor that is on the target already stays there
      subst heq
      rw [hw.doc_eq _ (hw.ok_advanceTo c d (hok c hc)), hw.entries_advanceTo c d (hok c hc),
        filter_eq_self.mpr fun e he => decide_eq_true (hw.le_of_mem (hok c hc) hd he),
        ← hw.doc_eq c (hok c hc), hd]
    refine sum_lt_sum _ _ (fun c hc => ?_) ⟨c, hc, ?_⟩
    · exact hw.length_advanceTo_le (hok c hc) t
    · exact hw.length_advanceTo_lt (hok c hc) hd hlt

theorem Lawful.leapRun_spec (hne : cs ≠ [])
    (hok : ∀ c ∈ cs, ok c) :
    ∃ r, w.leapRun cs = some r ∧ r.1 = (meetAll (cs.map entries)).head?.map Prod.fst ∧
      (∀ c ∈ r.2, ok c) ∧ r.2.length = cs.length ∧
      meetAll (r.2.map entries) = meetAll (cs.map entries) ∧
      ∀ t, r.1 = some t → ∀ c ∈ r.2, w.doc c = some t := by
  let inv : List C → Prop := fun cs' => (∀ c ∈ cs', ok c) ∧ cs'.length = cs.length ∧
    meetAll (cs'.map entries) = meetAll (cs.map entries)
  let post : Option D × List C → Prop := fun r =>
    r.1 = (meetAll (cs.map entries)).head?.map Prod.fst ∧ inv r.2 ∧
      ∀ t, r.1 = some t → ∀ c ∈ r.2, w.doc c = some t
  have hmoved : ∀ cs' t, inv cs' → w.farthest cs' = some t → inv (cs'.map fun c => w.advanceTo c t) := by
    intro cs' t hinv ht
    refine ⟨fun c hc => ?_, by rw [length_map, hinv.2.1], ?_⟩
    · obtain ⟨c', hc', rfl⟩ := mem_map.mp hc
      exact hw.ok_advanceTo c' t (hinv.1 c' hc')
    · rw [hw.meetAll_advanceTo hinv.1 (farthest_eq_some ht).1, hinv.2.2]
  have hne' : ∀ cs', inv cs' → cs' ≠ [] := by
    rintro _ hinv rfl
    exact hne (length_eq_zero_iff.mp hinv.2.1.symm)
  have hturn : ∀ cs' cs'', inv cs' → w.leapTurn cs' = .inl cs'' → inv cs'' ∧
      (cs''.map fun c => (entries c).length).sum < (cs'.map fun c => (entries c).length).sum := by
    intro cs' cs'' hinv h
    refine ⟨?_, hw.leapTurn_lt hinv.1 h⟩
    rw [leapTurn] at h
    cases ht : w.farthest cs' with
    | none => simp [ht] at h
    | some t =>
      simp only [ht] at h
      split_ifs at h with hall
      obtain rfl := Sum.inl.inj h
      exact hmoved cs' t hinv ht
  have hreturn : ∀ cs' r, inv cs' → w.leapTurn cs' = .inr r → post r := by
    intro cs' r hinv h
    rw [leapTurn] at h
    cases ht : w.farthest cs' with
    | none =>
      simp only [ht] at h
      obtain rfl := Sum.inr.inj h
      -- a cursor without documents leaves nothing in common
      obtain ⟨c, hc, hdoc⟩ := farthest_eq_none (hne' cs' hinv) ht
      have hnil : meetAll (cs'.map entries) = [] := by
        refine eq_nil_iff_forall_not_mem.mpr fun e he => ?_
        obtain ⟨v, hv⟩ := value_of_meetAll (hw.ascending_of_mem hinv.1) he
          (mem_map.mpr ⟨c, hc, rfl⟩)
        rw [(hw.entries_eq_nil (hinv.1 c hc)).mpr hdoc] at hv
        exact absurd hv (by simp)
      refine ⟨?_, hinv, by simp⟩
      rw [← hinv.2.2, hnil]
      rfl
    | some t =>
      simp only [ht] at h
      split_ifs at h with hall
      obtain rfl := Sum.inr.inj h
      have hinv' := hmoved cs' t hinv ht
      have hdocs : ∀ c ∈ cs'.map (fun c => w.advanceTo c t), w.doc c = some t := fun c hc =>
        of_decide_eq_true (all_eq_true.mp hall c hc)
      refine ⟨?_, hinv', fun t' ht' => ?_⟩
      · rw [← hinv'.2.2, hw.head?_meetAll (hne' _ hinv') hinv'.1 hdocs]
      · obtain rfl : t = t' := Option.some_inj.mp ht'
        exact hdocs
  have hfuel : (cs.map fun c => (entries c).length).sum < (cs.map w.left).sum + 1 := by
    have hle : (cs.map fun c => (entries c).length).sum ≤ (cs.map w.left).sum :=
      sum_le_sum fun c hc => hw.length_le c (hok c hc)
    omega
  obtain ⟨r, hr, hdoc, hinv, hat⟩ := Loop.run_spec hturn hreturn
    ⟨hok, rfl, rfl⟩ hfuel
  exact ⟨r, hr, hdoc, hinv.1, hinv.2.1, hinv.2.2, hat⟩

theorem Lawful.leap_spec (hne : cs ≠ [])
    (hok : ∀ c ∈ cs, ok c) :
    (w.leap cs).1 = (meetAll (cs.map entries)).head?.map Prod.fst ∧
      (∀ c ∈ (w.leap cs).2, ok c) ∧ (w.leap cs).2.length = cs.length ∧
      meetAll ((w.leap cs).2.map entries) = meetAll (cs.map entries) ∧
      ∀ t, (w.leap cs).1 = some t → ∀ c ∈ (w.leap cs).2, w.doc c = some t := by
  obtain ⟨r, hr, hspec⟩ := hw.leapRun_spec hne hok
  rw [leap, hr, Option.getD_some]
  exact hspec

end

end Leap

end Walker

/-- The documents that are gone (`now` holds nothing at them) were taken out whole, and the heap
holds the best of the wanted ones among them. -/
structure Sweep {D W H K : Type*} [LinearOrder K] (rank : H → K) (k : ℕ) (hit : D → Multiset W → H)
    (wanted : D → Multiset W → Prop) (init now : D → Multiset W) (heap : List H) : Prop where
  whole : ∀ d, now d = init d ∨ now d = 0
  best : TopK.Best rank k {h | ∃ d, now d = 0 ∧ wanted d (init d) ∧ h = hit d (init d)} heap

namespace Sweep

variable {D W H K : Type*} [LinearOrder K] {rank : H → K} {k : ℕ} {hit : D → Multiset W → H}
  {wanted : D → Multiset W → Prop} {init now now' : D → Multiset W} {heap : List H}

theorem start (hwanted : ∀ d, ¬ wanted d 0) : Sweep rank k hit wanted init init [] where
  whole := fun _ => .inl rfl
  best := by
    refine (TopK.Best.empty k).congr fun h => ?_
    simp only [Set.mem_empty_iff_false, Set.mem_ofPred_eq, false_iff, not_exists]
    rintro d ⟨hd, hw, -⟩
    exact hwanted d (hd ▸ hw)

section

variable (h : Sweep rank k hit wanted init now heap)
include h

theorem whole_of_ne_zero {d : D} (hd : now d ≠ 0) :
    now d = init d :=
  (h.whole d).resolve_right hd

theorem pass (hnow : ∀ d, now' d = now d ∨ now' d = 0)
    (hpass : ∀ d, now' d = 0 → now d ≠ 0 → wanted d (now d) →
      heap.length = k ∧ ∀ b ∈ heap, rank b < rank (hit d (now d))) :
    Sweep rank k hit wanted init now' heap where
  whole := by
    intro d
    rcases hnow d with heq | hzero
    · rw [heq]
      exact h.whole d
    · exact .inr hzero
  best := by
    have hlate := h.best.union (T := {a | ∃ d, (now' d = 0 ∧ now d ≠ 0) ∧ wanted d (init d) ∧
        a = hit d (init d)}) (by
      rintro _ ⟨d, ⟨hzero, hne⟩, hw, rfl⟩
      rw [← h.whole_of_ne_zero hne] at hw ⊢
      exact hpass d hzero hne hw)
    refine hlate.congr fun a => ?_
    simp only [Set.mem_union, Set.mem_ofPred_eq]
    constructor
    · rintro (⟨d, hzero, hw, rfl⟩ | ⟨d, ⟨hzero, -⟩, hw, rfl⟩)
      · refine ⟨d, ?_, hw, rfl⟩
        rcases hnow d with heq | hzero'
        · rw [heq, hzero]
        · exact hzero'
      · exact ⟨d, hzero, hw, rfl⟩
    · rintro ⟨d, hzero, hw, rfl⟩
      by_cases hne : now d = 0
      · exact .inl ⟨d, hne, hw, rfl⟩
      · exact .inr ⟨d, ⟨hzero, hne⟩, hw, rfl⟩

theorem visit (hk : 0 < k)
    (hrank : ∀ d d' m m', rank (hit d m) = rank (hit d' m') → d = d') {d : D} (hd : now d ≠ 0)
    (hzero : now' d = 0) (hsame : ∀ e, e ≠ d → now' e = now e) (hw : wanted d (now d)) :
    Sweep rank k hit wanted init now' (TopK.offer rank k heap (hit d (now d))) where
  whole := by
    intro e
    by_cases he : e = d
    · exact .inr (he ▸ hzero)
    · rw [hsame e he]
      exact h.whole e
  best := by
    have hfresh : ∀ a ∈ {a | ∃ d, now d = 0 ∧ wanted d (init d) ∧ a = hit d (init d)},
        rank a ≠ rank (hit d (now d)) := by
      rintro _ ⟨e, he, -, rfl⟩ heq
      exact hd (hrank e d _ _ heq ▸ he)
    refine (h.best.offer hk hfresh).congr fun a => ?_
    have hinit : now d = init d := h.whole_of_ne_zero hd
    simp only [Set.mem_insert_iff, Set.mem_ofPred_eq]
    constructor
    · rintro (rfl | ⟨e, he, hwe, rfl⟩)
      · exact ⟨d, hzero, hinit ▸ hw, by rw [hinit]⟩
      · have hne : e ≠ d := fun heq => hd (heq ▸ he)
        exact ⟨e, (hsame e hne).trans he, hwe, rfl⟩
    · rintro ⟨e, he, hwe, rfl⟩
      by_cases hed : e = d
      · exact .inl (by rw [hed, hinit])
      · exact .inr ⟨e, (hsame e hed).symm.trans he, hwe, rfl⟩

theorem drop {d : D} (hzero : now' d = 0)
    (hsame : ∀ e, e ≠ d → now' e = now e) (hw : ¬ wanted d (now d)) :
    Sweep rank k hit wanted init now' heap := by
  refine h.pass (fun e => ?_) fun e hzero' hne hwe => ?_
  · by_cases hed : e = d
    · exact .inr (hed ▸ hzero)
    · exact .inl (hsame e hed)
  · by_cases hed : e = d
    · exact absurd (hed ▸ hwe) hw
    · exact absurd ((hsame e hed).symm.trans hzero') hne

theorem sortBy_eq (hgone : ∀ d, now d = 0)
    (hrank : ∀ d d' m m', rank (hit d m) = rank (hit d' m') → d = d') {docs : List D}
    (hnodup : docs.Nodup) (hdocs : ∀ d, d ∈ docs ↔ wanted d (init d)) :
    sortBy rank heap = TopK.best rank k (docs.map fun d => hit d (init d)) := by
  refine (h.best.congr fun a => ?_).sortBy_eq ?_
  · simp only [Set.mem_ofPred_eq, List.mem_map]
    constructor
    · rintro ⟨d, -, hw, rfl⟩
      exact ⟨d, (hdocs d).mpr hw, rfl⟩
    · rintro ⟨d, hd, rfl⟩
      exact ⟨d, hgone d, (hdocs d).mp hd, rfl⟩
  · exact List.pairwise_map.mpr (hnodup.imp fun hne heq => hne (hrank _ _ _ _ heq))

end

end Sweep

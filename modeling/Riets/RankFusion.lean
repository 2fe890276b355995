/-
Fusing the word ranking with the vector ranking.

`fuseRrf` gives each document the sum of its reciprocal ranks in the two lists;
`fuseKeepingNamed` does this for the hits behind those the query names, which stay
on top.  Scores are exact rationals here.  The map of the fused hits is iterated in
any order: the sort that follows is by score and document, so the order is lost.
-/
import Mathlib.Algebra.Order.Field.Rat
import Mathlib.Tactic.Positivity
import Mathlib.Tactic.Linarith
import Riets.SearchHit

structure VectorHit where
  docId : DocId
  score : ℚ
  deriving DecidableEq

abbrev RankedItem (S : Type) := SearchHit ℚ × List (Option S)

namespace RankFusion

open List SortedMap Keyed

variable {S : Type}

def rrfK : ℚ := 10

def contribution (rank : ℕ) : ℚ := 1 / (rrfK + rank + 1)

def vectorOnly (d : DocId) : SearchHit ℚ where
  docId := d
  matchedTerms := 0
  weightSum := 0
  distanceFactor := 1
  score := 0
  tier := 0
  level := 0
  base := 0
  mask := 0
  nameShare := 0

abbrev FusedMap (S : Type) := SortedMap DocId (RankedItem S × ℚ)

def addWord (fused : FusedMap S) (e : RankedItem S × ℕ) : FusedMap S :=
  fused.insert e.1.1.docId (e.1, contribution e.2)

def addVector (addVectorOnly : Bool) (fused : FusedMap S) (e : VectorHit × ℕ) : FusedMap S :=
  match fused.get? e.1.docId with
  | some (item, score) => fused.insert e.1.docId (item, score + contribution e.2)
  | none =>
    if addVectorOnly then
      fused.insert e.1.docId ((vectorOnly e.1.docId, []), contribution e.2)
    else fused

def fusedMap (words : List (RankedItem S)) (vectors : List VectorHit) (addVectorOnly : Bool) :
    FusedMap S :=
  vectors.zipIdx.foldl (addVector addVectorOnly) (words.zipIdx.foldl addWord .empty)

def bestScore (fused : FusedMap S) : ℚ := (fused.entries.map fun e => e.2.2).foldl max 0

def fusedHit (best : ℚ) (e : DocId × RankedItem S × ℚ) : RankedItem S :=
  ({ e.2.1.1 with score := if 0 < best then e.2.2 / best else 0, tier := 0, level := 0 }, e.2.1.2)

def fusedRank (e : RankedItem S) : ℚᵒᵈ ×ₗ DocId := toLex (OrderDual.toDual e.1.score, e.1.docId)

def fuseRrf (words : List (RankedItem S)) (vectors : List VectorHit) (addVectorOnly : Bool) :
    List (RankedItem S) :=
  let fused := fusedMap words vectors addVectorOnly
  sortBy fusedRank (fused.entries.map (fusedHit (bestScore fused)))

/-- A fused hit goes after every kept one, whatever later step orders by tier. -/
def behindNamed (namedLimit : ℕ) (e : RankedItem S) : RankedItem S :=
  ({ e.1 with tier := namedLimit, level := 0 }, e.2)

def fuseKeepingNamed (items : List (RankedItem S)) (vectors : List VectorHit) (namedLimit : ℕ)
    (addVectorOnly : Bool) : List (RankedItem S) :=
  let named := partitionPoint (fun e => e.1.tier < namedLimit) items
  let kept := (items.take named).map fun e => e.1.docId
  let vectors := vectors.filter fun hit => hit.docId ∉ kept
  items.take named ++
    (fuseRrf (items.drop named) vectors addVectorOnly).map (behindNamed namedLimit)

/-! ### The sums -/

theorem contribution_pos (rank : ℕ) : 0 < contribution rank := by
  rw [contribution, rrfK]
  positivity

theorem contribution_lt {i j : ℕ} (h : i < j) : contribution j < contribution i := by
  have hij : (i : ℚ) < j := by exact_mod_cast h
  rw [contribution, contribution, rrfK]
  have hi : (0 : ℚ) < 10 + i + 1 := by positivity
  exact one_div_lt_one_div_of_lt hi (by linarith)

def share (docs : List DocId) (d : DocId) : ℚ := if d ∈ docs then contribution (docs.idxOf d) else 0

theorem share_nonneg (docs : List DocId) (d : DocId) : 0 ≤ share docs d := by
  rw [share]
  split_ifs
  · exact (contribution_pos _).le
  · exact le_rfl

variable {docs : List DocId}

theorem share_of_not_mem {d : DocId} (h : d ∉ docs) : share docs d = 0 := if_neg h

theorem share_pos {d : DocId} (h : d ∈ docs) : 0 < share docs d := by
  rw [share, if_pos h]
  exact contribution_pos _

theorem share_getElem (hnodup : docs.Nodup) {i : ℕ} {d : DocId}
    (h : docs[i]? = some d) : share docs d = contribution i := by
  obtain ⟨hi, rfl⟩ := List.getElem?_eq_some_iff.1 h
  rw [share, if_pos (getElem_mem hi), hnodup.idxOf_getElem i hi]

def Above (docs : List DocId) (d d' : DocId) : Prop := [d, d'].Sublist docs

theorem Above.share_lt (hnodup : docs.Nodup) {d d' : DocId} (h : Above docs d d') :
    share docs d' < share docs d := by
  induction docs with
  | nil => cases h
  | cons a docs ih =>
    obtain ⟨ha, hrest⟩ := nodup_cons.1 hnodup
    have hshift : ∀ {x : DocId}, x ∈ docs → ∃ i, docs[i]? = some x := fun hx => by
      obtain ⟨i, hi, hget⟩ := getElem_of_mem hx
      exact ⟨i, List.getElem?_eq_some_iff.2 ⟨hi, hget⟩⟩
    cases h with
    | cons_cons _ hd' =>
      obtain ⟨j, hj⟩ := hshift (singleton_sublist.1 hd')
      rw [share_getElem hnodup (i := j + 1) hj, share_getElem hnodup (i := 0) rfl]
      exact contribution_lt (Nat.succ_pos j)
    | cons _ hboth =>
      have hlt := ih hrest hboth
      obtain ⟨i, hi⟩ := hshift (hboth.subset (mem_cons_self ..))
      obtain ⟨j, hj⟩ := hshift (hboth.subset (mem_cons_of_mem _ (mem_cons_self ..)))
      rw [share_getElem hrest hi, share_getElem hrest hj] at hlt
      rw [share_getElem hnodup (i := i + 1) hi, share_getElem hnodup (i := j + 1) hj]
      refine contribution_lt (Nat.succ_lt_succ ?_)
      by_contra hle
      rcases Nat.lt_or_eq_of_le (not_lt.1 hle) with hji | rfl
      · exact lt_asymm hlt (contribution_lt hji)
      · exact lt_irrefl _ hlt

theorem sublist_of_key_lt {α K : Type} [LinearOrder K] {key : α → K} {l : List α}
    (h : Ascending key l) {a b : α} (ha : a ∈ l) (hb : b ∈ l) (hlt : key a < key b) :
    [a, b].Sublist l := by
  induction l with
  | nil => cases ha
  | cons c l ih =>
    rcases mem_cons.1 ha with rfl | hal
    · rcases mem_cons.1 hb with rfl | hbl
      · exact absurd hlt (lt_irrefl _)
      · exact Sublist.cons_cons _ (singleton_sublist.2 hbl)
    · rcases mem_cons.1 hb with rfl | hbl
      · exact absurd hlt (lt_asymm (h.head_lt hal))
      · exact Sublist.cons _ (ih h.of_cons hal hbl)

/-! ### The map -/

section

variable {A K V : Type} [LinearOrder K] {key : A → K} {step : SortedMap K V → A × ℕ → SortedMap K V}
  {g : A × ℕ → Option V → Option V}

theorem get?_foldl_of_not_mem (hstep : ∀ m e k, (step m e).get? k = if k = key e.1 then g e (m.get? k) else m.get? k)
    {l : List A} {k : K} (hk : k ∉ l.map key) (n : ℕ) (m : SortedMap K V) :
    ((l.zipIdx n).foldl step m).get? k = m.get? k := by
  induction l generalizing n m with
  | nil => rfl
  | cons a l ih =>
    rw [map_cons, mem_cons, not_or] at hk
    rw [zipIdx_cons, foldl_cons, ih hk.2, hstep, if_neg hk.1]

theorem get?_foldl_of_getElem? (hstep : ∀ m e k, (step m e).get? k = if k = key e.1 then g e (m.get? k) else m.get? k)
    {l : List A} (hl : (l.map key).Nodup) {i : ℕ} {a : A} (ha : l[i]? = some a) (n : ℕ)
    (m : SortedMap K V) :
    ((l.zipIdx n).foldl step m).get? (key a) = g (a, n + i) (m.get? (key a)) := by
  induction l generalizing i n m with
  | nil => cases ha
  | cons b l ih =>
    obtain ⟨hb, hl⟩ := nodup_cons.1 hl
    rw [zipIdx_cons, foldl_cons]
    cases i with
    | zero =>
      obtain rfl : b = a := Option.some_inj.1 ha
      rw [get?_foldl_of_not_mem hstep hb, hstep, if_pos rfl]
      rfl
    | succ i =>
      have hmem : key a ∈ l.map key := mem_map_of_mem (mem_of_getElem? ha)
      have hne : key a ≠ key b := fun heq => hb (heq ▸ hmem)
      rw [ih hl ha, hstep, if_neg hne, Nat.add_assoc, Nat.add_comm 1 i]

end

/-- What a hit of the words puts in the place of what its document had. -/
def wordValue (e : RankedItem S × ℕ) (_ : Option (RankedItem S × ℚ)) : Option (RankedItem S × ℚ) :=
  some (e.1, contribution e.2)

/-- What a hit of the vector search puts in the place of what its document had. -/
def vectorValue (flag : Bool) (e : VectorHit × ℕ) (old : Option (RankedItem S × ℚ)) :
    Option (RankedItem S × ℚ) :=
  (old.map fun v => (v.1, v.2 + contribution e.2)).or
    (if flag then some ((vectorOnly e.1.docId, []), contribution e.2) else none)

theorem get?_addWord (fused : FusedMap S) (e : RankedItem S × ℕ) (d : DocId) :
    (addWord fused e).get? d =
      if d = e.1.1.docId then wordValue e (fused.get? d) else fused.get? d := by
  rw [addWord, get?_insert, wordValue]

theorem get?_addVector (flag : Bool) (fused : FusedMap S) (e : VectorHit × ℕ) (d : DocId) :
    (addVector flag fused e).get? d =
      if d = e.1.docId then vectorValue flag e (fused.get? d) else fused.get? d := by
  unfold addVector vectorValue
  by_cases hd : d = e.1.docId
  · subst hd
    rw [if_pos rfl]
    cases hget : fused.get? e.1.docId with
    | some v => simp [get?_insert]
    | none => cases flag <;> simp [get?_insert, hget]
  · rw [if_neg hd]
    cases hget : fused.get? e.1.docId with
    | some v => simp [get?_insert, hd]
    | none => cases flag <;> simp [get?_insert, hd]

def wordDocs (words : List (RankedItem S)) : List DocId := words.map fun e => e.1.docId

def vectorDocs (vectors : List VectorHit) : List DocId := vectors.map VectorHit.docId

def total (words : List (RankedItem S)) (vectors : List VectorHit) (d : DocId) : ℚ :=
  share (wordDocs words) d + share (vectorDocs vectors) d

section

variable {words : List (RankedItem S)} {vectors : List VectorHit} {flag : Bool}

variable {d : DocId}

theorem get?_words_of_not_mem (h : d ∉ wordDocs words) :
    (words.zipIdx.foldl addWord .empty).get? d = none :=
  (get?_foldl_of_not_mem get?_addWord h 0 .empty).trans (get?_empty d)

variable {e : RankedItem S}

theorem get?_words (hwords : (wordDocs words).Nodup) (he : e ∈ words) :
    (words.zipIdx.foldl addWord .empty).get? e.1.docId =
      some (e, share (wordDocs words) e.1.docId) := by
  obtain ⟨i, hi, hget⟩ := getElem_of_mem he
  have hget' : words[i]? = some e := List.getElem?_eq_some_iff.2 ⟨hi, hget⟩
  have hdocs : (wordDocs words)[i]? = some e.1.docId := by
    rw [wordDocs, getElem?_map, hget']
    rfl
  have hkeys : (words.map fun e : RankedItem S => e.1.docId).Nodup := hwords
  rw [get?_foldl_of_getElem? get?_addWord hkeys hget' 0 .empty,
    share_getElem hwords hdocs, Nat.zero_add, wordValue]

theorem get?_fused (flag : Bool) (hwords : (wordDocs words).Nodup) (hvectors : (vectorDocs vectors).Nodup) :
    (∀ e ∈ words, (fusedMap words vectors flag).get? e.1.docId =
      some (e, total words vectors e.1.docId)) ∧
    ∀ d, d ∉ wordDocs words → (fusedMap words vectors flag).get? d =
      if flag ∧ d ∈ vectorDocs vectors then some ((vectorOnly d, []), total words vectors d)
      else none := by
  have hplace : ∀ d ∈ vectorDocs vectors, ∃ i hit, vectors[i]? = some hit ∧ hit.docId = d ∧
      share (vectorDocs vectors) d = contribution i := by
    intro d hd
    obtain ⟨hit, hhit, rfl⟩ := mem_map.1 hd
    obtain ⟨i, hi, hget⟩ := getElem_of_mem hhit
    have hget' : vectors[i]? = some hit := List.getElem?_eq_some_iff.2 ⟨hi, hget⟩
    refine ⟨i, hit, hget', rfl, share_getElem hvectors ?_⟩
    rw [vectorDocs, getElem?_map, hget']
    rfl
  constructor
  · intro e he
    have hword := get?_words hwords he
    by_cases hd : e.1.docId ∈ vectorDocs vectors
    · obtain ⟨i, hit, hget, hdoc, hshare⟩ := hplace _ hd
      have hfold := get?_foldl_of_getElem? (get?_addVector flag) hvectors hget 0
        (words.zipIdx.foldl addWord .empty)
      rw [hdoc, hword] at hfold
      rw [fusedMap, hfold, total, hshare]
      simp [vectorValue]
    · rw [fusedMap, get?_foldl_of_not_mem (get?_addVector flag) hd, hword, total,
        share_of_not_mem hd, add_zero]
  · intro d hword
    have hnone := get?_words_of_not_mem hword
    by_cases hd : d ∈ vectorDocs vectors
    · obtain ⟨i, hit, hget, hdoc, hshare⟩ := hplace _ hd
      have hfold := get?_foldl_of_getElem? (get?_addVector flag) hvectors hget 0
        (words.zipIdx.foldl addWord .empty)
      rw [hdoc, hnone] at hfold
      rw [fusedMap, hfold, total, hshare, share_of_not_mem hword]
      cases flag <;> simp [vectorValue, hd, hdoc]
    · rw [fusedMap, get?_foldl_of_not_mem (get?_addVector flag) hd, hnone, if_neg fun h => hd h.2]

/-! ### The fused hits -/

variable {item : RankedItem S}

theorem of_get?_fused (hwords : (wordDocs words).Nodup) (hvectors : (vectorDocs vectors).Nodup)
    {score : ℚ}
    (h : (fusedMap words vectors flag).get? d = some (item, score)) :
    item.1.docId = d ∧ score = total words vectors d ∧ 0 < score ∧
      (item ∈ words ∨ d ∉ wordDocs words ∧ flag ∧ d ∈ vectorDocs vectors ∧
        item = (vectorOnly d, [])) := by
  obtain ⟨hin, hout⟩ := get?_fused flag hwords hvectors
  by_cases hd : d ∈ wordDocs words
  · obtain ⟨e, he, rfl⟩ := mem_map.1 hd
    rw [hin e he] at h
    cases h
    have hpos : 0 < share (wordDocs words) item.1.docId := share_pos hd
    have hnonneg := share_nonneg (vectorDocs vectors) item.1.docId
    exact ⟨rfl, rfl, by rw [total]; linarith, Or.inl he⟩
  · rw [hout d hd] at h
    split_ifs at h with hflag
    cases h
    have hpos : 0 < share (vectorDocs vectors) d := share_pos hflag.2
    have hnonneg := share_nonneg (wordDocs words) d
    exact ⟨rfl, rfl, by rw [total]; linarith, Or.inr ⟨hd, hflag.1, hflag.2, rfl⟩⟩

theorem le_bestScore {fused : FusedMap S} {score : ℚ}
    (h : fused.get? d = some (item, score)) : score ≤ bestScore fused := by
  have hmem := mem_entries.2 h
  exact (le_foldl_max _ 0).2 score (mem_map.2 ⟨_, hmem, rfl⟩)

theorem nodup_fusedHits (flag : Bool) (hwords : (wordDocs words).Nodup) (hvectors : (vectorDocs vectors).Nodup)
    (best : ℚ) :
    (wordDocs ((fusedMap words vectors flag).entries.map (fusedHit best))).Nodup := by
  have hkeys : wordDocs ((fusedMap words vectors flag).entries.map (fusedHit best)) =
      (fusedMap words vectors flag).keys := by
    rw [wordDocs, map_map, SortedMap.keys]
    refine map_congr_left fun e he => ?_
    exact (of_get?_fused hwords hvectors (mem_entries.1 he)).1
  rw [hkeys]
  exact (keys_ascending _).imp ne_of_lt

section

variable (hwords : (wordDocs words).Nodup)
include hwords

theorem ascending_fuseRrf (hvectors : (vectorDocs vectors).Nodup) :
    Ascending fusedRank (fuseRrf words vectors flag) := by
  refine TopK.ascending_sortBy ?_
  have hnodup := nodup_fusedHits flag hwords hvectors
    (bestScore (fusedMap words vectors flag))
  refine (pairwise_map.1 hnodup).imp fun {a b} hab heq => hab ?_
  exact congrArg (fun r => (ofLex r).2) heq

theorem nodup_fuseRrf (hvectors : (vectorDocs vectors).Nodup) :
    (wordDocs (fuseRrf words vectors flag)).Nodup :=
  ((perm_sortBy _).map _).nodup_iff.2 (nodup_fusedHits _ hwords hvectors _)

theorem mem_fuseRrf (hvectors : (vectorDocs vectors).Nodup)
    (he : e ∈ fuseRrf words vectors flag) :
    ∃ item best, (fusedMap words vectors flag).get? e.1.docId =
        some (item, total words vectors e.1.docId) ∧
      best = bestScore (fusedMap words vectors flag) ∧ 0 < best ∧
      e = ({ item.1 with score := total words vectors e.1.docId / best, tier := 0, level := 0 },
        item.2) := by
  obtain ⟨⟨d, item, score⟩, hentry, rfl⟩ := mem_map.1 ((perm_sortBy _).mem_iff.1 he)
  have hget := mem_entries.1 hentry
  obtain ⟨hdoc, rfl, hpos, -⟩ := of_get?_fused hwords hvectors hget
  have hbest : 0 < bestScore (fusedMap words vectors flag) := hpos.trans_le (le_bestScore hget)
  subst hdoc
  refine ⟨item, _, hget, rfl, hbest, ?_⟩
  rw [fusedHit, if_pos hbest]

theorem mem_wordDocs_fuseRrf
    (hvectors : (vectorDocs vectors).Nodup) :
    d ∈ wordDocs (fuseRrf words vectors flag) ↔
      d ∈ wordDocs words ∨ flag ∧ d ∈ vectorDocs vectors := by
  constructor
  · intro h
    obtain ⟨e, he, rfl⟩ := mem_map.1 h
    obtain ⟨item, best, hget, -⟩ := mem_fuseRrf hwords hvectors he
    rcases (of_get?_fused hwords hvectors hget).2.2.2 with hitem | ⟨-, hflag, hd, -⟩
    · left
      rw [← (of_get?_fused hwords hvectors hget).1]
      exact mem_map_of_mem hitem
    · exact Or.inr ⟨hflag, hd⟩
  · intro h
    have hget : ∃ v, (fusedMap words vectors flag).get? d = some v := by
      obtain ⟨hin, hout⟩ := get?_fused flag hwords hvectors
      by_cases hd : d ∈ wordDocs words
      · obtain ⟨e, he, rfl⟩ := mem_map.1 hd
        exact ⟨_, hin e he⟩
      · rw [hout d hd, if_pos (h.resolve_left hd)]
        exact ⟨_, rfl⟩
    obtain ⟨⟨item, score⟩, hget⟩ := hget
    have hmem := mem_map_of_mem (f := fusedHit (bestScore (fusedMap words vectors flag)))
      (mem_entries.2 hget)
    refine mem_map.2 ⟨_, (perm_sortBy _).mem_iff.2 hmem, ?_⟩
    exact (of_get?_fused hwords hvectors hget).1

theorem above_fuseRrf (hvectors : (vectorDocs vectors).Nodup)
    {d' : DocId} (hd : d ∈ wordDocs (fuseRrf words vectors flag))
    (hd' : d' ∈ wordDocs (fuseRrf words vectors flag))
    (hlt : total words vectors d' < total words vectors d) :
    Above (wordDocs (fuseRrf words vectors flag)) d d' := by
  obtain ⟨e, he, rfl⟩ := mem_map.1 hd
  obtain ⟨e', he', rfl⟩ := mem_map.1 hd'
  obtain ⟨item, best, -, hbest, hpos, heq⟩ := mem_fuseRrf hwords hvectors he
  obtain ⟨item', best', -, hbest', -, heq'⟩ := mem_fuseRrf hwords hvectors he'
  have hsame : best' = best := hbest'.trans hbest.symm
  have hscore : e.1.score = total words vectors e.1.docId / best := by
    conv_lhs => rw [heq]
  have hscore' : e'.1.score = total words vectors e'.1.docId / best := by
    conv_lhs => rw [heq', hsame]
  have hbefore : fusedRank e < fusedRank e' := by
    refine Prod.Lex.toLex_lt_toLex.2 (Or.inl (OrderDual.toDual_lt_toDual.2 ?_))
    rw [hscore, hscore']
    exact div_lt_div_of_pos_right hlt hpos
  have hpair := sublist_of_key_lt (ascending_fuseRrf hwords hvectors) he he' hbefore
  exact hpair.map fun e => e.1.docId

end

end

/-! ### Keeping what the query names -/

def namedHits (items : List (RankedItem S)) (namedLimit : ℕ) : List (RankedItem S) :=
  items.filter fun e => e.1.tier < namedLimit

def otherHits (items : List (RankedItem S)) (namedLimit : ℕ) : List (RankedItem S) :=
  items.filter fun e => !(e.1.tier < namedLimit)

def remainingVectors (items : List (RankedItem S)) (vectors : List VectorHit) (namedLimit : ℕ) :
    List VectorHit :=
  vectors.filter fun hit => hit.docId ∉ wordDocs (namedHits items namedLimit)

theorem take_partitionPoint {α : Type} (p : α → Bool) (l : List α) :
    l.take (partitionPoint p l) = l.takeWhile p :=
  (prefix_iff_eq_take.1 ( takeWhile_prefix p)).symm

theorem drop_partitionPoint {α : Type} (p : α → Bool) (l : List α) :
    l.drop (partitionPoint p l) = l.dropWhile p := by
  have hsplit := congrArg (drop (partitionPoint p l))
    (takeWhile_append_dropWhile (p := p) (l := l))
  rw [← hsplit, partitionPoint, drop_left]

theorem fuseKeepingNamed_eq {items : List (RankedItem S)}
    (htiers : Sorted (fun e => e.1.tier) items) (vectors : List VectorHit) (namedLimit : ℕ)
    (flag : Bool) :
    fuseKeepingNamed items vectors namedLimit flag = namedHits items namedLimit ++
      (fuseRrf (otherHits items namedLimit) (remainingVectors items vectors namedLimit) flag).map
        (behindNamed namedLimit) := by
  have hdown : ∀ a b : RankedItem S, a.1.tier ≤ b.1.tier →
      decide (b.1.tier < namedLimit) = true → decide (a.1.tier < namedLimit) = true := by
    intro a b hab hb
    rw [decide_eq_true_eq] at hb ⊢
    omega
  have htake := takeWhile_eq_filter htiers hdown
  have hdrop := dropWhile_eq_filter htiers hdown
  rw [fuseKeepingNamed, take_partitionPoint, drop_partitionPoint, htake, hdrop]
  rfl

theorem wordDocs_behindNamed (namedLimit : ℕ) (l : List (RankedItem S)) :
    wordDocs (l.map (behindNamed namedLimit)) = wordDocs l := by
  rw [wordDocs, map_map]
  rfl

/-- One document is above another in both lists, or in one while the other list has neither. -/
def AboveInRemaining (words vectors : List DocId) (d d' : DocId) : Prop :=
  Above words d d' ∧ Above vectors d d' ∨
  Above words d d' ∧ d ∉ vectors ∧ d' ∉ vectors ∨
  d ∉ words ∧ d' ∉ words ∧ Above vectors d d'

theorem total_lt {words : List (RankedItem S)} {vectors : List VectorHit}
    (hwords : (wordDocs words).Nodup) (hvectors : (vectorDocs vectors).Nodup) {d d' : DocId}
    (h : AboveInRemaining (wordDocs words) (vectorDocs vectors) d d') :
    total words vectors d' < total words vectors d := by
  rw [total, total]
  rcases h with ⟨hw, hv⟩ | ⟨hw, hd, hd'⟩ | ⟨hd, hd', hv⟩
  · have := hw.share_lt hwords
    have := hv.share_lt hvectors
    linarith
  · rw [share_of_not_mem hd, share_of_not_mem hd']
    have := hw.share_lt hwords
    linarith
  · rw [share_of_not_mem hd, share_of_not_mem hd']
    have := hv.share_lt hvectors
    linarith

/-- The named hits come first, unchanged; behind them each other hit of the words and, when asked
for, each document that only the vector search found stands once, and a document that is above
another in what remains of the two lists stands above it. -/
theorem fuseKeepingNamed_spec (items : List (RankedItem S)) (vectors : List VectorHit)
    (hitems : (wordDocs items).Nodup) (htiers : Sorted (fun e => e.1.tier) items)
    (hvectors : (vectorDocs vectors).Nodup) (namedLimit : ℕ) (addVectorOnly : Bool) :
    ∃ fused, fuseKeepingNamed items vectors namedLimit addVectorOnly =
        namedHits items namedLimit ++ fused ∧
      (wordDocs (namedHits items namedLimit ++ fused)).Nodup ∧
      (∀ d, d ∈ wordDocs fused ↔ d ∈ wordDocs (otherHits items namedLimit) ∨
        addVectorOnly ∧ d ∈ vectorDocs vectors ∧ d ∉ wordDocs items) ∧
      (∀ e ∈ fused, ∃ found score, (found ∈ otherHits items namedLimit ∨
          found = (vectorOnly e.1.docId, []) ∧ e.1.docId ∉ wordDocs items) ∧
        e = ({ found.1 with score := score, tier := namedLimit, level := 0 }, found.2)) ∧
      ∀ d ∈ wordDocs fused, ∀ d' ∈ wordDocs fused,
        AboveInRemaining (wordDocs (otherHits items namedLimit))
          (vectorDocs (remainingVectors items vectors namedLimit)) d d' →
        Above (wordDocs fused) d d' := by
  have hothers : (wordDocs (otherHits items namedLimit)).Nodup :=
    hitems.sublist (filter_sublist.map _)
  have hremaining : (vectorDocs (remainingVectors items vectors namedLimit)).Nodup :=
    hvectors.sublist (filter_sublist.map _)
  -- a word hit is kept or not
  have hsplit : ∀ d, d ∈ wordDocs items ↔
      d ∈ wordDocs (namedHits items namedLimit) ∨ d ∈ wordDocs (otherHits items namedLimit) := by
    intro d
    simp only [wordDocs, namedHits, otherHits, mem_map, mem_filter]
    constructor
    · rintro ⟨e, he, rfl⟩
      by_cases ht : e.1.tier < namedLimit
      · exact Or.inl ⟨e, ⟨he, by simpa using ht⟩, rfl⟩
      · exact Or.inr ⟨e, ⟨he, by simpa using ht⟩, rfl⟩
    · rintro (⟨e, ⟨he, -⟩, rfl⟩ | ⟨e, ⟨he, -⟩, rfl⟩) <;> exact ⟨e, he, rfl⟩
  have hapart : ∀ d, d ∈ wordDocs (namedHits items namedLimit) →
      d ∉ wordDocs (otherHits items namedLimit) := by
    intro d hd hd'
    obtain ⟨e, he, rfl⟩ := mem_map.1 hd
    obtain ⟨e', he', heq⟩ := mem_map.1 hd'
    obtain ⟨hmem, htier⟩ := mem_filter.1 he
    obtain ⟨hmem', htier'⟩ := mem_filter.1 he'
    obtain rfl : e' = e := inj_on_of_nodup_map hitems hmem' hmem heq
    rw [htier] at htier'
    exact absurd htier' (by decide)
  have hvec : ∀ d, d ∈ vectorDocs (remainingVectors items vectors namedLimit) ↔
      d ∈ vectorDocs vectors ∧ d ∉ wordDocs (namedHits items namedLimit) := by
    intro d
    simp only [vectorDocs, remainingVectors, mem_map, mem_filter, decide_eq_true_eq]
    constructor
    · rintro ⟨hit, ⟨hhit, hnot⟩, rfl⟩
      exact ⟨⟨hit, hhit, rfl⟩, hnot⟩
    · rintro ⟨⟨hit, hhit, rfl⟩, hnot⟩
      exact ⟨hit, ⟨hhit, hnot⟩, rfl⟩
  have hdocs : ∀ d, d ∈ wordDocs (fuseRrf (otherHits items namedLimit)
      (remainingVectors items vectors namedLimit) addVectorOnly) ↔
      d ∈ wordDocs (otherHits items namedLimit) ∨
        addVectorOnly ∧ d ∈ vectorDocs vectors ∧ d ∉ wordDocs items := by
    intro d
    rw [mem_wordDocs_fuseRrf hothers hremaining, hvec, hsplit]
    tauto
  refine ⟨_, fuseKeepingNamed_eq htiers vectors namedLimit addVectorOnly, ?_, ?_, ?_, ?_⟩
  · rw [wordDocs, map_append, ← wordDocs, ← wordDocs, wordDocs_behindNamed]
    refine Nodup.append (hitems.sublist (filter_sublist.map _))
      (nodup_fuseRrf hothers hremaining) ?_
    intro d hd hd'
    rcases (hdocs d).1 hd' with hd' | ⟨-, -, hnot⟩
    · exact hapart d hd hd'
    · exact hnot ((hsplit d).2 (Or.inl hd))
  · intro d
    rw [wordDocs_behindNamed]
    exact hdocs d
  · intro e he
    obtain ⟨e, hfused, rfl⟩ := mem_map.1 he
    obtain ⟨item, best, hget, -, -, heq⟩ := mem_fuseRrf hothers hremaining hfused
    obtain ⟨hdoc, -, -, hfound⟩ := of_get?_fused hothers hremaining hget
    have hself : behindNamed namedLimit e =
        ({ item.1 with score := e.1.score, tier := namedLimit, level := 0 }, item.2) := by
      rw [behindNamed, heq]
    refine ⟨item, e.1.score, ?_, hself⟩
    rcases hfound with hword | ⟨hnot, -, hd, hitem⟩
    · exact Or.inl hword
    · refine Or.inr ⟨hitem, fun hd' => ?_⟩
      rcases (hsplit _).1 hd' with hkept | hother
      · exact ((hvec _).1 hd).2 hkept
      · exact hnot hother
  · intro d hd d' hd' habove
    rw [wordDocs_behindNamed] at hd hd' ⊢
    exact above_fuseRrf hothers hremaining hd hd' (total_lt hothers hremaining habove)

/-- Document 7 is named; 5 leads 3 in both lists and 9 is found by the vectors alone. -/
theorem fuseKeepingNamed_spec_sample :
    ∃ fused, fuseKeepingNamed (S := Unit)
        [({ vectorOnly 7 with score := 3 }, []), ({ vectorOnly 5 with tier := 2 }, []),
          ({ vectorOnly 3 with tier := 2 }, [])] [⟨5, 1⟩, ⟨7, 1⟩, ⟨3, 1⟩, ⟨9, 1⟩] 1 true =
        ({ vectorOnly 7 with score := 3 }, []) :: fused ∧
      9 ∈ wordDocs fused ∧ Above (wordDocs fused) 5 3 := by
  obtain ⟨fused, heq, -, hdocs, -, habove⟩ := fuseKeepingNamed_spec (S := Unit)
    [({ vectorOnly 7 with score := 3 }, []), ({ vectorOnly 5 with tier := 2 }, []),
      ({ vectorOnly 3 with tier := 2 }, [])] [⟨5, 1⟩, ⟨7, 1⟩, ⟨3, 1⟩, ⟨9, 1⟩]
    (by decide) (by decide) (by decide) 1 true
  refine ⟨fused, heq, (hdocs 9).2 (Or.inr (by decide)), habove 5 ((hdocs 5).2 (Or.inl (by decide)))
    3 ((hdocs 3).2 (Or.inl (by decide))) (Or.inl ⟨?_, ?_⟩)⟩
  · exact (Sublist.refl [5, 3])
  · exact (Sublist.cons_cons 5 (Sublist.cons_cons 3 (nil_sublist [9])))

end RankFusion

/-
The walk over one level of a vector graph.

The walk expands the most similar node that waits, marks the neighbours it has not seen
and keeps the best of those the filter accepts.  The buffer of marks is shared by all
searches of a thread: each search has a mark of its own, and when the marks wrap the
buffer is cleared.  `none` stands for an index out of range and for a loop that has not
returned after some turns.
-/
import Mathlib.Data.Prod.Lex
import Riets.Reachability
import Riets.TopK

open Reachability

def fmix64 (value : UInt64) : UInt64 :=
  let value := value ^^^ (value >>> 33)
  let value := value * 0xff51afd7ed558ccd
  let value := value ^^^ (value >>> 33)
  let value := value * 0xc4ceb9fe1a85ec53
  value ^^^ (value >>> 33)

def tieBreakSeed : UInt64 := 0x9E3779B97F4A7C15

/-- `ScoredNode`: similarities are any ordered numbers `F`, in the order of `total_cmp`. -/
structure ScoredNode (F : Type) where
  similarity : F
  tieBreak : ℕ
  node : ℕ
  deriving DecidableEq

namespace ScoredNode

variable {F : Type}

def salted (node : ℕ) (similarity : F) (salt : UInt64) : ScoredNode F where
  similarity := similarity
  tieBreak := (fmix64 (UInt64.ofNat node ^^^ tieBreakSeed ^^^ fmix64 salt)).toUInt32.toNat
  node := node

def key (s : ScoredNode F) : F ×ₗ ℕ ×ₗ ℕ := toLex (s.similarity, toLex (s.tieBreak, s.node))

theorem node_of_key_eq {a b : ScoredNode F} (h : a.key = b.key) : a.node = b.node :=
  congrArg (fun k => (ofLex (ofLex k).2).2) h

def rank (s : ScoredNode F) : (F ×ₗ ℕ ×ₗ ℕ)ᵒᵈ := OrderDual.toDual s.key

end ScoredNode

/-! ### The visited set -/

structure VisitedSet where
  marks : List ℕ
  currentMark : ℕ

namespace VisitedSet

open List

def default : VisitedSet := ⟨[], 0⟩

def resize (marks : List ℕ) (nodeCount : ℕ) : List ℕ :=
  if marks.length < nodeCount then marks ++ replicate (nodeCount - marks.length) 0 else marks

def startNewSearch (s : VisitedSet) (nodeCount : ℕ) : VisitedSet :=
  let marks := resize s.marks nodeCount
  let currentMark := (s.currentMark + 1) % 2 ^ 32
  if currentMark = 0 then ⟨replicate marks.length 0, 1⟩ else ⟨marks, currentMark⟩

def mark (s : VisitedSet) (node : ℕ) : Option (Bool × VisitedSet) :=
  match s.marks[node]? with
  | none => none
  | some slot =>
    if slot = s.currentMark then some (false, s)
    else some (true, { s with marks := s.marks.set node s.currentMark })

def Visited (s : VisitedSet) (node : ℕ) : Prop := s.marks[node]? = some s.currentMark

instance (s : VisitedSet) : DecidablePred s.Visited := fun node =>
  inferInstanceAs (Decidable (s.marks[node]? = some s.currentMark))

structure Fresh (s : VisitedSet) : Prop where
  le : ∀ m ∈ s.marks, m ≤ s.currentMark
  current : s.currentMark < 2 ^ 32

variable {s : VisitedSet} {node nodeCount : ℕ}

theorem fresh_default : Fresh default := ⟨by simp [default], by decide⟩

theorem startNewSearch_spec (h : s.Fresh) (nodeCount : ℕ) :
    (s.startNewSearch nodeCount).Fresh ∧ nodeCount ≤ (s.startNewSearch nodeCount).marks.length ∧
      ∀ n, ¬(s.startNewSearch nodeCount).Visited n := by
  have hlen : nodeCount ≤ (resize s.marks nodeCount).length := by
    rw [resize]
    split_ifs with hlt
    · rw [length_append, length_replicate]
      omega
    · omega
  have hle : ∀ m ∈ resize s.marks nodeCount, m ≤ s.currentMark := by
    intro m hm
    rw [resize] at hm
    split_ifs at hm
    · rcases mem_append.1 hm with hm | hm
      · exact h.le m hm
      · rw [eq_of_mem_replicate hm]
        omega
    · exact h.le m hm
  have hcurrent := h.current
  rw [startNewSearch]
  split_ifs with hwrap
  · -- the marks have wrapped: all of them are cleared
    refine ⟨⟨fun m hm => ?_, ?_⟩, by rwa [length_replicate], fun n hn => ?_⟩
    · rw [eq_of_mem_replicate hm]
      exact Nat.zero_le 1
    · show 1 < 2 ^ 32
      omega
    · have hmem := mem_of_getElem? hn
      exact absurd (eq_of_mem_replicate hmem) Nat.one_ne_zero
  · have hnext : (s.currentMark + 1) % 2 ^ 32 = s.currentMark + 1 := by
      by_cases hlt : s.currentMark + 1 < 2 ^ 32
      · exact Nat.mod_eq_of_lt hlt
      · have heq : s.currentMark + 1 = 2 ^ 32 := by omega
        rw [heq, Nat.mod_self] at hwrap
        exact absurd rfl hwrap
    refine ⟨⟨fun m hm => ?_, ?_⟩, hlen, fun n hn => ?_⟩
    · have := hle m hm
      show m ≤ (s.currentMark + 1) % 2 ^ 32
      omega
    · exact Nat.mod_lt _ (by omega)
    · have := hle _ (mem_of_getElem? hn)
      have hn' : (s.currentMark + 1) % 2 ^ 32 ≤ s.currentMark := this
      omega

theorem Fresh.mark {s' : VisitedSet} {new : Bool} (h : s.Fresh) (hmark : s.mark node = some (new, s')) :
    s'.Fresh := by
  unfold VisitedSet.mark at hmark
  split at hmark
  · cases hmark
  · split_ifs at hmark <;> cases hmark
    · exact h
    · refine ⟨fun m hm => ?_, h.current⟩
      rcases mem_or_eq_of_mem_set hm with hm | rfl
      · exact h.le m hm
      · exact le_rfl

theorem mark_of_visited (h : s.Visited node) : s.mark node = some (false, s) := by
  rw [mark, show s.marks[node]? = some s.currentMark from h]
  exact if_pos rfl

theorem mark_of_not_visited (hlt : node < s.marks.length) (h : ¬s.Visited node) :
    s.mark node = some (true, { s with marks := s.marks.set node s.currentMark }) := by
  have hget : s.marks[node]? = some s.marks[node] := getElem?_eq_getElem hlt
  have hne : s.marks[node] ≠ s.currentMark := by
    intro heq
    exact h (by rw [Visited, hget, heq])
  rw [mark, hget]
  exact if_neg hne

theorem visited_set (hlt : node < s.marks.length) (m : ℕ) :
    Visited { s with marks := s.marks.set node s.currentMark } m ↔ m = node ∨ s.Visited m := by
  rw [Visited, Visited, getElem?_set]
  split_ifs with heq
  · simp [heq]
  · exact ⟨Or.inr, fun hor => hor.resolve_left fun hm => heq hm.symm⟩

end VisitedSet

/-! ### The walk -/

/-- `GraphWalk`: the links of each node on each level, and how similar nodes are to the target. -/
structure GraphWalk (F : Type) where
  neighbours : ℕ → ℕ → List ℕ
  similarity : ℕ → F
  tieSalt : UInt64
  nodeCount : ℕ

structure LevelQuery (F : Type) where
  entryPoints : List (ScoredNode F)
  beamWidth : ℕ
  level : ℕ
  accept : ℕ → Bool
  maxSimilarityComputations : ℕ

/-- The heaps of a walk, `kept` with the worst node on top, and its count. -/
structure WalkState (F : Type) where
  toExpand : List (ScoredNode F)
  kept : List (ScoredNode F)
  visited : VisitedSet
  computations : ℕ

structure LevelSearch (F : Type) where
  bestFirst : List (ScoredNode F)
  stoppedByBudget : Bool

namespace GraphWalk

variable {F : Type} [LinearOrder F] (w : GraphWalk F) (q : LevelQuery F)

def score (node : ℕ) : ScoredNode F := .salted node (w.similarity node) w.tieSalt

def keepWithinBeam (kept : List (ScoredNode F)) (node : ScoredNode F) (beamWidth : ℕ) :
    List (ScoredNode F) :=
  TopK.pushPop ScoredNode.rank beamWidth kept node

/-- A node that was seen for the first time waits, and is kept when the filter accepts it. -/
def enqueue (st : WalkState F) (scored : ScoredNode F) : WalkState F :=
  { st with
    toExpand := TopK.push ScoredNode.key scored st.toExpand
    kept := if q.accept scored.node then keepWithinBeam st.kept scored q.beamWidth else st.kept }

def enter (st : WalkState F) (entry : ScoredNode F) : Option (WalkState F) := do
  let (new, visited) ← st.visited.mark entry.node
  if new then some (enqueue q { st with visited := visited } entry)
  else some { st with visited := visited }

def couldEnterBeam (st : WalkState F) (scored : ScoredNode F) : Bool :=
  st.kept.length < q.beamWidth || st.kept.head?.any fun worst => worst.key < scored.key

def look (st : WalkState F) (neighbour : ℕ) : Option (WalkState F) := do
  let (new, visited) ← st.visited.mark neighbour
  if !new then some { st with visited := visited }
  else
    let st := { st with visited := visited, computations := st.computations + 1 }
    let scored := w.score neighbour
    if couldEnterBeam q st scored then some (enqueue q st scored) else some st

/-- Whether the node that is next is worse than all that are kept by a full beam. -/
def beamDone (st : WalkState F) (candidate : ScoredNode F) : Bool :=
  q.beamWidth ≤ st.kept.length && st.kept.head?.any fun worst => candidate.key < worst.key

/-- The loop of `search_level`, with whether the budget stopped it. -/
def expand : ℕ → WalkState F → Option (WalkState F × Bool)
  | 0, _ => none
  | turns + 1, st =>
    match st.toExpand with
    | [] => some (st, false)
    | candidate :: rest =>
      if beamDone q st candidate then some ({ st with toExpand := rest }, false)
      else do
        let st ← (w.neighbours candidate.node q.level).foldlM (w.look q) { st with toExpand := rest }
        if q.maxSimilarityComputations ≤ st.computations then some (st, true) else expand turns st

/-- `search_level`, with the visited set as it leaves it. -/
def searchLevel (visited : VisitedSet) (turns : ℕ) : Option (LevelSearch F × VisitedSet) := do
  let st ← q.entryPoints.foldlM (enter q) ⟨[], [], visited.startNewSearch w.nodeCount, 0⟩
  let (st, stoppedByBudget) ← w.expand q turns st
  some (⟨Keyed.sortBy ScoredNode.rank st.kept, stoppedByBudget⟩, st.visited)

end GraphWalk

namespace GraphWalk

open List VisitedSet TopK Keyed ScoredNode

variable {F : Type} {w : GraphWalk F} {q : LevelQuery F}

def Reached (w : GraphWalk F) (q : LevelQuery F) (n : ℕ) : Prop :=
  Reach (fun n => w.neighbours n q.level) (q.entryPoints.map ScoredNode.node) n

/-- The entry points are nodes of the graph, and so is what they are linked to. -/
structure Closed (w : GraphWalk F) (q : LevelQuery F) : Prop where
  entries : ∀ e ∈ q.entryPoints, e.node < w.nodeCount
  links : ∀ n < w.nodeCount, ∀ m ∈ w.neighbours n q.level, m < w.nodeCount

theorem Closed.lt (h : Closed w q) {n : ℕ} (hn : w.Reached q n) : n < w.nodeCount := by
  refine hn.induction (fun s hs => ?_) fun a _ ha b hb => h.links a ha b hb
  obtain ⟨e, he, rfl⟩ := mem_map.1 hs
  exact h.entries e he

/-! ### The invariant -/

structure Sound (w : GraphWalk F) (q : LevelQuery F) (st : WalkState F) : Prop where
  fresh : st.visited.Fresh
  sized : w.nodeCount ≤ st.visited.marks.length
  reached : ∀ n, st.visited.Visited n → w.Reached q n
  waiting : ∀ s ∈ st.toExpand, st.visited.Visited s.node
  kept : ∀ s ∈ st.kept, st.visited.Visited s.node ∧ q.accept s.node
  scored : ∀ s ∈ st.kept, s ∈ q.entryPoints ∨ s = w.score s.node
  nodup : (st.kept.map ScoredNode.node).Nodup
  spent : st.computations + unseen w.nodeCount st.visited.Visited ≤ w.nodeCount

def IsFound (w : GraphWalk F) (q : LevelQuery F) (found : Finset ℕ) : Prop :=
  ∀ n, n ∈ found ↔ w.Reached q n ∧ q.accept n

/-- Nothing was lost so far: the accepted nodes that were visited are kept, and the visited nodes
wait, were expanded or are `exempt`, unless all there is to find is kept. -/
structure Exhaustive (w : GraphWalk F) (q : LevelQuery F) (found : Finset ℕ) (exempt : ℕ → Prop)
    (st : WalkState F) : Prop where
  accepted : ∀ n, st.visited.Visited n → q.accept n → n ∈ st.kept.map ScoredNode.node
  covers : Covers (fun n => w.neighbours n q.level) st.visited.Visited
      (fun n => n ∈ st.toExpand.map ScoredNode.node ∨ exempt n) ∨
    ∀ n ∈ found, n ∈ st.kept.map ScoredNode.node

def Held (q : LevelQuery F) (st : WalkState F) : Prop :=
  0 < q.beamWidth → ∀ n, st.visited.Visited n → q.accept n → st.kept ≠ []

structure Advance (w : GraphWalk F) (q : LevelQuery F) (st st' : WalkState F) : Prop where
  sound : Sound w q st'
  visited : ∀ n, st.visited.Visited n → st'.visited.Visited n
  shrinks : st'.toExpand.length + unseen w.nodeCount st'.visited.Visited ≤
    st.toExpand.length + unseen w.nodeCount st.visited.Visited
  exhaustive : ∀ found exempt, IsFound w q found → found.card ≤ q.beamWidth →
    Exhaustive w q found exempt st → Exhaustive w q found exempt st'
  held : Held q st → Held q st'

theorem Advance.refl {st : WalkState F} (h : Sound w q st) : Advance w q st st :=
  ⟨h, fun _ hn => hn, le_rfl, fun _ _ _ _ he => he, fun hheld => hheld⟩

theorem Advance.trans {st st' st'' : WalkState F} (h : Advance w q st st')
    (h' : Advance w q st' st'') : Advance w q st st'' where
  sound := h'.sound
  visited n hn := h'.visited n (h.visited n hn)
  shrinks := h'.shrinks.trans h.shrinks
  exhaustive found exempt hf hb he := h'.exhaustive found exempt hf hb (h.exhaustive found exempt hf hb he)
  held hheld := h'.held (h.held hheld)

variable {st : WalkState F}

theorem Sound.all_kept (h : Sound w q st) {found : Finset ℕ} (hfound : IsFound w q found)
    (hfull : found.card ≤ st.kept.length) {n : ℕ} (hn : n ∈ found) :
    n ∈ st.kept.map node := by
  have hsub : (st.kept.map node).toFinset ⊆ found := by
    intro m hm
    obtain ⟨s, hs, rfl⟩ := mem_map.1 (mem_toFinset.1 hm)
    obtain ⟨hvisited, haccept⟩ := h.kept s hs
    exact (hfound s.node).2 ⟨h.reached _ hvisited, haccept⟩
  have hcard : found.card ≤ (st.kept.map node).toFinset.card := by
    rwa [toFinset_card_of_nodup h.nodup, length_map]
  rw [← Finset.eq_of_subset_of_card_le hsub hcard] at hn
  exact mem_toFinset.1 hn

def marked (st : WalkState F) (n computations : ℕ) : WalkState F :=
  { st with
    visited := { st.visited with marks := st.visited.marks.set n st.visited.currentMark }
    computations := st.computations + computations }

section

variable {n c : ℕ}

theorem marked_visited (h : Sound w q st) (hlt : n < w.nodeCount) (m : ℕ) :
    (marked st n c).visited.Visited m ↔ m = n ∨ st.visited.Visited m :=
  visited_set (lt_of_lt_of_le hlt h.sized) m

theorem not_mem_kept (h : Sound w q st) (hnew : ¬st.visited.Visited n) :
    n ∉ st.kept.map node := by
  intro hmem
  obtain ⟨s, hs, rfl⟩ := mem_map.1 hmem
  exact hnew (h.kept s hs).1

theorem Sound.unseen_marked (h : Sound w q st) (hlt : n < w.nodeCount)
    (hnew : ¬st.visited.Visited n) :
    unseen w.nodeCount (marked st n c).visited.Visited + 1 =
      unseen w.nodeCount st.visited.Visited :=
  unseen_insert hlt hnew (marked_visited h hlt)

theorem Sound.marked (h : Sound w q st) (hlt : n < w.nodeCount) (hreached : w.Reached q n)
    (hnew : ¬st.visited.Visited n) (hc : c ≤ 1) : Sound w q (marked st n c) := by
  have hvisited : ∀ m, (GraphWalk.marked st n c).visited.Visited m ↔ m = n ∨ st.visited.Visited m :=
    marked_visited h hlt
  have hunseen := h.unseen_marked (c := c) hlt hnew
  have hspent := h.spent
  have hmark := mark_of_not_visited (lt_of_lt_of_le hlt h.sized) hnew
  refine ⟨h.fresh.mark hmark, ?_, ?_, ?_, ?_, h.scored, h.nodup, ?_⟩
  · show w.nodeCount ≤ (st.visited.marks.set n st.visited.currentMark).length
    rw [length_set]
    exact h.sized
  · intro m hm
    rcases (hvisited m).1 hm with rfl | hm
    · exact hreached
    · exact h.reached m hm
  · intro s hs
    exact (hvisited s.node).2 (Or.inr (h.waiting s hs))
  · intro s hs
    exact ⟨(hvisited s.node).2 (Or.inr (h.kept s hs).1), (h.kept s hs).2⟩
  · show st.computations + c + _ ≤ w.nodeCount
    omega

theorem Sound.advance_marked (h : Sound w q st) (hlt : n < w.nodeCount) (hreached : w.Reached q n)
    (hnew : ¬st.visited.Visited n) (hc : c ≤ 1) (hfull : q.beamWidth ≤ st.kept.length) :
    Advance w q st (GraphWalk.marked st n c) := by
  have hvisited : ∀ m, (GraphWalk.marked st n c).visited.Visited m ↔ m = n ∨ st.visited.Visited m :=
    marked_visited h hlt
  have hunseen := h.unseen_marked (c := c) hlt hnew
  refine ⟨h.marked hlt hreached hnew hc, fun m hm => (hvisited m).2 (Or.inr hm), ?_, ?_, ?_⟩
  · show st.toExpand.length + _ ≤ _
    omega
  · intro found exempt hfound hbeam hex
    have hall := fun m (hm : m ∈ found) => h.all_kept hfound (hbeam.trans hfull) hm
    refine ⟨fun m hm haccept => ?_, Or.inr hall⟩
    rcases (hvisited m).1 hm with rfl | hm
    · exact hall m ((hfound m).2 ⟨hreached, haccept⟩)
    · exact hex.accepted m hm haccept
  · intro _ hpos _ _ _ hnil
    have hlen : st.kept.length = 0 := length_eq_zero_iff.2 hnil
    omega

end

theorem sound_start (w : GraphWalk F) (q : LevelQuery F) {visited : VisitedSet} (h : visited.Fresh) :
    Sound w q ⟨[], [], visited.startNewSearch w.nodeCount, 0⟩ ∧
    ∀ found, Exhaustive w q found (fun _ => False) ⟨[], [], visited.startNewSearch w.nodeCount, 0⟩ := by
  obtain ⟨hfresh, hsized, hnone⟩ := startNewSearch_spec h w.nodeCount
  constructor
  · refine ⟨hfresh, hsized, fun n hn => absurd hn (hnone n), ?_, ?_, ?_, nodup_nil, ?_⟩
    · intro s hs
      cases hs
    · intro s hs
      cases hs
    · intro s hs
      cases hs
    · show 0 + _ ≤ w.nodeCount
      rw [Nat.zero_add]
      exact unseen_le
  · intro found
    exact ⟨fun n hn => absurd hn (hnone n), Or.inl fun n hn => absurd hn (hnone n)⟩

/-! ### Heaps -/

variable [LinearOrder F]

variable {kept : List (ScoredNode F)} {beamWidth : ℕ}

theorem mem_keepWithinBeam {node s : ScoredNode F}
    (h : s ∈ keepWithinBeam kept node beamWidth) : s = node ∨ s ∈ kept := by
  rw [keepWithinBeam, pushPop] at h
  split_ifs at h
  · exact mem_push.1 (mem_of_mem_tail h)
  · exact mem_push.1 h

theorem keepWithinBeam_ne_nil {node : ScoredNode F}
    (h : 0 < beamWidth) : keepWithinBeam kept node beamWidth ≠ [] := by
  have hlen : (push rank node kept).length = kept.length + 1 := length_push
  refine ne_nil_of_length_pos ?_
  rw [keepWithinBeam, pushPop]
  split_ifs with hover
  · rw [length_tail]
    omega
  · omega

theorem nodup_keepWithinBeam {node : ScoredNode F} (beamWidth : ℕ)
    (h : (kept.map ScoredNode.node).Nodup) (hnew : node.node ∉ kept.map ScoredNode.node) :
    ((keepWithinBeam kept node beamWidth).map ScoredNode.node).Nodup := by
  have hpush : ((TopK.push ScoredNode.rank node kept).map ScoredNode.node).Nodup := by
    refine (perm_push.map ScoredNode.node).nodup_iff.2 ?_
    rw [map_cons]
    exact nodup_cons.2 ⟨hnew, h⟩
  rw [keepWithinBeam, pushPop]
  split_ifs
  · exact hpush.sublist ((tail_sublist _).map _)
  · exact hpush

theorem mem_keepWithinBeam_of_room (h : kept.length < beamWidth) (node s : ScoredNode F) :
    s ∈ keepWithinBeam kept node beamWidth ↔ s = node ∨ s ∈ kept := by
  rw [keepWithinBeam, pushPop, if_neg, mem_push]
  rw [length_push]
  omega

section

variable {n c : ℕ}

theorem Sound.enqueue (h : Sound w q st) (hlt : n < w.nodeCount) (hreached : w.Reached q n)
    (hnew : ¬st.visited.Visited n) (hc : c ≤ 1) {scored : ScoredNode F} (hnode : scored.node = n)
    (hscored : scored ∈ q.entryPoints ∨ scored = w.score n) :
    Sound w q (enqueue q (GraphWalk.marked st n c) scored) := by
  have hm := h.marked hlt hreached hnew hc
  have hself : (GraphWalk.marked st n c).visited.Visited scored.node :=
    (marked_visited h hlt _).2 (Or.inl hnode)
  have hnot : scored.node ∉ st.kept.map node := hnode ▸ not_mem_kept h hnew
  refine ⟨hm.fresh, hm.sized, hm.reached, ?_, ?_, ?_, ?_, hm.spent⟩
  · intro s hs
    rcases mem_push.1 hs with rfl | hs
    · exact hself
    · exact hm.waiting s hs
  · intro s hs
    rw [GraphWalk.enqueue] at hs
    by_cases haccept : q.accept scored.node
    · rw [if_pos haccept] at hs
      rcases mem_keepWithinBeam hs with rfl | hs
      · exact ⟨hself, haccept⟩
      · exact hm.kept s hs
    · rw [if_neg haccept] at hs
      exact hm.kept s hs
  · intro s hs
    rw [GraphWalk.enqueue] at hs
    by_cases haccept : q.accept scored.node
    · rw [if_pos haccept] at hs
      rcases mem_keepWithinBeam hs with rfl | hs
      · exact hnode ▸ hscored
      · exact hm.scored s hs
    · rw [if_neg haccept] at hs
      exact hm.scored s hs
  · rw [GraphWalk.enqueue]
    by_cases haccept : q.accept scored.node
    · rw [if_pos haccept]
      exact nodup_keepWithinBeam q.beamWidth h.nodup hnot
    · rw [if_neg haccept]
      exact h.nodup

theorem Sound.advance_enqueue (h : Sound w q st) (hlt : n < w.nodeCount) (hreached : w.Reached q n)
    (hnew : ¬st.visited.Visited n) (hc : c ≤ 1) {scored : ScoredNode F} (hnode : scored.node = n)
    (hscored : scored ∈ q.entryPoints ∨ scored = w.score n) :
    Advance w q st (GraphWalk.enqueue q (GraphWalk.marked st n c) scored) := by
  have hvisited : ∀ m, (GraphWalk.marked st n c).visited.Visited m ↔ m = n ∨ st.visited.Visited m :=
    marked_visited h hlt
  have hunseen := h.unseen_marked (c := c) hlt hnew
  refine ⟨h.enqueue hlt hreached hnew hc hnode hscored, fun m hm => (hvisited m).2 (Or.inr hm), ?_, ?_,
    ?_⟩
  · show (push key scored st.toExpand).length + _ ≤ _
    rw [length_push]
    have : unseen w.nodeCount (GraphWalk.enqueue q (GraphWalk.marked st n c) scored).visited.Visited =
        unseen w.nodeCount (GraphWalk.marked st n c).visited.Visited := rfl
    omega
  · intro found exempt hfound hbeam hex
    have hnot := not_mem_kept h hnew
    -- an accepted node is one to be found that is not kept yet, so there is room for it
    have hroom : q.accept n → st.kept.length < q.beamWidth := by
      intro haccept
      by_contra hfull
      exact hnot (h.all_kept hfound (hbeam.trans (not_lt.1 hfull)) ((hfound n).2 ⟨hreached, haccept⟩))
    have hkeeps : ∀ m, m ∈ st.kept.map node ∨ m = n ∧ q.accept n →
        m ∈ (GraphWalk.enqueue q (GraphWalk.marked st n c) scored).kept.map ScoredNode.node := by
      intro m hm
      rw [GraphWalk.enqueue, hnode]
      by_cases haccept : q.accept n
      · rw [if_pos haccept]
        rcases hm with hm | ⟨rfl, -⟩
        · obtain ⟨s, hs, rfl⟩ := mem_map.1 hm
          exact mem_map_of_mem
            ((mem_keepWithinBeam_of_room (hroom haccept) scored s).2 (Or.inr hs))
        · exact mem_map.2
            ⟨scored, (mem_keepWithinBeam_of_room (hroom haccept) scored scored).2 (Or.inl rfl), hnode⟩
      · rw [if_neg haccept]
        exact hm.resolve_right fun hor => haccept hor.2
    constructor
    · intro m hm haccept
      rcases (hvisited m).1 hm with rfl | hm
      · exact hkeeps m (Or.inr ⟨rfl, haccept⟩)
      · exact hkeeps m (Or.inl (hex.accepted m hm haccept))
    · rcases hex.covers with hcovers | hall
      · left
        intro m hm
        rcases (hvisited m).1 hm with rfl | hm
        · exact Or.inl (Or.inl (mem_map.2 ⟨scored, mem_push.2 (Or.inl rfl), hnode⟩))
        · rcases hcovers m hm with (hwait | hexempt) | hlinks
          · obtain ⟨s, hs, rfl⟩ := mem_map.1 hwait
            exact Or.inl (Or.inl (mem_map_of_mem (mem_push.2 (Or.inr hs))))
          · exact Or.inl (Or.inr hexempt)
          · exact Or.inr fun b hb => (hvisited b).2 (Or.inr (hlinks b hb))
      · exact Or.inr fun m hm => hkeeps m (Or.inl (hall m hm))
  · intro hheld hpos m hm haccept
    rw [GraphWalk.enqueue, hnode]
    by_cases hself : q.accept n
    · rw [if_pos hself]
      exact keepWithinBeam_ne_nil hpos
    · rw [if_neg hself]
      rcases (hvisited m).1 hm with rfl | hm
      · exact absurd haccept hself
      · exact hheld hpos m hm haccept

end

theorem Sound.enter (h : Sound w q st) (hclosed : Closed w q) {entry : ScoredNode F}
    (hentry : entry ∈ q.entryPoints) :
    ∃ st', enter q st entry = some st' ∧ Advance w q st st' ∧ st'.visited.Visited entry.node ∧
      st'.computations = st.computations := by
  have hlt := hclosed.entries entry hentry
  have hreached : w.Reached q entry.node := Reach.start (mem_map_of_mem hentry)
  by_cases hnew : st.visited.Visited entry.node
  · refine ⟨st, ?_, Advance.refl h, hnew, rfl⟩
    rw [GraphWalk.enter, mark_of_visited hnew]
    rfl
  · refine ⟨GraphWalk.enqueue q (GraphWalk.marked st entry.node 0) entry, ?_,
      h.advance_enqueue hlt hreached hnew (Nat.zero_le 1) rfl (Or.inl hentry),
      (marked_visited (c := 0) h hlt _).2 (Or.inl rfl), rfl⟩
    rw [GraphWalk.enter, mark_of_not_visited (lt_of_lt_of_le hlt h.sized) hnew]
    rfl

theorem Sound.look (h : Sound w q st) {n : ℕ} (hlt : n < w.nodeCount) (hreached : w.Reached q n) :
    ∃ st', w.look q st n = some st' ∧ Advance w q st st' ∧ st'.visited.Visited n := by
  by_cases hnew : st.visited.Visited n
  · refine ⟨st, ?_, Advance.refl h, hnew⟩
    rw [GraphWalk.look, mark_of_visited hnew]
    rfl
  · have hself : (GraphWalk.marked st n 1).visited.Visited n :=
      (marked_visited (c := 1) h hlt n).2 (Or.inl rfl)
    have hmark := mark_of_not_visited (lt_of_lt_of_le hlt h.sized) hnew
    by_cases hcould : couldEnterBeam q (GraphWalk.marked st n 1) (w.score n)
    · refine ⟨GraphWalk.enqueue q (GraphWalk.marked st n 1) (w.score n), ?_,
        h.advance_enqueue hlt hreached hnew le_rfl rfl (Or.inr rfl), hself⟩
      rw [GraphWalk.look, hmark]
      exact if_pos hcould
    · refine ⟨GraphWalk.marked st n 1, ?_, h.advance_marked hlt hreached hnew le_rfl ?_, hself⟩
      · rw [GraphWalk.look, hmark]
        exact if_neg hcould
      · rw [couldEnterBeam, Bool.or_eq_true, not_or, decide_eq_true_eq] at hcould
        exact not_lt.1 hcould.1

theorem Sound.look_all {l : List ℕ} (hlt : ∀ n ∈ l, n < w.nodeCount)
    (hreached : ∀ n ∈ l, w.Reached q n) (h : Sound w q st) :
    ∃ st', l.foldlM (w.look q) st = some st' ∧ Advance w q st st' ∧
      ∀ n ∈ l, st'.visited.Visited n := by
  induction l generalizing st with
  | nil => exact ⟨st, rfl, Advance.refl h, fun n hn => absurd hn not_mem_nil⟩
  | cons n l ih =>
    obtain ⟨st₁, hlook, hadv, hself⟩ := h.look (hlt n (mem_cons_self ..))
      (hreached n (mem_cons_self ..))
    obtain ⟨st₂, hrest, hadv', hall⟩ := ih (fun m hm => hlt m (mem_cons_of_mem n hm))
      (fun m hm => hreached m (mem_cons_of_mem n hm)) hadv.sound
    refine ⟨st₂, ?_, hadv.trans hadv', fun m hm => ?_⟩
    · rw [foldlM_cons, hlook]
      exact hrest
    · rcases mem_cons.1 hm with rfl | hm
      · exact hadv'.visited m hself
      · exact hall m hm

theorem Sound.enter_all {l : List (ScoredNode F)} (hclosed : Closed w q)
    (hl : ∀ e ∈ l, e ∈ q.entryPoints) (h : Sound w q st) :
    ∃ st', l.foldlM (GraphWalk.enter q) st = some st' ∧ Advance w q st st' ∧
      ∀ e ∈ l, st'.visited.Visited e.node := by
  induction l generalizing st with
  | nil => exact ⟨st, rfl, Advance.refl h, fun n hn => absurd hn not_mem_nil⟩
  | cons e l ih =>
    obtain ⟨st₁, henter, hadv, hself, -⟩ := h.enter hclosed (hl e (mem_cons_self ..))
    obtain ⟨st₂, hrest, hadv', hall⟩ := ih (fun m hm => hl m (mem_cons_of_mem e hm)) hadv.sound
    refine ⟨st₂, ?_, hadv.trans hadv', fun m hm => ?_⟩
    · rw [foldlM_cons, henter]
      exact hrest
    · rcases mem_cons.1 hm with rfl | hm
      · exact hadv'.visited _ hself
      · exact hall m hm

theorem Sound.expand (hclosed : Closed w q) {turns : ℕ} (h : Sound w q st)
    (hturns : st.toExpand.length + unseen w.nodeCount st.visited.Visited < turns) :
    ∃ st' stopped, w.expand q turns st = some (st', stopped) ∧ Sound w q st' ∧
      (∀ n, st.visited.Visited n → st'.visited.Visited n) ∧ (Held q st → Held q st') ∧
      ∀ found, IsFound w q found → found.card ≤ q.beamWidth →
        w.nodeCount < q.maxSimilarityComputations →
        (∀ e ∈ q.entryPoints, st.visited.Visited e.node) →
        Exhaustive w q found (fun _ => False) st →
        stopped = false ∧ ∀ n ∈ found, n ∈ st'.kept.map node := by
  induction turns generalizing st with
  | zero => omega
  | succ turns ih =>
    rw [expand]
    split
    · -- nothing waits any more
      rename_i hnil
      refine ⟨st, false, rfl, h, fun _ hn => hn, fun hheld => hheld,
        fun found hfound hbeam _ hentries hex => ⟨rfl, ?_⟩⟩
      rcases hex.covers with hcovers | hall
      · intro n hn
        obtain ⟨hreached, haccept⟩ := (hfound n).1 hn
        refine hex.accepted n (hcovers.reach (fun s hs => ?_) (fun m hm => ?_) hreached) haccept
        · obtain ⟨e, he, rfl⟩ := mem_map.1 hs
          exact hentries e he
        · rw [hnil] at hm
          rcases hm with hm | hm
          · cases hm
          · exact hm
      · exact hall
    · rename_i candidate rest hcons
      have hcandidate : candidate ∈ st.toExpand := by
        rw [hcons]
        exact mem_cons_self ..
      have hpopped : Sound w q { st with toExpand := rest } :=
        ⟨h.fresh, h.sized, h.reached,
          fun s hs => h.waiting s (by rw [hcons]; exact mem_cons_of_mem _ hs), h.kept,
          h.scored, h.nodup, h.spent⟩
      split_ifs with hdone
      · -- the beam is full, and all that waits is worse
        refine ⟨_, false, rfl, hpopped, fun _ hn => hn, fun hheld => hheld,
          fun found hfound hbeam _ _ _ => ⟨rfl, fun n hn => ?_⟩⟩
        rw [beamDone, Bool.and_eq_true, decide_eq_true_eq] at hdone
        exact h.all_kept hfound (hbeam.trans hdone.1) hn
      · have hreached := h.reached _ (h.waiting candidate hcandidate)
        have hlinks : ∀ m ∈ w.neighbours candidate.node q.level, w.Reached q m := fun m hm =>
          Reach.link hreached hm
        obtain ⟨st₁, hlook, hadv, hall⟩ := hpopped.look_all
          (fun m hm => hclosed.lt (hlinks m hm)) hlinks
        rw [hlook]
        show ∃ st' stopped, (if q.maxSimilarityComputations ≤ st₁.computations then
          some (st₁, true) else w.expand q turns st₁) = some (st', stopped) ∧ _
        have hexhausted : ∀ found, IsFound w q found → found.card ≤ q.beamWidth →
            Exhaustive w q found (fun _ => False) st → Exhaustive w q found (fun _ => False) st₁ := by
          intro found hfound hbeam hex
          -- while its links are looked at, the candidate is exempt
          have hexempt : Exhaustive w q found (fun n => n = candidate.node)
              { st with toExpand := rest } := by
            refine ⟨hex.accepted, hex.covers.imp_left fun hcovers n hn => ?_⟩
            refine (hcovers n hn).imp_left fun hwait => ?_
            rcases hwait with hwait | hwait
            · rw [hcons, map_cons] at hwait
              exact (mem_cons.1 hwait).symm
            · exact absurd hwait not_false
          have hex₁ := hadv.exhaustive found _ hfound hbeam hexempt
          refine ⟨hex₁.accepted, hex₁.covers.imp_left fun hcovers n hn => ?_⟩
          rcases hcovers n hn with (hwait | rfl) | hseen
          · exact Or.inl (Or.inl hwait)
          · exact Or.inr hall
          · exact Or.inr hseen
        split_ifs with hbudget
        · refine ⟨st₁, true, rfl, hadv.sound, hadv.visited, hadv.held, fun found _ _ hmax _ _ => ?_⟩
          have hspent := hadv.sound.spent
          omega
        · have hshrinks := hadv.shrinks
          rw [hcons, length_cons] at hturns
          obtain ⟨st', stopped, hexpand, hsound, hvisited, hheld, hresult⟩ := ih hadv.sound
            (lt_of_le_of_lt hshrinks (by simp only; omega))
          refine ⟨st', stopped, hexpand, hsound, fun n hn => hvisited n (hadv.visited n hn),
            fun h₀ => hheld (hadv.held h₀), fun found hfound hbeam hmax hentries hex => ?_⟩
          exact hresult found hfound hbeam hmax (fun e he => hadv.visited _ (hentries e he))
            (hexhausted found hfound hbeam hex)

structure Answer (w : GraphWalk F) (q : LevelQuery F) (r : LevelSearch F) : Prop where
  reached : ∀ s ∈ r.bestFirst, w.Reached q s.node ∧ q.accept s.node
  scored : ∀ s ∈ r.bestFirst, s ∈ q.entryPoints ∨ s = w.score s.node
  nodup : (r.bestFirst.map ScoredNode.node).Nodup
  best : Ascending ScoredNode.rank r.bestFirst

theorem searchLevel_spec (hclosed : Closed w q) {visited : VisitedSet} (hfresh : visited.Fresh)
    {turns : ℕ} (hturns : w.nodeCount < turns) :
    ∃ r visited', w.searchLevel q visited turns = some (r, visited') ∧ visited'.Fresh ∧
      Answer w q r ∧
      (0 < q.beamWidth → ∀ e ∈ q.entryPoints, q.accept e.node → r.bestFirst ≠ []) ∧
      ∀ found, IsFound w q found → found.card ≤ q.beamWidth →
        w.nodeCount < q.maxSimilarityComputations →
        r.stoppedByBudget = false ∧ (r.bestFirst.map node).toFinset = found := by
  obtain ⟨hstart, hexstart⟩ := sound_start w q hfresh
  obtain ⟨st, henter, hadv, hentries⟩ := hstart.enter_all hclosed fun e he => he
  have hmeasure : st.toExpand.length + unseen w.nodeCount st.visited.Visited < turns := by
    refine lt_of_le_of_lt (hadv.shrinks.trans ?_) hturns
    show 0 + _ ≤ w.nodeCount
    rw [Nat.zero_add]
    exact unseen_le
  obtain ⟨st', stopped, hexpand, hsound, hvisited, hheld, hresult⟩ :=
    hadv.sound.expand hclosed hmeasure
  have hperm : (sortBy rank st'.kept).Perm st'.kept := perm_sortBy _
  refine ⟨⟨sortBy rank st'.kept, stopped⟩, st'.visited, ?_, hsound.fresh,
    ⟨?_, ?_, ?_, ?_⟩, ?_, ?_⟩
  · rw [searchLevel, henter]
    show (w.expand q turns st).bind _ = _
    rw [hexpand]
    rfl
  · intro s hs
    obtain ⟨hvisited, haccept⟩ := hsound.kept s (hperm.mem_iff.1 hs)
    exact ⟨hsound.reached _ hvisited, haccept⟩
  · intro s hs
    exact hsound.scored s (hperm.mem_iff.1 hs)
  · exact (hperm.map _).nodup_iff.2 hsound.nodup
  · refine ascending_sortBy ((pairwise_map.1 hsound.nodup).imp fun {a b} hab heq => hab ?_)
    exact node_of_key_eq (OrderDual.toDual_inj.1 heq)
  · intro hpos e he haccept hnil
    have hstartHeld : Held q ⟨[], [], visited.startNewSearch w.nodeCount, 0⟩ := fun _ n hn =>
      absurd hn ((startNewSearch_spec hfresh w.nodeCount).2.2 n)
    refine hheld (hadv.held hstartHeld) hpos e.node (hvisited _ (hentries e he)) haccept ?_
    have hnone : sortBy rank st'.kept = [] := hnil
    rw [hnone] at hperm
    exact hperm.symm.eq_nil
  · intro found hfound hbeam hmax
    obtain ⟨hstopped, hall⟩ := hresult found hfound hbeam hmax hentries
      (hadv.exhaustive found _ hfound hbeam (hexstart found))
    refine ⟨hstopped, ?_⟩
    ext n
    rw [mem_toFinset, (hperm.map node).mem_iff]
    constructor
    · intro hn
      obtain ⟨s, hs, rfl⟩ := mem_map.1 hn
      obtain ⟨hvisited, haccept⟩ := hsound.kept s hs
      exact (hfound s.node).2 ⟨hsound.reached _ hvisited, haccept⟩
    · exact hall n

def runSearches (turns : ℕ) :
    VisitedSet → List (GraphWalk F × LevelQuery F) → Option (List (LevelSearch F))
  | _, [] => some []
  | visited, (w, q) :: searches => do
    let (r, visited) ← w.searchLevel q visited turns
    let rs ← runSearches turns visited searches
    some (r :: rs)

/-- A search is answered, and with a wide enough beam and no budget by all there is to find. -/
def Exact (search : GraphWalk F × LevelQuery F) (r : LevelSearch F) : Prop :=
  Answer search.1 search.2 r ∧
    ∀ found, IsFound search.1 search.2 found → found.card ≤ search.2.beamWidth →
      search.1.nodeCount < search.2.maxSimilarityComputations →
      r.stoppedByBudget = false ∧ (r.bestFirst.map ScoredNode.node).toFinset = found

theorem runSearches_of_fresh {searches : List (GraphWalk F × LevelQuery F)} {turns : ℕ}
    (hclosed : ∀ s ∈ searches, Closed s.1 s.2) (hturns : ∀ s ∈ searches, s.1.nodeCount < turns)
    {visited : VisitedSet} (hfresh : visited.Fresh) :
    ∃ rs, runSearches turns visited searches = some rs ∧ Forall₂ Exact searches rs := by
  induction searches generalizing visited with
  | nil => exact ⟨[], rfl, .nil⟩
  | cons search searches ih =>
    obtain ⟨r, visited', hsearch, hfresh', hanswer, -, hall⟩ := searchLevel_spec
      (hclosed search (mem_cons_self ..)) hfresh (hturns search (mem_cons_self ..))
    obtain ⟨rs, hrest, hexact⟩ := ih (fun s hs => hclosed s (mem_cons_of_mem _ hs))
      (fun s hs => hturns s (mem_cons_of_mem _ hs)) hfresh'
    refine ⟨r :: rs, ?_, .cons ⟨hanswer, hall⟩ hexact⟩
    rw [runSearches, hsearch]
    show (runSearches turns visited' searches).bind _ = _
    rw [hrest]
    rfl

/-- Searches on any graphs, one after the other with the visited set of a new thread, return; and
each gives the accepted nodes that can be reached when it is allowed to. -/
theorem runSearches_spec (searches : List (GraphWalk F × LevelQuery F)) {turns : ℕ}
    (hclosed : ∀ s ∈ searches, Closed s.1 s.2) (hturns : ∀ s ∈ searches, s.1.nodeCount < turns) :
    ∃ rs, runSearches turns .default searches = some rs ∧ Forall₂ Exact searches rs :=
  runSearches_of_fresh hclosed hturns fresh_default

def sampleSearch : GraphWalk ℕ × LevelQuery ℕ :=
  (⟨fun n _ => if n = 0 then [1] else [0], fun n => n, 0, 2⟩,
    ⟨[salted 0 0 0], 1, 0, fun n => n = 1, 3⟩)

theorem closed_sampleSearch : Closed sampleSearch.1 sampleSearch.2 := by
  constructor
  · intro e he
    rw [mem_singleton.1 he]
    decide
  · intro n _ m hm
    have hlink : m ∈ (if n = 0 then [1] else [0]) := hm
    show m < 2
    split_ifs at hlink
    · rw [mem_singleton.1 hlink]
      omega
    · rw [mem_singleton.1 hlink]
      omega

theorem runSearches_spec_sample :
    ∃ rs, runSearches 3 .default [sampleSearch, sampleSearch] = some rs ∧
      Forall₂ Exact [sampleSearch, sampleSearch] rs := by
  refine runSearches_spec [sampleSearch, sampleSearch] ?_ ?_
  · intro s hs
    obtain rfl : s = sampleSearch := by simpa using hs
    exact closed_sampleSearch
  · intro s hs
    obtain rfl : s = sampleSearch := by simpa using hs
    show 2 < 3
    omega

end GraphWalk

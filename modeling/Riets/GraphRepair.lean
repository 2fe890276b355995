/-
What the repair of a vector graph reaches.

A round links every stranded node to a node that is reached: to one of its own links
when one of these is reached, to what a search finds otherwise.  A link that is put into a
full list pushes another one out; when every list that can be chosen has room for the
nodes that can choose it (`HasRoom`), all links stay and one round connects the graph.
-/
import Mathlib.Tactic.IntervalCases
import Riets.GraphBuilder

open Reachability

namespace GraphUnderConstruction

open List Option Nat GraphWalk

variable {g : GraphUnderConstruction}

/-- The lists of level 0 hold nodes of the graph and are within their bound. -/
structure Valid (g : GraphUnderConstruction) : Prop where
  present : ∀ n, n < g.nodeCount ↔ ∃ list, g.neighbours? n 0 = some list
  entry : g.entryNode < g.nodeCount
  room : 0 < g.maxLinksLevel0
  links : ∀ n, ∀ m ∈ g.level0 n, m < g.nodeCount
  bound : ∀ n, (g.level0 n).length ≤ g.maxLinksLevel0

def Reached (g : GraphUnderConstruction) (n : ℕ) : Prop := Reach g.level0 [g.entryNode] n

theorem Reached.lt (h : g.Valid) {n : ℕ} (hn : g.Reached n) : n < g.nodeCount := by
  refine hn.induction (fun s hs => ?_) fun a _ _ b hb => h.links a b hb
  rw [mem_singleton.1 hs]
  exact h.entry

theorem Valid.neighbours? (h : g.Valid) {n : ℕ} (hn : n < g.nodeCount) :
    g.neighbours? n 0 = some (g.level0 n) := by
  obtain ⟨list, hlist⟩ := (h.present n).1 hn
  rw [level0, neighbours, hlist]
  rfl

/-! ### The marks -/

def Marked (reachable : List Bool) (n : ℕ) : Prop := reachable[n]? = some true

instance (reachable : List Bool) : DecidablePred (Marked reachable) := fun n =>
  inferInstanceAs (Decidable (reachable[n]? = some true))

variable {reachable : List Bool}

theorem Marked.lt {n : ℕ} (h : Marked reachable n) : n < reachable.length :=
  (List.getElem?_eq_some_iff.1 h).1

section

variable {F : Type} [LinearOrder F] {dot : ℕ → ℕ → F} {maxLinks anchor node v : ℕ} {list : List ℕ}

end

/-! ### Linking one node -/

structure SameNodes (g g' : GraphUnderConstruction) : Prop where
  count : g'.nodeCount = g.nodeCount
  entry : g'.entryNode = g.entryNode
  room : g'.maxLinksLevel0 = g.maxLinksLevel0

theorem SameNodes.trans {g' g'' : GraphUnderConstruction} (h : SameNodes g g')
    (h' : SameNodes g' g'') : SameNodes g g'' :=
  ⟨h'.count.trans h.count, h'.entry.trans h.entry, h'.room.trans h.room⟩

/-- What linking nodes keeps. -/
structure Linked (st st' : Repair) : Prop where
  valid : st'.graph.Valid
  same : SameNodes st.graph st'.graph
  fresh : st'.visited.Fresh

theorem Linked.trans {st st' st'' : Repair} (h : Linked st st') (h' : Linked st' st'') : Linked st st'' :=
  ⟨h'.valid, h.same.trans h'.same, h'.fresh⟩

/-- One more link in the list of `anchor`, which loses none of its own where it has room. -/
structure LinkedAt (g g' : GraphUnderConstruction) (anchor node : ℕ) : Prop where
  link : node ∈ g'.level0 anchor
  others : ∀ u, u ≠ anchor → g'.level0 u = g.level0 u
  grows : (g'.level0 anchor).length ≤ (g.level0 anchor).length + 1
  keeps : (g.level0 anchor).length < g.maxLinksLevel0 → ∀ v ∈ g.level0 anchor, v ∈ g'.level0 anchor

/-- Node `u` can be chosen for `node`: it is one of its links, or none of these is marked. -/
def MayAnchor (g : GraphUnderConstruction) (reachable : List Bool) (u node : ℕ) : Prop :=
  u ∈ g.level0 node ∨ ∀ m ∈ g.level0 node, ¬Marked reachable m

instance (g : GraphUnderConstruction) (reachable : List Bool) (u : ℕ) : DecidablePred (g.MayAnchor reachable u) :=
  fun node => inferInstanceAs (Decidable (u ∈ g.level0 node ∨ ∀ m ∈ g.level0 node, ¬Marked reachable m))

section

variable {F : Type} [LinearOrder F] {dot : ℕ → ℕ → F}

/-- The list of each marked node has room for all nodes that can choose it. -/
def RoomFor (g : GraphUnderConstruction) (reachable : List Bool) (nodes : List ℕ) : Prop :=
  ∀ u, Marked reachable u →
    (g.level0 u).length + (nodes.filter (g.MayAnchor reachable u ·)).length ≤ g.maxLinksLevel0

/-- Linking takes the room of one node. -/
theorem RoomFor.linked {g' : GraphUnderConstruction} {anchor node : ℕ} {nodes : List ℕ}
    (h : g.RoomFor reachable (node :: nodes)) (hsame : SameNodes g g') (hmark : Marked reachable anchor)
    (hmay : g.MayAnchor reachable anchor node) (hat : LinkedAt g g' anchor node)
    (hnodes : ∀ n ∈ nodes, ¬Marked reachable n) : g'.RoomFor reachable nodes := by
  intro u hu
  have hroom := h u hu
  -- the lists of the nodes to come are as before, for they are not marked
  have hfilter : nodes.filter (g'.MayAnchor reachable u ·) = nodes.filter (g.MayAnchor reachable u ·) := by
    refine filter_congr fun n hn => ?_
    have hne : n ≠ anchor := fun heq => hnodes n hn (heq ▸ hmark)
    exact decide_eq_decide.2 (by rw [MayAnchor, MayAnchor, hat.others n hne])
  rw [hfilter, hsame.room]
  rw [filter_cons] at hroom
  by_cases hu' : u = anchor
  · subst hu'
    rw [if_pos (decide_eq_true hmay), length_cons] at hroom
    have := hat.grows
    omega
  · rw [hat.others u hu']
    split_ifs at hroom
    · rw [length_cons] at hroom
      omega
    · exact hroom

end

end GraphUnderConstruction

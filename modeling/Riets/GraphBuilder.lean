/-
A vector graph under construction, and its repair.

Each node has a list of links on each of its levels; the lists of level 0 have twice the
room of the others.  When all nodes are inserted `connectUnreachable` gives each node
that cannot be reached on level 0 a link from a node that can be, round after round.  As
in the walk, `none` stands for an index out of range and for a loop that has not
returned.
-/
import Mathlib.Data.List.MinMax
import Riets.GraphWalk

structure GraphUnderConstruction where
  maxLinksUpper : ℕ
  maxLinksLevel0 : ℕ
  entryNode : ℕ
  nodeLevels : List ℕ
  neighbourLists : List (List (List ℕ))
  deriving DecidableEq

namespace GraphUnderConstruction

def nodeCount (g : GraphUnderConstruction) : ℕ := g.nodeLevels.length

def maxLinksAt (g : GraphUnderConstruction) (level : ℕ) : ℕ :=
  if level = 0 then g.maxLinksLevel0 else g.maxLinksUpper

def neighbours? (g : GraphUnderConstruction) (node level : ℕ) : Option (List ℕ) :=
  g.neighbourLists[node]?.bind fun lists => lists[level]?

def neighbours (g : GraphUnderConstruction) (node level : ℕ) : List ℕ :=
  (g.neighbours? node level).getD []

def level0 (g : GraphUnderConstruction) (node : ℕ) : List ℕ := g.neighbours node 0

variable {F : Type} [LinearOrder F] (dot : ℕ → ℕ → F)

structure Repair where
  graph : GraphUnderConstruction
  visited : VisitedSet

end GraphUnderConstruction

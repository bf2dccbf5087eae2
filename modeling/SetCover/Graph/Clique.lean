import SetCover.Graph.Basic

/-!
# Greedy cliques

A clique is grown node by node.  The candidates are the nodes adjacent to all nodes picked so far,
at first all nodes of the graph.  The next pick is the candidate of greatest weight, its own cost
plus the costs of its neighbours among the candidates; of equally heavy ones it is the first.

The result is a clique that no node extends, though not always the heaviest one.
-/

namespace SetCover

/-- One step of the growth of a clique. -/
structure Pick where
  node : Nat
  /-- The number of candidates among which the node was picked. -/
  candidates : Nat
  deriving DecidableEq, Repr

structure Clique (κ : Type) where
  picks : List Pick
  cost : κ
  deriving DecidableEq

namespace Clique

def nodes {κ : Type} (clique : Clique κ) : List Nat := clique.picks.map Pick.node

end Clique

namespace Graph

variable {κ : Type} [Cost κ]

/-- The cost of a node plus the costs of its neighbours among the candidates, added in ascending
order. -/
def weight (graph : Graph κ) (neighbours candidates : List Nat) (node : Nat) : κ :=
  Cost.sumFrom (graph.costOf node)
    ((Ascending.common neighbours candidates).map graph.costOf)

/-- The first candidate of greatest weight. -/
def heaviest? (graph : Graph κ) (adjacency : Array (List Nat)) (candidates : List Nat) :
    Option Nat :=
  let weighted := candidates.map fun node ↦
    (node, graph.weight (adjacency.getD node []) candidates node)
  (weighted.maxOn? Prod.snd).map Prod.fst

/-- Picks nodes until no candidate is left.  A pick is no candidate any more, so there are at most
as many steps as candidates. -/
def grow (graph : Graph κ) (adjacency : Array (List Nat)) : Nat → List Nat → List Pick
  | 0, _ => []
  | steps + 1, candidates =>
    match graph.heaviest? adjacency candidates with
    | none => []
    | some node =>
      ⟨node, candidates.length⟩ ::
        grow graph adjacency steps (Ascending.common candidates (adjacency.getD node []))

/-- The greedy clique of a graph and its cost, added in the order of the picks. -/
def clique (graph : Graph κ) : Clique κ :=
  let picks := graph.grow graph.adjacency graph.size (List.range graph.size)
  ⟨picks, Cost.sumFrom Cost.zero (picks.map fun pick ↦ graph.costOf pick.node)⟩

/-- Grows the greedy clique.  The graph is left with the neighbours of its nodes in order; it can be
changed and solved again. -/
def solve (graph : Graph κ) : Clique κ × Graph κ := (graph.clique, graph.tidied)

end Graph

end SetCover

import SetCover.Ascending
import SetCover.Cost.Basic

/-!
# Weighted graphs

An undirected graph on the nodes `0, 1, …, n - 1`, each with a cost.  Edges are noted down as they
come, in either direction and as often as they come; `adjacency` reads off the neighbours of every node
in ascending order, each once, and `tidied` is the graph that has them noted down in this way.
-/

namespace SetCover

/-- An undirected graph whose nodes carry costs. -/
structure Graph (κ : Type) where
  costs : Array κ
  /-- The neighbours of every node as they were noted down, in any order and any number of times. -/
  noted : Array (List Nat)
  deriving DecidableEq

namespace Graph

variable {κ : Type} [Cost κ]

def isolated (size : Nat) : Graph κ := ⟨Array.replicate size Cost.zero, Array.replicate size []⟩

omit [Cost κ] in
def size (graph : Graph κ) : Nat := graph.costs.size

def costOf (graph : Graph κ) (node : Nat) : κ := graph.costs.getD node Cost.zero

def setCost (graph : Graph κ) (node : Nat) (cost : κ) : Except Fault (Graph κ) :=
  if node < graph.size then
    .ok { graph with costs := graph.costs.setIfInBounds node cost }
  else
    .error (.nodeOutOfRange node graph.size)

/-- Notes an edge down at one of its ends. -/
def note (graph : Graph κ) (node neighbour : Nat) : Graph κ :=
  { graph with noted := graph.noted.modify node (neighbour :: ·) }

/-- Adds an edge.  A loop changes nothing. -/
def connect (graph : Graph κ) (left right : Nat) : Except Fault (Graph κ) :=
  if left < graph.size ∧ right < graph.size then
    .ok (if left = right then graph else (graph.note left right).note right left)
  else
    .error (.edgeOutOfRange left right graph.size)

/-- The neighbours of all nodes, in ascending order and each once. -/
def adjacency (graph : Graph κ) : Array (List Nat) :=
  graph.noted.map Ascending.ofList

def tidied (graph : Graph κ) : Graph κ := { graph with noted := graph.adjacency }

end Graph

end SetCover

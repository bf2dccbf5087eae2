/-!
# Circular lists

Nodes are numbered, and every node has a previous and a next node.  The nodes form rings; a node that
is alone in its ring is its own neighbour on both sides.

Every change is made of one step, `join`, which makes two nodes neighbours.  A detached node keeps
its own links, so `reattach` puts it back between its old neighbours, provided that the ring looks
as it did right after the node was detached.
-/

namespace SetCover

/-- The neighbours of all nodes. -/
structure Links where
  before : Array Nat
  after : Array Nat
  deriving DecidableEq

namespace Links

def isolated (size : Nat) : Links := ⟨Array.range size, Array.range size⟩

def size (links : Links) : Nat := links.after.size

def prev (links : Links) (node : Nat) : Nat := links.before.getD node node

def next (links : Links) (node : Nat) : Nat := links.after.getD node node

def join (links : Links) (left right : Nat) : Links where
  before := links.before.setIfInBounds right left
  after := links.after.setIfInBounds left right

/-- Takes a node out of its ring; its own links stay. -/
def detach (links : Links) (node : Nat) : Links :=
  links.join (links.prev node) (links.next node)

def insertBetween (links : Links) (left node right : Nat) : Links :=
  (links.join left node).join node right

/-- Puts a detached node back between the nodes that its own links name. -/
def reattach (links : Links) (node : Nat) : Links :=
  links.insertBetween (links.prev node) node (links.next node)

/-- Makes sure that a node exists; new nodes are alone in their rings. -/
def reserve (links : Links) (node : Nat) : Links :=
  if node < links.size then links
  else
    let added := Array.range' links.size (node + 1 - links.size)
    ⟨links.before ++ added, links.after ++ added⟩

/-- Walks from a node until the stop, in at most the given number of steps. -/
def walk (step : Nat → Nat) (stop : Nat) : Nat → Nat → List Nat
  | 0, _ => []
  | steps + 1, node => if node = stop then [] else node :: walk step stop steps (step node)

/-- The other nodes of a ring, following the head.  A ring has at most as many nodes as there are. -/
def ring (links : Links) (head : Nat) : List Nat :=
  walk links.next head links.size (links.next head)

/-- The other nodes of a ring, from the one before the head backwards. -/
def ringBack (links : Links) (head : Nat) : List Nat :=
  walk links.prev head links.size (links.prev head)

/-- The neighbours between which a new node of the given rank belongs, if the ring is ascending and
has no node of this rank yet. -/
def gap? (links : Links) (rank : Nat → Nat) (head position : Nat) : Option (Nat × Nat) :=
  match (links.ring head).find? fun node ↦ position ≤ rank node with
  | none => some (links.prev head, head)
  | some node => if rank node = position then none else some (links.prev node, node)

@[simp]
theorem size_join (links : Links) (left right : Nat) : (links.join left right).size = links.size := by
  simp [join, size]

@[simp]
theorem size_detach (links : Links) (node : Nat) : (links.detach node).size = links.size :=
  size_join ..

@[simp]
theorem size_reattach (links : Links) (node : Nat) : (links.reattach node).size = links.size := by
  simp [reattach, insertBetween]

theorem next_join (links : Links) (left right node : Nat) (hleft : left < links.after.size) :
    (links.join left right).next node = if node = left then right else links.next node := by
  by_cases heq : node = left
  · subst heq
    simp [join, next, hleft]
  · simp [join, next, Ne.symm heq, heq]

theorem prev_join (links : Links) (left right node : Nat) (hright : right < links.before.size) :
    (links.join left right).prev node = if node = right then left else links.prev node := by
  by_cases heq : node = right
  · subst heq
    simp [join, prev, hright]
  · simp [join, prev, Ne.symm heq, heq]

end Links

end SetCover

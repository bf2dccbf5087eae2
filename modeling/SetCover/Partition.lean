import SetCover.Fault

/-!
# Partitions

A partition of `0, 1, …, n - 1` into classes, kept as a forest.  Every element has a parent; an
element that is its own parent represents its class.  Of two classes that are merged, the one of
the lower rank goes below the other, and looking an element up hangs everything on its path directly
below the representative.
-/

namespace SetCover

/-- A partition of an initial segment of the natural numbers. -/
structure Partition where
  parent : Array Nat
  rank : Array Nat
  deriving DecidableEq

namespace Partition

def singletons (size : Nat) : Partition := ⟨Array.range size, Array.replicate size 0⟩

def size (partition : Partition) : Nat := partition.parent.size

def parentOf (partition : Partition) (element : Nat) : Nat :=
  partition.parent.getD element element

def rankOf (partition : Partition) (element : Nat) : Nat :=
  partition.rank.getD element 0

/-- Climbs from an element to an element that is its own parent, in at most the given number of
steps. -/
def climb (partition : Partition) : Nat → Nat → Nat
  | 0, element => element
  | steps + 1, element =>
    if partition.parentOf element = element then element
    else climb partition steps (partition.parentOf element)

/-- The representative of the class of an element.  A path has at most as many steps as there are
elements. -/
def root (partition : Partition) (element : Nat) : Nat :=
  partition.climb partition.size element

def hang (partition : Partition) (element parent : Nat) : Partition :=
  { partition with parent := partition.parent.setIfInBounds element parent }

/-- Hangs the elements on the path from an element directly below its representative. -/
def compress (root : Nat) : Nat → Nat → Partition → Partition
  | 0, _, partition => partition
  | steps + 1, element, partition =>
    if partition.parentOf element = root then partition
    else compress root steps (partition.parentOf element) (partition.hang element root)

/-- The representative of an element, with the path to it shortened. -/
def locate (partition : Partition) (element : Nat) : Nat × Partition :=
  (partition.root element, compress (partition.root element) partition.size element partition)

/-- Puts the lower one of two representatives below the other; of two of equal rank the first stays
and its rank grows. -/
def link (partition : Partition) (left right : Nat) : Nat × Partition :=
  if left = right then
    (left, partition)
  else if partition.rankOf left < partition.rankOf right then
    (right, partition.hang left right)
  else if partition.rankOf left = partition.rankOf right then
    let hung := partition.hang right left
    (left, { hung with rank := hung.rank.setIfInBounds left (hung.rankOf left + 1) })
  else
    (left, partition.hang right left)

/-- Merges the classes of two elements, with the representative of the result. -/
def unite (partition : Partition) (left right : Nat) : Nat × Partition :=
  let (leftRoot, partition) := partition.locate left
  let (rightRoot, partition) := partition.locate right
  partition.link leftRoot rightRoot

/-- Merges the classes of the first element and of each of the others. -/
def uniteAll (partition : Partition) : List Nat → Partition
  | [] => partition
  | first :: others => others.foldl (fun partition other ↦ (partition.unite first other).2) partition

/-! ## Checked access -/

/-- Calls on a partition.  What a refused call has already shortened stays so. -/
abbrev Call (α : Type) := EStateM Fault Partition α

def requireElement (element : Nat) : Call Unit := do
  let partition ← get
  if partition.size ≤ element then
    throw (.elementOutOfRange element partition.size)

def find (element : Nat) : Call Nat := do
  requireElement element
  modifyGet fun partition ↦ partition.locate element

def merge (left right : Nat) : Call Nat := do
  let leftRoot ← find left
  let rightRoot ← find right
  modifyGet fun partition ↦ partition.link leftRoot rightRoot

@[simp]
theorem size_singletons (size : Nat) : (singletons size).size = size := by
  simp [singletons, Partition.size]

@[simp]
theorem size_hang (partition : Partition) (element parent : Nat) :
    (partition.hang element parent).size = partition.size := by
  simp [hang, size]

theorem parentOf_hang (partition : Partition) (element parent other : Nat)
    (helement : element < partition.size) :
    (partition.hang element parent).parentOf other =
      if other = element then parent else partition.parentOf other := by
  unfold size at helement
  by_cases heq : other = element
  · subst heq
    simp [hang, parentOf, helement]
  · simp [hang, parentOf, Ne.symm heq, heq]

theorem parentOf_singletons (size element : Nat) :
    (singletons size).parentOf element = element := by
  by_cases h : element < size <;> simp [singletons, parentOf, h]

end Partition

end SetCover

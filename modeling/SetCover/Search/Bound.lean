import SetCover.Graph.Clique
import SetCover.Partition
import SetCover.Search.Workbench

/-!
# A lower bound on the cost of a cover

Rows that are linked by a chain of common columns form a group.  Rows of different groups need
different columns, so a set of such rows costs at least the sum of their cheapest columns.  The set
is a greedy clique of the graph in which rows of different groups are adjacent.
-/

namespace SetCover

namespace Matrix

variable {κ : Type}

/-- The groups of the active rows: rows that have a column in common are in one group. -/
def groups (matrix : Matrix κ) : Partition :=
  matrix.activeColumns.foldl (fun partition column ↦ partition.uniteAll (matrix.rowsOf column))
    (Partition.singletons matrix.rowSize)

def cheapest? [Cost κ] (matrix : Matrix κ) (row : Nat) : Option κ :=
  ((matrix.columnsOf row).map matrix.costOf).minOn? id

/-- The cost of the cheapest column of a row, which must have one. -/
def cheapest [Cost κ] (matrix : Matrix κ) (row : Nat) : Except Fault κ :=
  match matrix.cheapest? row with
  | none => .error (.breach (.emptyRow row))
  | some cost => .ok cost

end Matrix

/-- The graph of the given nodes in which those of different groups are adjacent. -/
def Graph.multipartite {κ : Type} (costs : List κ) (groups : List Nat) : Graph κ where
  costs := costs.toArray
  noted := (groups.map fun group ↦
    (groups.zipIdx.filter fun (other, _) ↦ other != group).map Prod.snd).toArray

/-- The greedy clique of active rows that need different columns, each at the cost of its cheapest
column.  Its nodes are positions in the list of the active rows. -/
def Matrix.disjointRows {κ : Type} [Cost κ] (matrix : Matrix κ) : Except Fault (Clique κ) := do
  let rows := matrix.activeRows
  let costs ← rows.mapM matrix.cheapest
  return (Graph.multipartite costs (rows.map matrix.groups.root)).clique

namespace Workbench

variable {κ : Type} [Cost κ]

/-- A lower bound on the cost of every cover of the active rows. -/
def lowerBound : Work κ κ := do
  let matrix ← table
  if matrix.isEmpty then
    return Cost.zero
  match matrix.disjointRows with
  | .error fault => throw fault
  | .ok clique =>
    report fun matrix ↦ Event.ofClique clique ++
      [.bounded clique.cost clique.picks.length matrix.activeRows.length]
    return clique.cost

end Workbench

end SetCover

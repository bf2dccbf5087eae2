import SetCover.Ascending
import SetCover.Search.Workbench

/-!
# Dominance

A row whose columns include those of another row is covered whenever that one is, so it can be
deleted.  A column whose rows are covered by another column at no higher cost is never needed, so it
can be deleted too.  Of two equal rows the first stays; of two equal columns the cheaper one, and at
equal cost the first.

A dominated row meets every column of the row below it, in particular the one with the fewest cells,
so only the rows of that column are looked at; likewise for columns.
-/

namespace SetCover

namespace Matrix

variable {κ : Type}

/-- The active lines of an axis, those with fewer cells first. -/
def activeBySize (matrix : Matrix κ) (axis : Axis) : List Nat :=
  (matrix.active axis).mergeSort fun left right ↦
    matrix.count ⟨axis, left⟩ ≤ matrix.count ⟨axis, right⟩

/-- The first of the shortest lines that a line meets. -/
def shortestCrossing? (matrix : Matrix κ) (line : Line) : Option Nat :=
  (matrix.crossing line).minOn? fun index ↦ matrix.count ⟨line.axis.cross, index⟩

/-- Whether the columns of a row are among those of another row, which is longer or, if they are
equal, comes later. -/
def rowDominates (matrix : Matrix κ) (row other : Nat) : Bool :=
  let size := matrix.count (.row row)
  let otherSize := matrix.count (.row other)
  (size < otherSize || (otherSize == size && row < other)) &&
    Ascending.within (matrix.columnsOf row) (matrix.columnsOf other)

def dominatedRows (matrix : Matrix κ) (row : Nat) : List Nat :=
  match matrix.shortestCrossing? (.row row) with
  | none => []
  | some column => (matrix.rowsOf column).filter (matrix.rowDominates row)

/-- Whether a column covers the rows of another column at no higher cost; of equal columns the
cheaper one dominates and, at equal cost, the first. -/
def columnDominates [Cost κ] (matrix : Matrix κ) (column other : Nat) : Bool :=
  let size := matrix.count (.column column)
  let otherSize := matrix.count (.column other)
  let order := compare (matrix.costOf column) (matrix.costOf other)
  otherSize ≤ size &&
    (if otherSize < size then order.isLE else order.isLT || (order.isEq && column < other)) &&
    Ascending.within (matrix.rowsOf other) (matrix.rowsOf column)

def dominator? [Cost κ] (matrix : Matrix κ) (column : Nat) : Option Nat :=
  match matrix.shortestCrossing? (.column column) with
  | none => none
  | some row => (matrix.columnsOf row).find? fun other ↦
      other != column && matrix.columnDominates other column

end Matrix

namespace Workbench

variable {κ : Type}

def deleteDominatedRow (row dominated : Nat) : Work κ Unit := do
  note (.rowContains dominated row)
  delete (.row dominated)
  count fun stats ↦ { stats with dominatedRows := stats.dominatedRows + 1 }

/-- Deletes the rows that a row makes superfluous and answers how many there were. -/
def deleteRowsDominatedBy (row : Nat) : Work κ Nat := do
  let matrix ← table
  if matrix.isActive (.row row) then
    let dominated := matrix.dominatedRows row
    dominated.forM (deleteDominatedRow row)
    return dominated.length
  else
    return 0

/-- Deletes every row that contains another row, and says whether there was one. -/
def rowDominance : Work κ Bool := do
  let rows := (← table).activeBySize .row
  let deleted ← rows.foldlM (fun deleted row ↦ return deleted + (← deleteRowsDominatedBy row)) 0
  return 0 < deleted

/-- Deletes a column if another one makes it superfluous, and answers how many columns that are. -/
def deleteColumnIfDominated [Cost κ] (column : Nat) : Work κ Nat := do
  let matrix ← table
  if matrix.isActive (.column column) then
    match matrix.dominator? column with
    | none => return 0
    | some dominator =>
      note (.columnDominated column dominator)
      delete (.column column)
      count fun stats ↦ { stats with dominatedColumns := stats.dominatedColumns + 1 }
      return 1
  else
    return 0

/-- Deletes every column that another column makes superfluous, and says whether there was one. -/
def columnDominance [Cost κ] : Work κ Bool := do
  let columns := (← table).activeBySize .column
  let deleted ← columns.foldlM
    (fun deleted column ↦ return deleted + (← deleteColumnIfDominated column)) 0
  return 0 < deleted

end Workbench

end SetCover

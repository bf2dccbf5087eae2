import SetCover.Arena
import SetCover.Cost.Basic
import SetCover.Line
import SetCover.Lines

/-!
# Reversible covering tables

A `Matrix` is a sparse table of rows and columns in which a cell says that its column covers its
row.  Every column has a cost.  Lines can be deleted and restored: the history lists the deletions
that are in force, the latest first, with markers between them.

The cells live in an arena, and every cell hangs in two rings, that of its row and that of its
column.  A line is active as long as it has a cell and has not been deleted.
-/

namespace SetCover

structure Cell where
  row : Nat
  column : Nat
  deriving DecidableEq, Repr

def Cell.along (cell : Cell) : Axis → Nat
  | .row => cell.row
  | .column => cell.column

/-- An entry of the history. -/
inductive Record where
  | marker
  | deleted (line : Line)
  deriving DecidableEq, Repr

/-- The line whose deletion is recorded, if it is not a marker. -/
def Record.line? : Record → Option Line
  | .marker => none
  | .deleted line => some line

/-- A covering table whose deletions can be taken back. -/
structure Matrix (κ : Type) where
  rows : Lines
  columns : Lines
  cells : Arena Cell
  costs : Array κ
  /-- The deletions in force and the markers between them, the latest first. -/
  history : List Record
  deriving DecidableEq

namespace Matrix

variable {κ : Type}

def lines (matrix : Matrix κ) : Axis → Lines
  | .row => matrix.rows
  | .column => matrix.columns

def modifyLines (axis : Axis) (change : Lines → Lines) (matrix : Matrix κ) : Matrix κ :=
  match axis with
  | .row => { matrix with rows := change matrix.rows }
  | .column => { matrix with columns := change matrix.columns }

def rowSize (matrix : Matrix κ) : Nat := matrix.rows.size

def columnSize (matrix : Matrix κ) : Nat := matrix.columns.size

/-- The number of cells that were ever inserted, whether or not they are in force. -/
def cellCount (matrix : Matrix κ) : Nat := matrix.cells.size

def depth (matrix : Matrix κ) : Nat := matrix.history.length

/-- The index along an axis of the cell in a slot, if there is one. -/
def indexAt? (matrix : Matrix κ) (axis : Axis) (slot : Nat) : Option Nat :=
  (matrix.cells.get? slot).map (·.along axis)

/-! ## Views of the lines -/

def active (matrix : Matrix κ) (axis : Axis) : List Nat := (matrix.lines axis).active

def activeRows (matrix : Matrix κ) : List Nat := matrix.active .row

def activeColumns (matrix : Matrix κ) : List Nat := matrix.active .column

/-- Whether no row is left to cover. -/
def isEmpty (matrix : Matrix κ) : Bool := matrix.rows.first?.isNone

def isActive (matrix : Matrix κ) (line : Line) : Bool :=
  (matrix.lines line.axis).isActive line.index

/-- The number of cells of a line; a deleted line has those that it had when it was deleted. -/
def count (matrix : Matrix κ) (line : Line) : Nat :=
  (matrix.lines line.axis).count line.index

def slots (matrix : Matrix κ) (line : Line) : List Nat :=
  (matrix.lines line.axis).slots line.index

/-- The lines that a line meets, in ascending order; a deleted line meets those that it met when it
was deleted. -/
def crossing (matrix : Matrix κ) (line : Line) : List Nat :=
  (matrix.slots line).filterMap (matrix.indexAt? line.axis.cross)

def columnsOf (matrix : Matrix κ) (row : Nat) : List Nat := matrix.crossing (.row row)

def rowsOf (matrix : Matrix κ) (column : Nat) : List Nat := matrix.crossing (.column column)

def costOf [Cost κ] (matrix : Matrix κ) (column : Nat) : κ := matrix.costs.getD column Cost.unit

/-! ## Making tables -/

/-- The empty table of the given shape.  Costs of `dimension` components are asked for, and the
costs in use must have as many. -/
def new [Cost κ] (rowSize columnSize dimension : Nat) : Except Fault (Matrix κ) :=
  if dimension = Cost.dimension κ then
    .ok {
      rows := Lines.empty rowSize
      columns := Lines.empty columnSize
      cells := Arena.empty
      costs := Array.replicate columnSize Cost.unit
      history := [] }
  else
    .error (.dimensionMismatch dimension (Cost.dimension κ))

/-- Removes all cells and forgets the history and the costs.  The shape stays, and the slots of the
cells are filled again. -/
def clear [Cost κ] (matrix : Matrix κ) : Matrix κ where
  rows := Lines.empty matrix.rowSize
  columns := Lines.empty matrix.columnSize
  cells := matrix.cells.releaseFrom 0
  costs := Array.replicate matrix.columnSize Cost.unit
  history := []

/-! ## Calls -/

/-- Calls that change a table.  The state that a refused call leaves behind is part of its
outcome. -/
abbrev Edit (κ : Type) (α : Type) := EStateM Fault (Matrix κ) α

/-- Lets the lines of the table through. -/
def requireLine (line : Line) : Edit κ Unit := do
  let size := ((← get).lines line.axis).size
  if size ≤ line.index then
    throw (.lineOutOfRange line size)

end Matrix

end SetCover

import SetCover.Cost.Basic

/-!
# Snapshots

A snapshot is a plain image of what is live in a table: its shape, the active lines, the cells in
force in row-major order, and the costs of all columns.  Cells are looked up by bisection, which
relies on their order.
-/

namespace SetCover

/-- The live part of a table. -/
structure Snapshot (κ : Type) where
  rowSize : Nat
  columnSize : Nat
  rows : List Nat
  columns : List Nat
  /-- The cells in force, by row and then by column. -/
  cells : Array (Nat × Nat)
  costs : List κ
  deriving DecidableEq

namespace Snapshot

def cellOrder : Nat × Nat → Nat × Nat → Ordering :=
  compareLex (compareOn Prod.fst) (compareOn Prod.snd)

/-- Looks for a cell among those from `low` up to but not including `high`, in at most the given
number of halvings. -/
def bisect (cells : Array (Nat × Nat)) (cell : Nat × Nat) : Nat → Nat → Nat → Bool
  | 0, _, _ => false
  | steps + 1, low, high =>
    if low < high then
      let middle := (low + high) / 2
      match cells[middle]? with
      | none => false
      | some found =>
        match cellOrder found cell with
        | .lt => bisect cells cell steps (middle + 1) high
        | .gt => bisect cells cell steps low middle
        | .eq => true
    else
      false

variable {κ : Type}

def contains (snapshot : Snapshot κ) (row column : Nat) : Bool :=
  bisect snapshot.cells (row, column) (snapshot.cells.size + 1) 0 snapshot.cells.size

/-- The picture of one row: `1` for a cell in force and `.` for none. -/
def rowText (snapshot : Snapshot κ) (row : Nat) : String :=
  String.ofList ((List.range snapshot.columnSize).map fun column ↦
    if snapshot.contains row column then '1' else '.')

def text (snapshot : Snapshot κ) : String :=
  String.join ((List.range snapshot.rowSize).map fun row ↦ snapshot.rowText row ++ "\n")

/-- Whether two snapshots show the same, costs being compared in their order. -/
def same [Cost κ] (left right : Snapshot κ) : Bool :=
  left.rowSize == right.rowSize && left.columnSize == right.columnSize &&
    left.rows == right.rows && left.columns == right.columns && left.cells == right.cells &&
    left.costs.length == right.costs.length &&
    (left.costs.zip right.costs).all fun (first, second) ↦ (compare first second).isEq

end Snapshot

end SetCover

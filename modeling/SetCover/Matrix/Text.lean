import SetCover.Matrix.Basic
import SetCover.Snapshot

/-!
# Pictures of a table

The text lists the active rows with their columns, the summary gives the sizes, and the snapshot is a
value of its own that can be kept and compared.
-/

namespace SetCover.Matrix

variable {κ : Type}

def rowText (matrix : Matrix κ) (row : Nat) : String :=
  let columns := String.join ((matrix.columnsOf row).map fun column ↦ s!" {column}")
  s!"{row}:{columns}\n"

/-- The active rows with their columns, a line for each. -/
def text (matrix : Matrix κ) : String :=
  String.join (matrix.activeRows.map matrix.rowText)

def debugText (matrix : Matrix κ) : String :=
  let fields := [
    ("row_size", matrix.rowSize),
    ("col_size", matrix.columnSize),
    ("active_rows", matrix.activeRows.length),
    ("active_cols", matrix.activeColumns.length),
    ("cells", matrix.cellCount),
    ("history", matrix.depth)]
  let listed := ", ".intercalate (fields.map fun (name, value) ↦ s!"{name}: {value}")
  "Matrix \x7b " ++ listed ++ " \x7d"

def snapshot [Cost κ] (matrix : Matrix κ) : Snapshot κ where
  rowSize := matrix.rowSize
  columnSize := matrix.columnSize
  rows := matrix.activeRows
  columns := matrix.activeColumns
  cells := (matrix.activeRows.flatMap fun row ↦
    (matrix.columnsOf row).map fun column ↦ (row, column)).toArray
  costs := (List.range matrix.columnSize).map matrix.costOf

end SetCover.Matrix

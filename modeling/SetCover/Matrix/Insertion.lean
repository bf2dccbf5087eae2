import SetCover.Matrix.Basic

/-!
# Inserting cells and setting costs

Cells are inserted while no deletion is pending.  A line that gets its first cell becomes active.
-/

namespace SetCover.Matrix

variable {κ : Type}

/-- The nodes between which a cell of a line belongs in the ring of the line, if the line has no
cell at this position yet. -/
def gap? (matrix : Matrix κ) (line : Line) (position : Nat) : Option (Nat × Nat) :=
  (matrix.lines line.axis).gap?
    (fun slot ↦ (matrix.indexAt? line.axis.cross slot).getD 0) line.index position

/-- Hangs a new cell into the ring of a line, which becomes active with its first cell. -/
def attach (line : Line) (slot : Nat) (gap : Nat × Nat) : Edit κ Unit := do
  modify (modifyLines line.axis fun lines ↦ lines.attach line.index slot gap)
  if (← get).count line = 1 then
    match ((← get).lines line.axis).activate? line.index with
    | none => throw (.breach (.lineActive line.index))
    | some lines => modify (modifyLines line.axis fun _ ↦ lines)

/-- Inserts a cell and says whether it is new. -/
def insert (row column : Nat) : Edit κ Bool := do
  requireLine (.row row)
  requireLine (.column column)
  unless (← get).history.isEmpty do
    throw (.deletionsPending row column)
  match (← get).gap? (.row row) column, (← get).gap? (.column column) row with
  | none, _ => return false
  | some _, none => throw (.breach (.strayCell row column))
  | some rowGap, some columnGap =>
    let slot := (← get).cells.vacancy
    modify fun matrix ↦ { matrix with cells := matrix.cells.insert ⟨row, column⟩ }
    attach (.row row) slot rowGap
    attach (.column column) slot columnGap
    return true

/-- Sets one component of the cost of a column to a non-negative finite value. -/
def setCost [Cost κ] (column component : Nat) (value : Float) : Edit κ Unit := do
  requireLine (.column column)
  unless component < Cost.dimension κ do
    throw (.componentOutOfRange component (Cost.dimension κ))
  unless 0.0 ≤ value do
    throw (.negativeCost value)
  match Cost.withComponent ((← get).costOf column) component value with
  | .error fault => throw fault
  | .ok cost =>
    modify fun matrix ↦ { matrix with costs := matrix.costs.setIfInBounds column cost }

/-- Changes the shape of a table and removes everything in it. -/
def resize [Cost κ] (rowSize columnSize dimension : Nat) : Edit κ Unit :=
  match (Matrix.new rowSize columnSize dimension : Except Fault (Matrix κ)) with
  | .error fault => throw fault
  | .ok matrix => set matrix

/-- The table of the given shape with the given cells and costs; a cost is given by column, component
and value. -/
def ofCells [Cost κ] (rowSize columnSize dimension : Nat) (cells : List (Nat × Nat))
    (costs : List (Nat × Nat × Float)) : Except Fault (Matrix κ) := do
  let matrix ← Matrix.new rowSize columnSize dimension
  let fill : Edit κ Unit := do
    cells.forM fun (row, column) ↦ discard (insert row column)
    costs.forM fun (column, component, value) ↦ setCost column component value
  match fill matrix with
  | .ok _ matrix => .ok matrix
  | .error fault _ => .error fault

end SetCover.Matrix

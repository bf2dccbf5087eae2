import SetCover.Ascending
import SetCover.Matrix.Basic

/-!
# Checking the linkage of a table

`check` looks at a table from outside: the active lines are ascending and agree with the flags, every
active line has as many cells as it counts, in ascending order, and every cell of an active line also
hangs in the active line that crosses it there.  It answers with the first defect, rows before
columns.
-/

namespace SetCover.Matrix

/-- What can be wrong with the linkage of a table. -/
inductive Defect where
  | linesNotAscending (axis : Axis) (index : Nat)
  | flagDisagrees (line : Line)
  | cellsNotAscending (line : Line) (index : Nat)
  | lineEmpty (line : Line)
  | countDisagrees (line : Line) (found counted : Nat)
  | crossesDeleted (line : Line) (index : Nat)
  | cellMissing (row column : Nat) (axis : Axis)
  deriving DecidableEq

def Defect.message : Defect → String
  | linesNotAscending axis index => s!"active {axis.noun}s not strictly ascending at {index}"
  | flagDisagrees line =>
    s!"{line.axis.noun} {line.index} active flag disagrees with the active list"
  | cellsNotAscending line index =>
    s!"{line.axis.noun} {line.index} not strictly ascending at {index}"
  | lineEmpty line => s!"active {line.axis.noun} {line.index} is empty"
  | countDisagrees line found counted =>
    s!"{line.axis.noun} {line.index} has {found} cells but count {counted}"
  | crossesDeleted line index =>
    s!"{line.axis.noun} {line.index} links to deleted {line.axis.cross.noun} {index}"
  | cellMissing row column axis => s!"cell ({row}, {column}) missing from its {axis.noun}"

variable {κ : Type}

def checkActive (matrix : Matrix κ) (axis : Axis) : Except Defect Unit :=
  match Ascending.firstDescent? (matrix.active axis) with
  | some index => .error (.linesNotAscending axis index)
  | none => .ok ()

def checkFlags (matrix : Matrix κ) (axis : Axis) : Except Defect Unit :=
  let active := matrix.active axis
  (List.range (matrix.lines axis).size).forM fun index ↦
    if matrix.isActive ⟨axis, index⟩ == active.contains index then .ok ()
    else .error (.flagDisagrees ⟨axis, index⟩)

/-- The cell of a line at the given position is also in the ring of the line that crosses it. -/
def checkCrossing (matrix : Matrix κ) (line : Line) (index : Nat) : Except Defect Unit := do
  let crossing : Line := ⟨line.axis.cross, index⟩
  unless matrix.isActive crossing do
    throw (.crossesDeleted line index)
  unless (matrix.crossing crossing).contains line.index do
    match line.axis with
    | .row => throw (.cellMissing line.index index .column)
    | .column => throw (.cellMissing index line.index .row)

/-- An active line has cells, as many as it counts, in ascending order, and all of them are linked
both ways. -/
def checkLine (matrix : Matrix κ) (line : Line) : Except Defect Unit := do
  let crossing := matrix.crossing line
  match Ascending.firstDescent? crossing with
  | some index => throw (.cellsNotAscending line index)
  | none => pure ()
  if crossing.isEmpty then
    throw (.lineEmpty line)
  if crossing.length ≠ matrix.count line then
    throw (.countDisagrees line crossing.length (matrix.count line))
  crossing.forM (matrix.checkCrossing line)

/-- The first defect in the linkage of a table, if there is one. -/
def check (matrix : Matrix κ) : Except Defect Unit := do
  matrix.checkActive .row
  matrix.checkActive .column
  matrix.checkFlags .row
  matrix.checkFlags .column
  matrix.activeRows.forM fun row ↦ matrix.checkLine (.row row)
  matrix.activeColumns.forM fun column ↦ matrix.checkLine (.column column)

end SetCover.Matrix

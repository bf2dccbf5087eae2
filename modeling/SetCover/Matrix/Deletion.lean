import SetCover.Matrix.Basic

/-!
# Deleting lines

A deleted line leaves the ring of the active lines, and its cells leave the rings of the lines that
they cross.  A crossed line that loses its last cell is deleted with it.  The ring of a deleted line
itself stays as it is, which is what allows the deletion to be taken back.

The record of a deletion goes onto the history before the records of the lines that fall with it, so
these are restored before their cells are handed back to them.
-/

namespace SetCover.Matrix

variable {κ : Type}

/-- Takes an active line out of the ring of the active lines and records its deletion. -/
def retire (line : Line) : Edit κ Unit := do
  unless (← get).isActive line do
    throw (.lineDeleted line)
  modify fun matrix ↦ { matrix with history := .deleted line :: matrix.history }
  modify (modifyLines line.axis fun lines ↦ lines.deactivate line.index)

/-- Takes the cell in a slot out of the ring of its line along an axis.  A line without cells is
retired; its ring being empty, this is all of its deletion. -/
def drop (axis : Axis) (slot : Nat) : Edit κ Unit := do
  match (← get).indexAt? axis slot with
  | none => throw (.slotVacant slot)
  | some index =>
    if (← get).count ⟨axis, index⟩ = 0 then
      throw (.breach .countUnderflow)
    modify (modifyLines axis fun lines ↦ lines.drop index slot)
    if (← get).count ⟨axis, index⟩ = 0 then
      retire ⟨axis, index⟩

def delete (line : Line) : Edit κ Unit := do
  requireLine line
  retire line
  ((← get).slots line).forM (drop line.axis.cross)

/-- Chooses an active column: deletes the rows that it covers, and the column itself unless it went
with its last row. -/
def select (column : Nat) : Edit κ Unit := do
  requireLine (.column column)
  unless (← get).isActive (.column column) do
    throw (.columnDeleted column)
  ((← get).rowsOf column).forM fun row ↦ delete (.row row)
  if (← get).isActive (.column column) then
    delete (.column column)

end SetCover.Matrix

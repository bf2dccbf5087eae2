import SetCover.Matrix.Deletion

/-!
# Taking deletions back

`backup` puts a marker on the history, and `restore` takes back every deletion down to the latest
marker, the latest deletion first.  Cells are put back in the reverse of the order in which they were
taken out, so each of them finds its neighbours as it left them.
-/

namespace SetCover.Matrix

variable {κ : Type}

/-- Puts the cell in a slot back into the ring of its line along an axis. -/
def recover (axis : Axis) (matrix : Matrix κ) (slot : Nat) : Matrix κ :=
  match matrix.indexAt? axis slot with
  | none => matrix
  | some index => modifyLines axis (fun lines ↦ lines.recover index slot) matrix

/-- Takes the latest deletion back, which is that of the given line. -/
def reinstate (line : Line) (matrix : Matrix κ) : Matrix κ :=
  let matrix := modifyLines line.axis (fun lines ↦ lines.reactivate line.index) matrix
  ((matrix.lines line.axis).slotsBack line.index).foldl (recover line.axis.cross) matrix

def backup (matrix : Matrix κ) : Matrix κ :=
  { matrix with history := .marker :: matrix.history }

/-- Takes back the deletions of a history down to its latest marker.  Without a marker all of them
are taken back before the call is refused. -/
def unwind : List Record → Edit κ Unit
  | [] => do
    modify fun matrix ↦ { matrix with history := [] }
    throw .noMarker
  | .marker :: history => modify fun matrix ↦ { matrix with history := history }
  | .deleted line :: history => do
    modify (reinstate line)
    unwind history

def restore : Edit κ Unit := do
  unwind (← get).history

/-- The lines that `restore` would bring back, in the order in which they come back. -/
def restorable (matrix : Matrix κ) : List Line :=
  (matrix.history.takeWhile (· ≠ .marker)).filterMap Record.line?

/-- The lines that were deleted since the history had the given depth, in the order of their
deletion. -/
def deletedSince (matrix : Matrix κ) (depth : Nat) : List Line :=
  ((matrix.history.take (matrix.depth - depth)).filterMap Record.line?).reverse

end SetCover.Matrix

import Mathlib.Data.Finset.Sort
import SetCover.Matrix.Basic
import SetCover.Proofs.Calls

/-!
# Plain tables

A plain table is what a covering table is about, without rings, counts and a history: the set of its
cells, the sets of its active lines, what the deleted lines showed when they were deleted, the costs,
and the active lines that were saved at the markers.

The calls on a plain table are refused with the same faults as those on a linked one.  A rule of the
search may delete any active lines.
-/

namespace SetCover

/-- The cell in which a line meets the crossing line of the given index. -/
def Line.meet (line : Line) (index : Nat) : Cell :=
  match line.axis with
  | .row => ⟨line.index, index⟩
  | .column => ⟨index, line.index⟩

/-- A covering table as sets. -/
structure PlainTable (κ : Type) where
  size : Axis → Nat
  /-- The cells that were inserted, whether or not they are in force. -/
  cells : Finset Cell
  active : Axis → Finset Nat
  /-- What every deleted line showed when it was deleted. -/
  kept : Line → Finset Nat
  cost : Nat → κ
  /-- The active lines at every marker, the latest first. -/
  saved : List (Axis → Finset Nat)

namespace PlainTable

variable {κ : Type}

/-- The table of the given shape without cells. -/
def new [Cost κ] (size : Axis → Nat) : PlainTable κ where
  size := size
  cells := ∅
  active _ := ∅
  kept _ := ∅
  cost _ := Cost.unit
  saved := []

/-- Whether a line is active. -/
def isActive (table : PlainTable κ) (line : Line) : Bool := line.index ∈ table.active line.axis

/-- The active lines that a line meets in a cell. -/
def crossing (table : PlainTable κ) (line : Line) : Finset Nat :=
  (table.active line.axis.cross).filter fun index ↦ line.meet index ∈ table.cells

/-- What a line shows: the lines that it crosses or, if it is deleted, those that it crossed when it
was deleted. -/
def shown (table : PlainTable κ) (line : Line) : Finset Nat :=
  if table.isActive line then table.crossing line else table.kept line

/-- Whether all lines with cells are active and no marker is set. -/
def isPristine (table : PlainTable κ) : Bool :=
  table.saved.isEmpty ∧ ∀ cell ∈ table.cells,
    cell.row ∈ table.active .row ∧ cell.column ∈ table.active .column

/-! ## Changes of the sets -/

/-- The table with a further cell. -/
def enter (cell : Cell) (table : PlainTable κ) : PlainTable κ :=
  { table with
    cells := insert cell table.cells
    active := fun axis ↦ insert (cell.along axis) (table.active axis) }

/-- The lines of the other axis that still meet one of the given lines of an axis. -/
def remaining (axis : Axis) (left : Finset Nat) (table : PlainTable κ) : Finset Nat :=
  (table.active axis.cross).filter fun index ↦
    ∃ other ∈ left, (⟨axis, other⟩ : Line).meet index ∈ table.cells

/-- The table without the given lines of an axis and without the lines of the other axis that meet
none of those that are left.  The given lines keep what they show, the others show nothing. -/
def without (axis : Axis) (indices : Finset Nat) (table : PlainTable κ) : PlainTable κ :=
  let left := table.active axis \ indices
  let remaining := table.remaining axis left
  { table with
    active := fun other ↦ if other = axis then left else remaining
    kept := fun line ↦
      if line.axis = axis then
        if line.index ∈ indices then table.crossing line else table.kept line
      else if line.index ∈ table.active axis.cross \ remaining then ∅ else table.kept line }

/-- The table with all its lines back, without markers. -/
def grounded (table : PlainTable κ) : PlainTable κ :=
  { table with active := fun axis ↦ table.cells.image (·.along axis), saved := [] }

/-! ## Calls -/

/-- Calls that change a plain table. -/
abbrev Edit (κ : Type) (α : Type) := EStateM Fault (PlainTable κ) α

/-- Lets the lines of the table through. -/
def requireLine (line : Line) : Edit κ Unit := do
  let size := (← get).size line.axis
  if size ≤ line.index then
    throw (.lineOutOfRange line size)

/-- Inserts a cell and says whether it is new. -/
def insert (row column : Nat) : Edit κ Bool := do
  requireLine (.row row)
  requireLine (.column column)
  unless (← get).isPristine do
    throw (.deletionsPending row column)
  if ⟨row, column⟩ ∈ (← get).cells then
    return false
  modify (enter ⟨row, column⟩)
  return true

/-- Sets one component of the cost of a column to a non-negative finite value. -/
def setCost [Cost κ] (column component : Nat) (value : Float) : Edit κ Unit := do
  requireLine (.column column)
  unless component < Cost.dimension κ do
    throw (.componentOutOfRange component (Cost.dimension κ))
  unless 0.0 ≤ value do
    throw (.negativeCost value)
  match Cost.withComponent ((← get).cost column) component value with
  | .error fault => throw fault
  | .ok cost => modify fun table ↦ { table with cost := Function.update table.cost column cost }

/-- Deletes an active line. -/
def delete (line : Line) : Edit κ Unit := do
  requireLine line
  unless (← get).isActive line do
    throw (.lineDeleted line)
  modify (without line.axis {line.index})

/-- Chooses an active column: deletes the rows that it covers. -/
def select (column : Nat) : Edit κ Unit := do
  requireLine (.column column)
  unless (← get).isActive (.column column) do
    throw (.columnDeleted column)
  modify fun table ↦ table.without .row (table.crossing (.column column))

/-- Saves the active lines. -/
def backup : Edit κ Unit :=
  modify fun table ↦ { table with saved := table.active :: table.saved }

/-- Makes the lines active that were saved last.  Without saved lines all are made active before the
call is refused. -/
def restore : Edit κ Unit := do
  match (← get).saved with
  | [] => do
    modify grounded
    throw .noMarker
  | active :: saved => modify fun table ↦ { table with active := active, saved := saved }

/-- Removes all cells and forgets the markers and the costs. -/
def clear [Cost κ] : Edit κ Unit :=
  modify fun table ↦ new table.size

/-- The sizes of the axes. -/
def shape (rowSize columnSize : Nat) : Axis → Nat
  | .row => rowSize
  | .column => columnSize

/-- Changes the shape of a table and removes everything in it. -/
def resize [Cost κ] (rowSize columnSize dimension : Nat) : Edit κ Unit :=
  if dimension = Cost.dimension κ then
    set (new (shape rowSize columnSize) : PlainTable κ)
  else
    throw (.dimensionMismatch dimension (Cost.dimension κ))

/-! ## Outcomes of calls -/

variable {table : PlainTable κ} {line : Line} {row column : Nat}

theorem requireLine_ok (hrange : line.index < table.size line.axis) :
    requireLine line table = .ok () table := by
  have hnot : ¬table.size line.axis ≤ line.index := Nat.not_le.mpr hrange
  simp [requireLine, hnot]

theorem requireLine_error (hrange : ¬line.index < table.size line.axis) :
    requireLine line table = .error (.lineOutOfRange line (table.size line.axis)) table := by
  have hle : table.size line.axis ≤ line.index := Nat.not_lt.mp hrange
  simp [requireLine, hle]

theorem delete_of_isActive (hrange : line.index < table.size line.axis)
    (hactive : table.isActive line = true) :
    delete line table = .ok () (table.without line.axis {line.index}) := by
  simp [delete, requireLine_ok hrange, hactive]

theorem delete_of_not_isActive (hactive : table.isActive line = false) :
    delete line table = .error (if line.index < table.size line.axis then .lineDeleted line
      else .lineOutOfRange line (table.size line.axis)) table := by
  by_cases hrange : line.index < table.size line.axis
  · rw [if_pos hrange]
    simp [delete, requireLine_ok hrange, hactive]
  · rw [if_neg hrange]
    exact Calls.bind_error (requireLine_error hrange)

theorem select_of_isActive (hrange : column < table.size .column)
    (hactive : table.isActive (.column column) = true) :
    select column table =
      .ok () (table.without .row (table.crossing (.column column))) := by
  have hrequire : requireLine (.column column) table = .ok () table := requireLine_ok hrange
  simp [select, hrequire, hactive]

theorem select_of_not_isActive (hactive : table.isActive (.column column) = false) :
    select column table = .error (if column < table.size .column then .columnDeleted column
      else .lineOutOfRange (.column column) (table.size .column)) table := by
  by_cases hrange : column < table.size .column
  · have hrequire : requireLine (.column column) table = .ok () table := requireLine_ok hrange
    rw [if_pos hrange]
    simp [select, hrequire, hactive]
  · have hrequire : requireLine (.column column) table =
        .error (.lineOutOfRange (.column column) (table.size .column)) table :=
      requireLine_error hrange
    rw [if_neg hrange]
    exact Calls.bind_error hrequire

theorem insert_inside (hrow : row < table.size .row) (hcolumn : column < table.size .column) :
    insert row column table =
      if table.isPristine then
        if ⟨row, column⟩ ∈ table.cells then .ok false table else .ok true (table.enter ⟨row, column⟩)
      else .error (.deletionsPending row column) table := by
  have hrequireRow : requireLine (.row row) table = .ok () table := requireLine_ok hrow
  have hrequireColumn : requireLine (.column column) table = .ok () table := requireLine_ok hcolumn
  cases hpristine : table.isPristine with
  | true =>
    by_cases hcell : ⟨row, column⟩ ∈ table.cells
    · simp [insert, hrequireRow, hrequireColumn, hpristine, hcell]
    · simp [insert, hrequireRow, hrequireColumn, hpristine, hcell]
  | false =>
    simp [insert, hrequireRow, hrequireColumn, hpristine]

theorem insert_outside (houtside : ¬(row < table.size .row ∧ column < table.size .column)) :
    insert row column table = .error (if row < table.size .row
      then .lineOutOfRange (.column column) (table.size .column)
      else .lineOutOfRange (.row row) (table.size .row)) table := by
  by_cases hrow : row < table.size .row
  · have hrequireRow : requireLine (.row row) table = .ok () table := requireLine_ok hrow
    have hrequireColumn : requireLine (.column column) table =
        .error (.lineOutOfRange (.column column) (table.size .column)) table :=
      requireLine_error fun hcolumn ↦ houtside ⟨hrow, hcolumn⟩
    rw [if_pos hrow]
    exact (Calls.bind_ok hrequireRow).trans (Calls.bind_error hrequireColumn)
  · have hrequireRow : requireLine (.row row) table =
        .error (.lineOutOfRange (.row row) (table.size .row)) table :=
      requireLine_error hrow
    rw [if_neg hrow]
    exact Calls.bind_error hrequireRow

theorem setCost_inside [Cost κ] {component : Nat} {value : Float}
    (hrange : column < table.size .column) :
    setCost column component value table =
      if component < Cost.dimension κ then
        if 0.0 ≤ value then
          match Cost.withComponent (table.cost column) component value with
          | .error fault => .error fault table
          | .ok cost => .ok () { table with cost := Function.update table.cost column cost }
        else .error (.negativeCost value) table
      else .error (.componentOutOfRange component (Cost.dimension κ)) table := by
  have hrequire : requireLine (.column column) table = .ok () table := requireLine_ok hrange
  rw [setCost, Calls.bind_ok hrequire]
  by_cases hcomponent : component < Cost.dimension κ
  · by_cases hvalue : 0.0 ≤ value
    · simp only [hcomponent, hvalue, if_true, Calls.bind_apply, Calls.get_apply]
      cases Cost.withComponent (table.cost column) component value <;> rfl
    · simp [hcomponent, hvalue]
  · simp [hcomponent]

end PlainTable

end SetCover

/-!
# Rows and columns of a covering table

A covering table has rows, the elements that have to be covered, and columns, the sets that may be
chosen to cover them.  Both are numbered from zero.  Wherever the two kinds travel together, as on
the history of deletions, an index is tagged with the axis it belongs to.

Lines are ordered by axis first, so every row comes before every column.
-/

namespace SetCover

/-- The two directions of a covering table. -/
inductive Axis where
  | row
  | column
  deriving DecidableEq, Repr, Ord

namespace Axis

/-- The other direction: the lines that a line of this axis meets. -/
def cross : Axis → Axis
  | row => column
  | column => row

@[simp]
theorem cross_cross (axis : Axis) : axis.cross.cross = axis := by
  cases axis <;> rfl

/-- The name of a line of this axis at the start of a sentence. -/
def title : Axis → String
  | row => "Row"
  | column => "Column"

/-- The name of a line of this axis inside a sentence. -/
def noun : Axis → String
  | row => "row"
  | column => "column"

/-- The name of a line of this axis in compact messages. -/
def tag : Axis → String
  | row => "row"
  | column => "col"

end Axis

/-- One row or one column, named by its index. -/
structure Line where
  axis : Axis
  index : Nat
  deriving DecidableEq, Repr

namespace Line

@[match_pattern]
abbrev row (index : Nat) : Line := ⟨.row, index⟩

@[match_pattern]
abbrev column (index : Nat) : Line := ⟨.column, index⟩

instance : Ord Line where
  compare left right := (compare left.axis right.axis).then (compare left.index right.index)

/-- The text of a line in diagnostics, such as `Row(3)` or `Col(0)`. -/
def debugText : Line → String
  | row index => s!"Row({index})"
  | column index => s!"Col({index})"

def sorted (lines : List Line) : List Line :=
  lines.mergeSort fun left right ↦ (compare left right).isLE

end Line

end SetCover

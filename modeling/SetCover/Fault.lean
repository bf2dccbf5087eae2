import SetCover.Decimal.Text
import SetCover.Line

/-!
# Faults

A call whose arguments or state do not allow it ends with a fault.  A fault names its cause; the
sentence shown to the reader is made by `Fault.message` alone.

A breach is a fault of another kind: it says that a table is not linked as its operations keep it,
or that a search ended where no search can.  No sequence of calls leads to one.
-/

namespace SetCover

/-- States that the operations of this library never reach. -/
inductive Breach where
  /-- A line is entered into a list of active lines that already holds it. -/
  | lineActive (index : Nat)
  /-- A cell hangs in the ring of its column but not in the ring of its row. -/
  | strayCell (row column : Nat)
  /-- A line without cells loses a cell. -/
  | countUnderflow
  /-- An unbounded search found no cover. -/
  | noLeaf
  /-- Rows are left to cover but no columns to cover them. -/
  | noColumn
  /-- An active row has no cell. -/
  | emptyRow (row : Nat)
  /-- A bounded loop used up its steps. -/
  | outOfSteps
  deriving DecidableEq

inductive Fault where
  | lineOutOfRange (line : Line) (size : Nat)
  | lineDeleted (line : Line)
  | columnDeleted (column : Nat)
  | deletionsPending (row column : Nat)
  | dimensionMismatch (expected provided : Nat)
  | componentOutOfRange (component dimension : Nat)
  | negativeCost (value : Float)
  | notFinite (value : Float)
  | singleComponent (index : Nat)
  | pairComponent (index : Nat)
  | noMarker
  | slotVacant (slot : Nat)
  | elementOutOfRange (element size : Nat)
  | nodeOutOfRange (node size : Nat)
  | edgeOutOfRange (left right size : Nat)
  | breach (cause : Breach)
  deriving DecidableEq

def Breach.message : Breach → String
  | lineActive index => s!"Line {index} is already active"
  | strayCell row column => s!"Cell ({row}, {column}) is in its column but not in its row"
  | countUnderflow => "attempt to subtract with overflow"
  | noLeaf => "internal error: entered unreachable code: an unbounded search always reaches a leaf"
  | noColumn => "internal error: entered unreachable code: active rows without active columns"
  | emptyRow row => s!"internal error: entered unreachable code: active row {row} has no cells"
  | outOfSteps => "internal error: a bounded loop used up its steps"

def Fault.message : Fault → String
  | lineOutOfRange line size => s!"{line.axis.title} index {line.index} out of range 0..{size}"
  | lineDeleted line => s!"{line.axis.title} {line.index} is already deleted"
  | columnDeleted column => s!"Cannot select deleted column {column}"
  | deletionsPending row column =>
    s!"Cannot insert ({row}, {column}) while deletions are pending"
  | dimensionMismatch expected provided =>
    s!"Cost dimension mismatch: matrix expects {expected}, cost type provides {provided}"
  | componentOutOfRange component dimension =>
    s!"Cost component {component} out of range 0..{dimension}"
  | negativeCost value =>
    let shown := Decimal.floatText Decimal.plain value
    s!"Column cost must be non-negative, got {shown}"
  | notFinite value =>
    let shown := Decimal.floatText Decimal.plain value
    s!"Cost component must be finite, got {shown}"
  | singleComponent index => s!"Cost1 has a single component, got index {index}"
  | pairComponent index => s!"Cost2 component index {index} out of range"
  | noMarker => "restore() without a matching backup()"
  | slotVacant slot => s!"Slot {slot} is not occupied"
  | elementOutOfRange element size => s!"Element {element} out of range 0..{size}"
  | nodeOutOfRange node size => s!"Node {node} out of range 0..{size}"
  | edgeOutOfRange left right size => s!"Edge ({left}, {right}) out of range 0..{size}"
  | breach cause => cause.message

end SetCover

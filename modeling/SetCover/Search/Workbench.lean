import SetCover.Journal
import SetCover.Matrix.Insertion
import SetCover.Matrix.Restoration
import SetCover.Search.Config

/-!
# The workbench of a search

A search works on one table, counts what it does and reports it.  The operations of the table are
taken over here together with their reports; what was deleted is read off the history.
-/

namespace SetCover

structure Workbench (κ : Type) where
  matrix : Matrix κ
  stats : Stats
  journal : Journal κ
  deriving DecidableEq

abbrev Work (κ : Type) (α : Type) := EStateM Fault (Workbench κ) α

namespace Workbench

variable {κ α : Type}

def table : Work κ (Matrix κ) := do
  return (← get).matrix

def edit (change : Matrix.Edit κ α) : Work κ α := fun ⟨matrix, stats, journal⟩ ↦
  match change matrix with
  | .ok result matrix => .ok result ⟨matrix, stats, journal⟩
  | .error fault matrix => .error fault ⟨matrix, stats, journal⟩

def count (change : Stats → Stats) : Work κ Unit :=
  modify fun bench ↦ { bench with stats := change bench.stats }

def report (events : Matrix κ → List (Event κ)) : Work κ Unit :=
  modify fun bench ↦
    if bench.journal.recording then
      { bench with journal := bench.journal.add (events bench.matrix) }
    else bench

def note (event : Event κ) : Work κ Unit :=
  report fun _ ↦ [event]

/-- Runs a call that deletes lines and reports the deletions in order. -/
def reportingDeletions (announcement : List (Event κ)) (change : Matrix.Edit κ Unit) :
    Work κ Unit := do
  let depth := (← table).depth
  edit change
  report fun matrix ↦ announcement ++ (matrix.deletedSince depth).map .deleted

def delete (line : Line) : Work κ Unit :=
  reportingDeletions [] (Matrix.delete line)

def select (column : Nat) : Work κ Unit :=
  reportingDeletions [.selected column] (Matrix.select column)

def backup : Work κ Unit := do
  note (.backedUp (← table).depth)
  edit (modify Matrix.backup)

def restore : Work κ Unit := do
  report fun matrix ↦ .restoring matrix.depth :: matrix.restorable.map .restored
  edit Matrix.restore

/-- Runs a call between a marker and its restoration.  The restoration takes place however the call
ends, and the fault of the call is reported over one of the restoration. -/
def undoing (body : Work κ α) : Work κ α := do
  backup
  fun bench ↦
    match body bench with
    | .ok result bench =>
      match restore bench with
      | .ok _ bench => .ok result bench
      | .error fault bench => .error fault bench
    | .error fault bench =>
      match restore bench with
      | .ok _ bench => .error fault bench
      | .error _ bench => .error fault bench

/-- Runs a call on a copy of the table, which is given up afterwards. -/
def onCopy (body : Work κ α) : Work κ α := fun bench ↦
  let matrix := bench.matrix
  match body bench with
  | .ok result bench => .ok result { bench with matrix := matrix }
  | .error fault bench => .error fault { bench with matrix := matrix }

end Workbench

end SetCover

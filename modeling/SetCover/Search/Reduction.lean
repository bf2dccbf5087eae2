import SetCover.Search.Dominance

/-!
# Reduction to a fixed point

A row with a single column forces this column.  Together with the two dominance rules this is applied
in rounds until a round changes nothing.
-/

namespace SetCover

structure Reduction where
  changed : Bool
  /-- The columns that had to be chosen, in the order in which they were. -/
  selected : List Nat
  deriving DecidableEq, Repr

namespace Reduction

def unchanged : Reduction := ⟨false, []⟩

def andThen (first later : Reduction) : Reduction :=
  ⟨first.changed || later.changed, first.selected ++ later.selected⟩

end Reduction

namespace Matrix

variable {κ : Type}

def singleRows (matrix : Matrix κ) : List Nat :=
  matrix.activeRows.filter fun row ↦ matrix.count (.row row) = 1

end Matrix

namespace Workbench

variable {κ : Type}

/-- Chooses the only column of a row, unless the row has been covered meanwhile. -/
def selectOnlyColumn (row : Nat) : Work κ Reduction := do
  let matrix ← table
  if matrix.isActive (.row row) then
    match matrix.columnsOf row with
    | [] => return .unchanged
    | column :: _ =>
      note (.columnEssential column row)
      select column
      count fun stats ↦ { stats with essentialColumns := stats.essentialColumns + 1 }
      return ⟨true, [column]⟩
  else
    return .unchanged

/-- Chooses the only column of every row that has just one. -/
def essentialColumns : Work κ Reduction := do
  let rows := (← table).singleRows
  rows.foldlM (fun reduction row ↦ return reduction.andThen (← selectOnlyColumn row)) .unchanged

def reduceOnce [Cost κ] (config : Config) : Work κ Reduction := do
  let byRows ← if config.rowDominance then rowDominance else pure false
  let byColumns ← if config.columnDominance then columnDominance else pure false
  let forced ← if config.essentialColumns then essentialColumns else pure .unchanged
  return ⟨byRows || byColumns || forced.changed, forced.selected⟩

/-- Applies the rules in rounds until nothing changes, in at most the given number of rounds. -/
def reduceWithin [Cost κ] (config : Config) : Nat → Work κ Reduction
  | 0 => throw (.breach .outOfSteps)
  | rounds + 1 => do
    let first ← reduceOnce config
    if first.changed then
      let later ← reduceWithin config rounds
      return ⟨true, first.selected ++ later.selected⟩
    else
      return first

/-- Applies the rules that are switched on until nothing changes.  Every round but the last deletes a
line. -/
def reduce [Cost κ] (config : Config) : Work κ Reduction := do
  let matrix ← table
  reduceWithin config (matrix.activeRows.length + matrix.activeColumns.length + 1)

end Workbench

end SetCover

import SetCover.Search.Bound
import SetCover.Search.Reduction

/-!
# Branch and bound

A node of the search reduces the table, adds up what had to be chosen, and then is a leaf if no row is
left, is cut off if the lower bound shows that nothing cheaper than the incumbent can come, or
branches on the first active column: first with the column chosen, then with it deleted.  The second
branch is left out if some row has no other column, and it replaces the first only by a strictly
cheaper cover, so the first of the cheapest covers is found.

Every node works between a marker and its restoration and hands the table back as it got it.
-/

namespace SetCover

structure Cover (κ : Type) where
  cost : κ
  /-- The columns in the order in which the search settled on them. -/
  columns : List Nat
  deriving DecidableEq

/-- What solving a table leads to. -/
inductive Answer (κ : Type) where
  | cover (cover : Cover κ)
  /-- No column has a cell in this row. -/
  | uncoverable (row : Nat)
  deriving DecidableEq

def Answer.uncoverableText (row : Nat) : String :=
  s!"row {row} is not covered by any column"

/-- The first row without cells, active or not. -/
def Matrix.uncoverable? {κ : Type} (matrix : Matrix κ) : Option Nat :=
  (List.range matrix.rowSize).find? fun row ↦ matrix.count (.row row) = 0

namespace Workbench

variable {κ : Type} [Cost κ]

omit [Cost κ] in
def visit (depth : Nat) : Work κ Unit :=
  count fun stats ↦
    { stats with nodes := stats.nodes + 1, maxDepth := Nat.max stats.maxDepth depth }

def improves (cost : κ) (best : Option κ) : Bool :=
  match best with
  | none => true
  | some best => cost < best

/-- Closes a node without rows: what had to be chosen is a cover if it improves on the incumbent. -/
def closeLeaf (cost : κ) (selected : List Nat) (best : Option κ) (depth : Nat) :
    Work κ (Option (Cover κ)) := do
  count fun stats ↦ { stats with leaves := stats.leaves + 1 }
  if improves cost best then
    note (.incumbent cost depth)
    return some ⟨cost, selected⟩
  else
    return none

/-- Whether the lower bound shows that a node holds no improvement on the incumbent. -/
def isCutOff (config : Config) (cost : κ) (best : Option κ) (depth : Nat) : Work κ Bool := do
  if config.lowerBound then
    let bound := (← lowerBound) + cost
    if improves bound best then
      return false
    else
      note (.pruned depth bound)
      count fun stats ↦ { stats with pruned := stats.pruned + 1 }
      return true
  else
    return false

/-- Searches below a node that has been reduced at the given cost.  The two branches are explored by
the given search, which gets the cost so far and the incumbent. -/
def branch (explore : κ → Option κ → Work κ (Option (Cover κ))) (cost : κ) (selected : List Nat)
    (best : Option κ) (depth : Nat) : Work κ (Option (Cover κ)) := do
  let matrix ← table
  match matrix.columns.first? with
  | none => throw (.breach .noColumn)
  | some column =>
    let forced := (matrix.rowsOf column).any fun row ↦ matrix.count (.row row) = 1
    note (.branched column depth forced)
    let chosen ← undoing do
      select column
      explore (cost + matrix.costOf column) best
    let chosen := chosen.map fun cover ↦ ⟨cover.cost, selected ++ column :: cover.columns⟩
    if forced then
      return chosen
    let deleted ← undoing do
      delete (.column column)
      explore cost (chosen.map Cover.cost <|> best)
    let deleted := deleted.map fun cover ↦ ⟨cover.cost, selected ++ cover.columns⟩
    return deleted <|> chosen

/-- Searches below a node, in at most the given number of levels. -/
def searchWithin (config : Config) : Nat → κ → Option κ → Nat → Work κ (Option (Cover κ))
  | 0, _, _, _ => throw (.breach .outOfSteps)
  | levels + 1, base, best, depth => do
    visit depth
    undoing do
      let selected := (← reduce config).selected
      let matrix ← table
      let cost := Cost.sumFrom base (selected.map matrix.costOf)
      if matrix.isEmpty then
        closeLeaf cost selected best depth
      else if ← isCutOff config cost best depth then
        return none
      else
        branch (fun cost best ↦ searchWithin config levels cost best (depth + 1))
          cost selected best depth

/-- Searches for the cheapest cover below a node, strictly cheaper than the incumbent.  The cost so
far is that of the columns chosen on the way to the node; the result lists those chosen below.
Every branch takes a column away, so there are at most as many levels as columns and one more. -/
def search (config : Config) (base : κ) (best : Option κ) (depth : Nat) :
    Work κ (Option (Cover κ)) := do
  let columns := (← table).activeColumns
  searchWithin config (columns.length + 1) base best depth

/-- Finds a cheapest set of columns that covers all active rows.  The table is left as it is.  A row
that was deleted counts as covered as long as it kept its cells. -/
def solve (config : Config) : Work κ (Answer κ) := do
  count fun _ ↦ Stats.zero
  let matrix ← table
  match matrix.uncoverable? with
  | some row =>
    note (.uncoverable row)
    return .uncoverable row
  | none =>
    match ← onCopy (search config Cost.zero none 0) with
    | none => throw (.breach .noLeaf)
    | some cover =>
      let stats := (← get).stats
      note (.solved cover.cost cover.columns.length stats.nodes stats.pruned stats.maxDepth)
      return .cover cover

end Workbench

end SetCover

import SetCover.Proofs.Matrix.Recycling
import SetCover.Proofs.Search.Reduction
import SetCover.Search.Bound

/-!
# What the rules have from their parts

The rules and the lower bound are made of calls that look at the table, change it, report or count.  A
property that these have, and that calls in a row have from one another, is therefore one of the rules
and of every reduction.  What the rules count is their own: the nodes of the search are not touched.
What they look at is blind to spare slots of the table, and so is what they change.
-/

namespace SetCover

/-- The two agree on what is counted for nodes. -/
structure Stats.SameTally (stats other : Stats) : Prop where
  nodes : stats.nodes = other.nodes
  leaves : stats.leaves = other.leaves
  pruned : stats.pruned = other.pruned
  maxDepth : stats.maxDepth = other.maxDepth

namespace Workbench

open SetCover.Matrix SetCover.Calls

variable {κ α β γ : Type}

/-- The property is one of single calls and passes on to calls in a row. -/
structure Inherited (holds : {α : Type} → Work κ α → Prop) : Prop where
  pure : ∀ {α : Type} (result : α), holds (Pure.pure result)
  throw : ∀ {α : Type} (fault : Fault), holds (MonadExcept.throw fault : Work κ α)
  bind : ∀ {α β : Type} {work : Work κ α} {rest : α → Work κ β},
    holds work → (∀ result, holds (rest result)) → holds (work >>= rest)
  table : ∀ {β : Type} {rest : Matrix κ → Work κ β},
    (∀ matrix spare, rest (matrix.padded spare) = rest matrix) → (∀ matrix, holds (rest matrix)) →
    holds (table >>= rest)
  edit : ∀ {α : Type} (change : Edit κ α), Respects Akin change → holds (edit change)
  report : ∀ events, (∀ matrix spare, events (matrix.padded spare) = events matrix) →
    holds (report events)
  count : ∀ change, (∀ stats, (change stats).SameTally stats) → holds (count change)

namespace Inherited

variable {holds : {α : Type} → Work κ α → Prop} (h : Inherited holds)
include h

theorem foldlM {step : β → γ → Work κ β} (hstep : ∀ value element, holds (step value element))
    (elements : List γ) (value : β) : holds (elements.foldlM step value) := by
  induction elements generalizing value with
  | nil => exact h.pure value
  | cons first others ih =>
    rw [List.foldlM_cons]
    exact h.bind (hstep value first) ih

theorem forM {body : γ → Work κ Unit} (hbody : ∀ element, holds (body element))
    (elements : List γ) : holds (elements.forM body) := by
  induction elements with
  | nil => exact h.pure ()
  | cons first others ih => exact h.bind (hbody first) fun _ ↦ ih

theorem note (event : Event κ) : holds (note event) :=
  h.report _ fun _ _ ↦ rfl

theorem reportingDeletions (announcement : List (Event κ)) {change : Edit κ Unit}
    (hchange : Respects Akin change) : holds (reportingDeletions announcement change) :=
  h.table (fun _ _ ↦ rfl) fun _ ↦ h.bind (h.edit change hchange) fun _ ↦ h.report _ fun _ _ ↦ rfl

theorem delete (line : Line) : holds (delete line) :=
  h.reportingDeletions _ (respects_delete line)

theorem select (column : Nat) : holds (select column) :=
  h.reportingDeletions _ (respects_select column)

/-! ## The rules -/

theorem deleteDominatedRow (row dominated : Nat) : holds (deleteDominatedRow row dominated) :=
  h.bind (h.note _) fun _ ↦ h.bind (h.delete _) fun _ ↦ h.count _ fun _ ↦ ⟨rfl, rfl, rfl, rfl⟩

theorem deleteRowsDominatedBy (row : Nat) : holds (deleteRowsDominatedBy row) :=
  h.table (fun _ _ ↦ by rw [dominatedRows_padded]; rfl) fun _ ↦
    iteInduction (fun _ ↦ h.bind (h.forM (h.deleteDominatedRow row) _) fun _ ↦ h.pure _)
      fun _ ↦ h.pure 0

/-- A rule has the property if it has it on every line. -/
theorem sweep {step : γ → Work κ α} (hstep : ∀ element, holds (step element))
    (combine : β → α → β) (elements : List γ) (value : β) : holds
      (elements.foldlM (fun value element ↦ return combine value (← step element)) value) :=
  h.foldlM (fun _ element ↦ h.bind (hstep element) fun _ ↦ h.pure _) _ _

theorem rowDominance : holds (rowDominance : Work κ Bool) :=
  h.table (fun _ _ ↦ rfl) fun _ ↦
    h.bind (h.sweep h.deleteRowsDominatedBy _ _ _) fun _ ↦ h.pure _

theorem selectOnlyColumn (row : Nat) : holds (selectOnlyColumn row) := by
  refine h.table (fun _ _ ↦ by rw [columnsOf_padded]; rfl) fun matrix ↦
    iteInduction (fun _ ↦ ?_) fun _ ↦ h.pure _
  split
  · exact h.pure _
  · exact h.bind (h.note _) fun _ ↦ h.bind (h.select _) fun _ ↦
      h.bind (h.count _ fun _ ↦ ⟨rfl, rfl, rfl, rfl⟩) fun _ ↦ h.pure _

theorem essentialColumns : holds (essentialColumns : Work κ Reduction) :=
  h.table (fun _ _ ↦ rfl) fun _ ↦ h.sweep h.selectOnlyColumn _ _ _

variable [Cost κ]

theorem deleteColumnIfDominated (column : Nat) : holds (deleteColumnIfDominated column) := by
  refine h.table (fun _ _ ↦ by rw [dominator?_padded]; rfl) fun matrix ↦
    iteInduction (fun _ ↦ ?_) fun _ ↦ h.pure 0
  split
  · exact h.pure 0
  · exact h.bind (h.note _) fun _ ↦ h.bind (h.delete _) fun _ ↦
      h.bind (h.count _ fun _ ↦ ⟨rfl, rfl, rfl, rfl⟩) fun _ ↦ h.pure 1

theorem columnDominance : holds (columnDominance : Work κ Bool) :=
  h.table (fun _ _ ↦ rfl) fun _ ↦
    h.bind (h.sweep h.deleteColumnIfDominated _ _ _) fun _ ↦ h.pure _

theorem reduceOnce (config : Config) : holds (reduceOnce config : Work κ Reduction) := by
  rw [reduceOnce_eq]
  exact h.bind (iteInduction (fun _ ↦ h.rowDominance) fun _ ↦ h.pure false) fun _ ↦
    h.bind (iteInduction (fun _ ↦ h.columnDominance) fun _ ↦ h.pure false) fun _ ↦
      h.bind (iteInduction (fun _ ↦ h.essentialColumns) fun _ ↦ h.pure _) fun _ ↦ h.pure _

theorem reduceWithin (config : Config) (rounds : Nat) :
    holds (reduceWithin config rounds : Work κ Reduction) := by
  induction rounds with
  | zero => exact h.throw _
  | succ rounds ih =>
    exact h.bind (h.reduceOnce config) fun first ↦
      iteInduction (fun _ ↦ h.bind ih fun _ ↦ h.pure _) fun _ ↦ h.pure first

theorem reduce (config : Config) : holds (reduce config : Work κ Reduction) :=
  h.table (fun _ _ ↦ rfl) fun _ ↦ h.reduceWithin config _

theorem lowerBound : holds (lowerBound : Work κ κ) := by
  refine h.table (fun _ _ ↦ by rw [disjointRows_padded]; rfl) fun matrix ↦
    iteInduction (fun _ ↦ h.pure _) fun _ ↦ ?_
  split
  · exact h.throw _
  · exact h.bind (h.report _ fun _ _ ↦ rfl) fun _ ↦ h.pure _

end Inherited

end Workbench

end SetCover

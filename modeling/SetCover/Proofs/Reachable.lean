import SetCover.Proofs.Cost.Lawful
import SetCover.Proofs.Matrix.Insertion
import SetCover.Proofs.Search.Completion

/-!
# Reachable tables

A table is reachable if it comes from a new one by operations, whether they were carried out or
refused.  All reachable tables are intact: their removals are on a stack, and no active line is empty.
-/

namespace SetCover

/-- What can be done to a table. -/
inductive Operation where
  | insert (row column : Nat)
  | setCost (column component : Nat) (value : Float)
  | delete (line : Line)
  | select (column : Nat)
  | backup
  | restore
  | clear
  | resize (rowSize columnSize dimension : Nat)
  | rowDominance
  | columnDominance
  | essentialColumns
  | reduce (config : Config)
  | lowerBound
  | solve (config : Config)

namespace Operation

variable {κ : Type} [Cost κ]

/-- Carries out an operation; its result is given up. -/
def run : Operation → Work κ Unit
  | insert row column => discard (Workbench.edit (Matrix.insert row column))
  | setCost column component value => Workbench.edit (Matrix.setCost column component value)
  | delete line => Workbench.delete line
  | select column => Workbench.select column
  | backup => Workbench.backup
  | restore => Workbench.restore
  | clear => Workbench.edit (modify Matrix.clear)
  | resize rowSize columnSize dimension =>
    Workbench.edit (Matrix.resize rowSize columnSize dimension)
  | rowDominance => discard Workbench.rowDominance
  | columnDominance => discard Workbench.columnDominance
  | essentialColumns => discard Workbench.essentialColumns
  | reduce config => discard (Workbench.reduce config)
  | lowerBound => discard Workbench.lowerBound
  | solve config => discard (Workbench.solve config)

/-- The workbench after an operation, carried out or refused. -/
def after (operation : Operation) (bench : Workbench κ) : Workbench κ :=
  Calls.stateAfter operation.run bench

/-- Whether an operation does no more than delete lines and set costs. -/
def isDescending : Operation → Bool
  | insert .. => false
  | backup => false
  | restore => false
  | clear => false
  | resize .. => false
  | _ => true

/-- Whether an operation sets a cost. -/
def setsCost : Operation → Bool
  | setCost .. => true
  | _ => false

/-- Whether an operation only looks at a table. -/
def isObserving : Operation → Bool
  | lowerBound => true
  | solve _ => true
  | _ => false

/-- The workbench after several operations, each carried out or refused. -/
def afterAll (operations : List Operation) (bench : Workbench κ) : Workbench κ :=
  operations.foldl (fun bench operation ↦ operation.after bench) bench

end Operation

/-- The workbench with a new table of the given shape, on which nothing has been done. -/
def Workbench.blank (κ : Type) [Cost κ] (rowSize columnSize : Nat) (recording : Bool) :
    Workbench κ where
  matrix :=
    { rows := Lines.empty rowSize
      columns := Lines.empty columnSize
      cells := Arena.empty
      costs := Array.replicate columnSize Cost.unit
      history := [] }
  stats := Stats.zero
  journal := Journal.empty recording

namespace Matrix

variable {κ : Type} {matrix next : Matrix κ} {line : Line}

/-- The tables that come from a new one by operations. -/
inductive Reachable [Cost κ] : Matrix κ → Prop
  | new {rowSize columnSize dimension : Nat} {matrix : Matrix κ} :
      Matrix.new rowSize columnSize dimension = .ok matrix → Reachable matrix
  | step {bench : Workbench κ} (operation : Operation) :
      Reachable bench.matrix → Reachable (operation.after bench).matrix

theorem new_blank [Cost κ] (rowSize columnSize : Nat) (recording : Bool) :
    Matrix.new rowSize columnSize (Cost.dimension κ) =
      .ok (Workbench.blank κ rowSize columnSize recording).matrix :=
  if_pos rfl

theorem Reachable.afterAll [Cost κ] {bench : Workbench κ} (h : bench.matrix.Reachable)
    (operations : List Operation) : (Operation.afterAll operations bench).matrix.Reachable := by
  induction operations generalizing bench with
  | nil => exact h
  | cons operation rest ih => exact ih (.step operation h)

theorem reachable_afterAll_blank [Cost κ] (rowSize columnSize : Nat) (recording : Bool)
    (operations : List Operation) :
    (Operation.afterAll operations
      (Workbench.blank κ rowSize columnSize recording)).matrix.Reachable :=
  Reachable.afterAll (.new (new_blank rowSize columnSize recording)) operations

/-! ## Single operations -/

/-- The second table comes from the first by removals, costs aside, and none of its active lines is
empty. -/
structure Descends (start next : Matrix κ) : Prop where
  removes : Removes { start with costs := next.costs } next
  settled : next.Settled

namespace Descends

theorem of_deletes (h : matrix.Intact) (hdeletes : Deletes matrix next) : Descends matrix next := by
  obtain ⟨hremoves, hsettled⟩ := hdeletes.removes h.linked h.settled
  refine ⟨?_, hsettled⟩
  rw [hremoves.costs_eq]
  exact hremoves

theorem trans {last : Matrix κ} (hfirst : Descends matrix next) (hsecond : Descends next last) :
    Descends matrix last :=
  ⟨(hfirst.removes.withCosts last.costs).trans hsecond.removes, hsecond.settled⟩

theorem intact (h : Descends matrix next) (hmatrix : matrix.Intact) : next.Intact :=
  ⟨(hmatrix.stacked.withCosts next.costs).removes h.removes, h.settled⟩

end Descends

/-- Nothing is inserted while deletions are pending. -/
theorem insert_pending {row column : Nat} (hrow : matrix.InRange (.row row))
    (hcolumn : matrix.InRange (.column column)) (hhistory : matrix.history ≠ []) :
    insert row column matrix = .error (.deletionsPending row column) matrix := by
  simp [insert, requireLine_ok hrow, requireLine_ok hcolumn, if_neg hhistory]

/-- Nothing is inserted outside the table. -/
theorem insert_outside {row column : Nat}
    (houtside : ¬(matrix.InRange (.row row) ∧ matrix.InRange (.column column))) :
    insert row column matrix = .error (if row < matrix.rowSize
      then .lineOutOfRange (.column column) matrix.columnSize
      else .lineOutOfRange (.row row) matrix.rowSize) matrix := by
  by_cases hrow : row < matrix.rowSize
  · have hrequire : requireLine (.row row) matrix = .ok () matrix := requireLine_ok hrow
    rw [if_pos hrow]
    exact (Calls.bind_ok hrequire).trans (Calls.bind_error
      (requireLine_error fun hcolumn ↦ houtside ⟨hrow, hcolumn⟩))
  · rw [if_neg hrow]
    exact Calls.bind_error (requireLine_error hrow)

/-- An insertion is refused while deletions are pending and outside the table. -/
theorem insert_refused {row column : Nat}
    (hrefused : ¬(matrix.InRange (.row row) ∧ matrix.InRange (.column column) ∧
      matrix.history = [])) :
    ∃ fault, insert row column matrix = .error fault matrix ∧ ∀ cause, fault ≠ .breach cause := by
  by_cases hinside : matrix.InRange (.row row) ∧ matrix.InRange (.column column)
  · obtain ⟨hrow, hcolumn⟩ := hinside
    have hhistory : matrix.history ≠ [] := fun hempty ↦ hrefused ⟨hrow, hcolumn, hempty⟩
    exact ⟨_, insert_pending hrow hcolumn hhistory, by simp⟩
  · refine ⟨_, insert_outside hinside, ?_⟩
    split <;> simp

/-- An insertion is refused, finds its cell or puts it in. -/
theorem Linked.insert_cases (h : matrix.Linked) (row column : Nat) :
    (∃ fault, Matrix.insert row column matrix = .error fault matrix ∧ ∀ cause, fault ≠ .breach cause) ∨
    (Matrix.insert row column matrix = .ok false matrix ∧ matrix.history = [] ∧
      matrix.HasCell ⟨row, column⟩) ∨
    ∃ next, Matrix.insert row column matrix = .ok true next ∧ next.history = [] ∧ next.Linked ∧
      next.cells = matrix.cells.insert ⟨row, column⟩ := by
  by_cases hready : matrix.InRange (.row row) ∧ matrix.InRange (.column column) ∧
      matrix.history = []
  · obtain ⟨hrow, hcolumn, hhistory⟩ := hready
    by_cases hcell : matrix.HasCell ⟨row, column⟩
    · exact .inr (.inl ⟨insert_present h hhistory hrow hcolumn hcell, hhistory, hcell⟩)
    · obtain ⟨next, hinsert, hlinked, hnext, -, hcells, -⟩ :=
        insert_new h hhistory hrow hcolumn hcell
      exact .inr (.inr ⟨next, hinsert, hnext, hlinked, hcells⟩)
  · exact .inl (insert_refused hready)

theorem ends_insert (h : matrix.Intact) (row column : Nat) :
    Calls.Ends (insert row column) matrix (fun _ next ↦ next.Intact)
      (fun fault next ↦ next = matrix ∧ ∀ cause, fault ≠ .breach cause) := by
  obtain ⟨fault, hinsert, hfault⟩ | ⟨hinsert, -, -⟩ | ⟨next, hinsert, hnext, hlinked, -⟩ :=
    h.linked.insert_cases row column
  · exact .of_error hinsert ⟨rfl, hfault⟩
  · exact .of_ok hinsert h
  · exact .of_ok hinsert (.of_linked hlinked hnext)

theorem setCost_inside [Cost κ] {column component : Nat} {value : Float}
    (hrange : matrix.InRange (.column column)) :
    setCost column component value matrix =
      if component < Cost.dimension κ then
        if 0.0 ≤ value then
          match Cost.withComponent (matrix.costOf column) component value with
          | .error fault => .error fault matrix
          | .ok cost => .ok () { matrix with costs := matrix.costs.setIfInBounds column cost }
        else .error (.negativeCost value) matrix
      else .error (.componentOutOfRange component (Cost.dimension κ)) matrix := by
  rw [setCost, Calls.bind_ok (requireLine_ok hrange)]
  by_cases hcomponent : component < Cost.dimension κ
  · by_cases hvalue : 0.0 ≤ value
    · simp only [hcomponent, hvalue, if_true, Calls.bind_apply, Calls.get_apply]
      cases Cost.withComponent (matrix.costOf column) component value <;> rfl
    · simp [hcomponent, hvalue]
  · simp [hcomponent]

theorem ends_setCost [Cost κ] [LawfulCost κ] (column component : Nat) (value : Float) :
    Calls.Ends (setCost column component value) matrix
      (fun _ next ↦ ∃ costs, next = { matrix with costs := costs })
      (fun fault next ↦ next = matrix ∧ ∀ cause, fault ≠ .breach cause) := by
  by_cases hrange : matrix.InRange (.column column)
  · rw [Calls.Ends, setCost_inside hrange]
    split_ifs
    · cases hcost : Cost.withComponent (matrix.costOf column) component value with
      | error fault => exact ⟨rfl, LawfulCost.withComponent_refused _ _ _ _ hcost⟩
      | ok cost => exact ⟨_, rfl⟩
    · exact ⟨rfl, by simp⟩
    · exact ⟨rfl, by simp⟩
  · exact .of_error (Calls.bind_error (requireLine_error hrange)) ⟨rfl, by simp⟩

theorem ends_delete (h : matrix.Linked) (line : Line) :
    Calls.Ends (delete line) matrix (fun _ next ↦ Deletes matrix next)
      (fun fault next ↦ next = matrix ∧ ∀ cause, fault ≠ .breach cause) := by
  cases hactive : matrix.isActive line with
  | true => exact .of_ok (delete_of_isActive h hactive) (.delete .refl hactive)
  | false =>
    refine .of_error (delete_of_not_isActive hactive) ⟨rfl, ?_⟩
    split <;> simp

theorem ends_select (h : matrix.Linked) (hsettled : matrix.Settled) (column : Nat) :
    Calls.Ends (select column) matrix (fun _ next ↦ Deletes matrix next)
      (fun fault next ↦ next = matrix ∧ ∀ cause, fault ≠ .breach cause) := by
  cases hactive : matrix.isActive (.column column) with
  | true =>
    exact .of_ok (select_of_isActive h hsettled hactive)
      (allDeleted_selected h hsettled hactive).2.deletes
  | false =>
    refine .of_error (select_of_not_isActive hactive) ⟨rfl, ?_⟩
    split <;> simp

theorem ends_restore (h : matrix.Intact) :
    Calls.Ends restore matrix (fun _ next ↦ next.Intact)
      (fun fault next ↦ next.Intact ∧ fault = .noMarker) := by
  obtain ⟨outer, houter, -, hrestore⟩ | ⟨base, hbase, -, -, hrestore⟩ := h.restore_cases
  · exact .of_ok hrestore houter
  · exact .of_error hrestore ⟨hbase, rfl⟩

theorem ends_resize [Cost κ] (rowSize columnSize dimension : Nat) :
    Calls.Ends (resize rowSize columnSize dimension) matrix (fun _ next ↦ next.Intact)
      (fun fault next ↦ next = matrix ∧ ∀ cause, fault ≠ .breach cause) := by
  rw [resize]
  cases hnew : (Matrix.new rowSize columnSize dimension : Except Fault (Matrix κ)) with
  | error fault =>
    have hfault : ∀ cause, fault ≠ .breach cause := by
      unfold Matrix.new at hnew
      split at hnew
      · cases hnew
      · obtain rfl := Except.error.inj hnew
        simp
    exact .throw ⟨rfl, hfault⟩
  | ok next =>
    obtain ⟨hlinked, hhistory⟩ := linked_new hnew
    exact .of_ok rfl (.of_linked hlinked hhistory)

end Matrix

/-! ## All operations -/

namespace Operation

open Workbench SetCover.Matrix

variable {κ : Type} [Cost κ] {matrix : Matrix κ}

/-- How most operations lead from one table to another: by deletions, unless they set a cost, and
back to the table itself, if they only look at it. -/
structure Leads (operation : Operation) (matrix next : Matrix κ) : Prop where
  descends : Descends matrix next
  deletes : operation.setsCost = false → Deletes matrix next
  unchanged : operation.isObserving = true → next = matrix

omit [Cost κ] in
theorem Leads.costs {operation : Operation} {next : Matrix κ} (h : operation.Leads matrix next)
    (hmatrix : matrix.Intact) (hsets : operation.setsCost = false) : next.costs = matrix.costs :=
  ((h.deletes hsets).removes hmatrix.linked hmatrix.settled).1.costs_eq

/-- Most operations only remove lines, whether they are carried out or refused, and no count runs
below zero. -/
theorem ends_descending [LawfulCost κ] (h : matrix.Intact) {operation : Operation}
    (hdescending : operation.isDescending = true) :
    Ends operation.run matrix (fun _ next ↦ operation.Leads matrix next)
      (fun fault next ↦ operation.Leads matrix next ∧ fault ≠ .breach .countUnderflow) := by
  have hdeletes {next : Matrix κ} (hchanging : operation.isObserving = false)
      (hnext : Deletes matrix next) : operation.Leads matrix next :=
    ⟨.of_deletes h hnext, fun _ ↦ hnext, fun hobserving ↦ by simp_all⟩
  have hreduces {chosen : List Nat} {next : Matrix κ} (hchanging : operation.isObserving = false)
      (hnext : Reduces matrix chosen next) : operation.Leads matrix next :=
    hdeletes hchanging (hnext.deletes h.linked h.settled)
  have hsame {next : Matrix κ} (hnext : next = matrix) : operation.Leads matrix next := by
    rw [hnext]
    exact ⟨.of_deletes h .refl, fun _ ↦ .refl, fun _ ↦ rfl⟩
  have hunchanged : ∀ (fault : Fault) (next : Matrix κ),
      (next = matrix ∧ ∀ cause, fault ≠ .breach cause) →
      operation.Leads matrix next ∧ fault ≠ .breach .countUnderflow :=
    fun _ _ hrefused ↦ ⟨hsame hrefused.1, hrefused.2 _⟩
  have hkept {α : Type} {work : Work κ α} {answers : α → Prop}
      (hwork : Completes work matrix answers) :
      Ends work matrix (fun _ next ↦ operation.Leads matrix next)
        (fun fault next ↦ operation.Leads matrix next ∧ fault ≠ .breach .countUnderflow) :=
    hwork.ends.mono fun _ _ hdone ↦ hsame hdone.1
  cases operation with
  | setCost column component value =>
    refine .edit ((ends_setCost column component value).imp (fun _ next hnext ↦ ?_) hunchanged)
    obtain ⟨costs, rfl⟩ := hnext
    refine ⟨⟨.refl, h.settled⟩, fun hsets ↦ ?_, fun hobserving ↦ ?_⟩
    · cases hsets
    · cases hobserving
  | delete line =>
    exact ends_reportingDeletions ((Matrix.ends_delete h.linked line).imp
      (fun _ _ hnext ↦ hdeletes rfl hnext) hunchanged)
  | select column =>
    exact ends_reportingDeletions ((Matrix.ends_select h.linked h.settled column).imp
      (fun _ _ hnext ↦ hdeletes rfl hnext) hunchanged)
  | rowDominance =>
    exact .discard ((ends_rowDominance h.linked h.settled).mono fun _ _ hnext ↦
      hreduces rfl hnext.reduces)
  | columnDominance =>
    exact .discard ((ends_columnDominance h.linked h.settled).mono fun _ _ hnext ↦
      hreduces rfl hnext.reduces)
  | essentialColumns =>
    exact .discard ((ends_essentialColumns h.linked h.settled).mono fun _ _ hnext ↦
      hreduces rfl hnext.reduces)
  | reduce config =>
    exact .discard ((ends_reduce h.linked h.settled config).mono fun _ _ hnext ↦ hreduces rfl hnext)
  | lowerBound => exact .discard (hkept (completes_lowerBound h.linked h.settled))
  | solve config => exact .discard (hkept (completes_solve config h.linked h.settled))
  | _ => cases hdescending

/-- Every operation keeps a table intact, whether it is carried out or refused, and no count runs
below zero. -/
theorem ends_run [LawfulCost κ] (h : matrix.Intact) (operation : Operation) :
    Ends operation.run matrix (fun _ next ↦ next.Intact)
      (fun fault next ↦ next.Intact ∧ fault ≠ .breach .countUnderflow) := by
  have hunchanged : ∀ (fault : Fault) (next : Matrix κ),
      (next = matrix ∧ ∀ cause, fault ≠ .breach cause) →
      next.Intact ∧ fault ≠ .breach .countUnderflow :=
    fun _ _ hrefused ↦ ⟨hrefused.1 ▸ h, hrefused.2 _⟩
  cases hdescending : operation.isDescending with
  | true =>
    exact (ends_descending h hdescending).imp (fun _ _ hnext ↦ hnext.descends.intact h)
      fun _ _ hrefused ↦ ⟨hrefused.1.descends.intact h, hrefused.2⟩
  | false =>
    cases operation with
    | insert row column =>
      exact .discard (.edit ((Matrix.ends_insert h row column).imp (fun _ _ hnext ↦ hnext)
        hunchanged))
    | backup => exact ends_backup h.backup
    | restore =>
      refine .bind (.report (.edit ((Matrix.ends_restore h).imp (fun _ _ hnext ↦ hnext)
        fun fault next hrefused ↦ ?_)))
      exact ⟨hrefused.1, by simp [hrefused.2]⟩
    | clear =>
      have hclear : matrix.clear.Intact := .of_linked (linked_clear h.linked) rfl
      exact fun _ _ ↦ hclear
    | resize rowSize columnSize dimension =>
      exact .edit ((ends_resize rowSize columnSize dimension).imp (fun _ _ hnext ↦ hnext)
        hunchanged)
    | _ => cases hdescending

/-- What holds of the table on both ways out of an operation holds of the table after it. -/
theorem of_ends {operation : Operation} {bench : Workbench κ} {holds : Matrix κ → Prop}
    (h : Ends operation.run bench.matrix (fun _ next ↦ holds next) (fun _ next ↦ holds next)) :
    holds (operation.after bench).matrix := by
  have hend := h bench.stats bench.journal
  rw [Calls.Ends] at hend
  unfold after Calls.stateAfter
  split at hend
  · rename_i hrun
    rw [hrun]
    exact hend
  · rename_i hrun
    rw [hrun]
    exact hend

theorem intact_after [LawfulCost κ] {bench : Workbench κ} (h : bench.matrix.Intact)
    (operation : Operation) : (operation.after bench).matrix.Intact :=
  of_ends ((ends_run h operation).imp (fun _ _ hnext ↦ hnext) fun _ _ hrefused ↦ hrefused.1)

end Operation

theorem Matrix.Reachable.intact {κ : Type} [Cost κ] [LawfulCost κ] {matrix : Matrix κ}
    (h : matrix.Reachable) : matrix.Intact := by
  induction h with
  | new hnew =>
    obtain ⟨hlinked, hhistory⟩ := linked_new hnew
    exact .of_linked hlinked hhistory
  | step operation _ ih => exact operation.intact_after ih

end SetCover

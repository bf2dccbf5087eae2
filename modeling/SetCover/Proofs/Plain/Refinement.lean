import SetCover.Proofs.Plain.Mirrors

/-!
# Refinement of plain tables

Whatever is done to a new table, rules of the search included, the same can be done to a plain one,
and the linked table shows the sets of the plain one in ascending order.  Changes get the same
answers on both.
-/

namespace SetCover

/-! ## Runs -/

/-- The operations of a table itself, without those of the search. -/
inductive Change where
  | insert (row column : Nat)
  | setCost (column component : Nat) (value : Float)
  | delete (line : Line)
  | select (column : Nat)
  | backup
  | restore
  | clear
  | resize (rowSize columnSize dimension : Nat)

namespace Change

variable {κ : Type} [Cost κ]

/-- The change among all operations. -/
def operation : Change → Operation
  | insert row column => .insert row column
  | setCost column component value => .setCost column component value
  | delete line => .delete line
  | select column => .select column
  | backup => .backup
  | restore => .restore
  | clear => .clear
  | resize rowSize columnSize dimension => .resize rowSize columnSize dimension

/-- Carries out a change.  The answer to an insertion says whether the cell is new. -/
def onMatrix : Change → Matrix.Edit κ (Option Bool)
  | insert row column => some <$> Matrix.insert row column
  | setCost column component value => (fun _ ↦ none) <$> Matrix.setCost column component value
  | delete line => (fun _ ↦ none) <$> Matrix.delete line
  | select column => (fun _ ↦ none) <$> Matrix.select column
  | backup => (fun _ ↦ none) <$> modify Matrix.backup
  | restore => (fun _ ↦ none) <$> Matrix.restore
  | clear => (fun _ ↦ none) <$> modify Matrix.clear
  | resize rowSize columnSize dimension =>
    (fun _ ↦ none) <$> Matrix.resize rowSize columnSize dimension

/-- Carries out a change on a plain table. -/
def onPlain : Change → PlainTable.Edit κ (Option Bool)
  | insert row column => some <$> PlainTable.insert row column
  | setCost column component value => (fun _ ↦ none) <$> PlainTable.setCost column component value
  | delete line => (fun _ ↦ none) <$> PlainTable.delete line
  | select column => (fun _ ↦ none) <$> PlainTable.select column
  | backup => (fun _ ↦ none) <$> PlainTable.backup
  | restore => (fun _ ↦ none) <$> PlainTable.restore
  | clear => (fun _ ↦ none) <$> PlainTable.clear
  | resize rowSize columnSize dimension =>
    (fun _ ↦ none) <$> PlainTable.resize rowSize columnSize dimension

end Change

/-- Whether an operation is a rule of the search. -/
def Operation.isRule : Operation → Bool
  | rowDominance => true
  | columnDominance => true
  | essentialColumns => true
  | reduce _ => true
  | _ => false

namespace PlainTable

variable {κ : Type} [Cost κ]

/-- The second table has come about from the first by deletions of active lines. -/
inductive Deletes (start : PlainTable κ) : PlainTable κ → Prop
  | refl : Deletes start start
  | delete {table : PlainTable κ} {line : Line} : Deletes start table →
      table.isActive line = true → Deletes start (table.without line.axis {line.index})

/-- What an operation, carried out or refused, can make of a plain table. -/
inductive Step : Operation → PlainTable κ → PlainTable κ → Prop
  | change (change : Change) {table next : PlainTable κ} :
      Calls.stateAfter change.onPlain table = next → Step change.operation table next
  | rule {operation : Operation} {table next : PlainTable κ} : operation.isRule = true →
      Deletes table next → Step operation table next
  | observe {operation : Operation} {table : PlainTable κ} : operation.isObserving = true →
      Step operation table table

/-- What operations can make of a plain table, one after the other. -/
inductive Run : List Operation → PlainTable κ → PlainTable κ → Prop
  | nil {table : PlainTable κ} : Run [] table table
  | cons {operation : Operation} {operations : List Operation} {table next last : PlainTable κ} :
      Step operation table next → Run operations next last → Run (operation :: operations) table last

end PlainTable

/-! ## Views -/

namespace Matrix

variable {κ : Type} [Cost κ] {matrix : Matrix κ} {table : PlainTable κ}

/-- A linked table shows a plain one: it answers to all changes in the same way, and it lists the sets
in ascending order. -/
structure Shows (matrix : Matrix κ) (table : PlainTable κ) : Prop where
  answer : ∀ change : Change,
    Calls.answer change.onMatrix matrix = Calls.answer change.onPlain table
  size : ∀ axis, (matrix.lines axis).size = table.size axis
  active : ∀ axis, matrix.active axis = (table.active axis).sort
  crossing : ∀ line, matrix.InRange line → matrix.crossing line = (table.shown line).sort
  count : ∀ line, matrix.InRange line → matrix.count line = (table.shown line).card
  cellCount : matrix.cellCount = table.cells.card
  cost : ∀ column, matrix.costOf column = table.cost column

theorem eq_sort {elements : List Nat} {set : Finset Nat} (hascending : elements.Pairwise (· < ·))
    (hmem : ∀ element, element ∈ elements ↔ element ∈ set) : elements = set.sort := by
  refine hascending.eq_of_mem_iff (Finset.sortedLT_sort set).pairwise fun {element} ↦ ?_
  rw [Finset.mem_sort]
  exact hmem element

namespace Mirrors

theorem agree (h : matrix.Mirrors table) (hmatrix : matrix.Intact) (change : Change) :
    Calls.Agree change.onMatrix change.onPlain matrix table Mirrors := by
  cases change with
  | insert row column => exact (h.agree_insert hmatrix row column).map _
  | setCost column component value => exact (h.agree_setCost column component value).map _
  | delete line => exact (h.agree_delete hmatrix line).map _
  | select column => exact (h.agree_select hmatrix column).map _
  | backup => exact (h.agree_backup hmatrix.linked).map _
  | restore => exact (h.agree_restore hmatrix).map _
  | clear => exact (h.agree_clear hmatrix.linked).map _
  | resize rowSize columnSize dimension =>
    exact (h.agree_resize rowSize columnSize dimension).map _

theorem mem_shown (h : matrix.Mirrors table) (hlinked : matrix.Linked) {line : Line}
    (hrange : matrix.InRange line) (index : Nat) :
    index ∈ matrix.crossing line ↔ index ∈ table.shown line := by
  have hstays := h.active line
  cases hactive : matrix.isActive line with
  | true =>
    rw [PlainTable.shown, if_pos (hstays ▸ hactive)]
    exact h.mem_crossing hlinked hactive
  | false =>
    rw [PlainTable.shown, if_neg (by simp [← hstays, hactive])]
    exact h.kept line hrange hactive index

theorem cellCount_eq (h : matrix.Mirrors table) (hlinked : matrix.Linked) :
    matrix.cellCount = table.cells.card := by
  have hcells : table.cells = matrix.cells.values.toFinset := by
    ext cell
    rw [List.mem_toFinset, Arena.mem_values, ← h.cells]
    rfl
  rw [hcells, List.toFinset_card_of_nodup hlinked.injective.nodup_values]
  exact hlinked.counted

theorem shows (h : matrix.Mirrors table) (hmatrix : matrix.Intact) : matrix.Shows table where
  answer change := (h.agree hmatrix change).answer
  size := h.size
  active axis := eq_sort (hmatrix.linked.lines axis).ascending fun index ↦ by
    have hactive := @mem_active _ _ ⟨axis, index⟩ _ _ h
    rw [hmatrix.linked.mem_active] at hactive
    exact hactive
  crossing line hrange := eq_sort (hmatrix.linked.ascending line hrange)
    (h.mem_shown hmatrix.linked hrange)
  count line hrange := by
    rw [← hmatrix.linked.length_crossing hrange, ← Finset.length_sort (· ≤ ·),
      ← eq_sort (hmatrix.linked.ascending line hrange) (h.mem_shown hmatrix.linked hrange)]
  cellCount := h.cellCount_eq hmatrix.linked
  cost := h.cost

/-- Deletions on a linked table are deletions on the plain one. -/
theorem exists_deletes (h : matrix.Mirrors table) (hmatrix : matrix.Intact) {next : Matrix κ}
    (hdeletes : Deletes matrix next) :
    ∃ last, PlainTable.Deletes table last ∧ next.Mirrors last := by
  induction hdeletes with
  | refl => exact ⟨table, .refl, h⟩
  | delete hprior hactive ih =>
    obtain ⟨last, hlast, hmirrors⟩ := ih
    have hintact := (Descends.of_deletes hmatrix hprior).intact hmatrix
    exact ⟨_, .delete hlast (hmirrors.active _ ▸ hactive), hmirrors.delete hintact hactive⟩

end Mirrors

end Matrix

/-! ## Runs on both tables -/

open SetCover.Matrix

variable {κ : Type} [Cost κ] {bench : Workbench κ} {table : PlainTable κ}

theorem Operation.eq_change_or (operation : Operation) :
    (∃ change : Change, change.operation = operation) ∨ operation.isRule = true ∨
      operation.isObserving = true := by
  cases operation with
  | insert row column => exact .inl ⟨.insert row column, rfl⟩
  | setCost column component value => exact .inl ⟨.setCost column component value, rfl⟩
  | delete line => exact .inl ⟨.delete line, rfl⟩
  | select column => exact .inl ⟨.select column, rfl⟩
  | backup => exact .inl ⟨.backup, rfl⟩
  | restore => exact .inl ⟨.restore, rfl⟩
  | clear => exact .inl ⟨.clear, rfl⟩
  | resize rowSize columnSize dimension => exact .inl ⟨.resize rowSize columnSize dimension, rfl⟩
  | lowerBound => exact .inr (.inr rfl)
  | solve config => exact .inr (.inr rfl)
  | _ => exact .inr (.inl rfl)

/-- A change does to the table of a workbench what it does to the table alone. -/
theorem Change.matrix_after (change : Change) (bench : Workbench κ) :
    (change.operation.after bench).matrix = Calls.stateAfter change.onMatrix bench.matrix := by
  have hedit {α : Type} (edit : Matrix.Edit κ α) : Calls.Ends edit bench.matrix
      (fun _ next ↦ next = Calls.stateAfter edit bench.matrix)
      (fun _ next ↦ next = Calls.stateAfter edit bench.matrix) := Calls.ends_stateAfter edit _
  apply @Operation.of_ends _ _ _ bench (· = Calls.stateAfter change.onMatrix bench.matrix)
  cases change with
  | insert row column =>
    rw [onMatrix, Calls.stateAfter_map]
    exact .discard (.edit (hedit _))
  | setCost column component value =>
    rw [onMatrix, Calls.stateAfter_map]
    exact .edit (hedit _)
  | delete line =>
    rw [onMatrix, Calls.stateAfter_map]
    exact Workbench.ends_reportingDeletions (hedit _)
  | select column =>
    rw [onMatrix, Calls.stateAfter_map]
    exact Workbench.ends_reportingDeletions (hedit _)
  | backup => exact Workbench.ends_backup rfl
  | restore =>
    rw [onMatrix, Calls.stateAfter_map]
    exact .bind (.report (.edit (hedit _)))
  | clear =>
    rw [onMatrix, Calls.stateAfter_map]
    have hclear := hedit (modify Matrix.clear)
    exact Workbench.Ends.edit hclear
  | resize rowSize columnSize dimension =>
    rw [onMatrix, Calls.stateAfter_map]
    exact .edit (hedit _)

/-- Every operation on a linked table is a step of the plain one. -/
theorem exists_step [LawfulCost κ] (h : bench.matrix.Mirrors table) (hmatrix : bench.matrix.Intact)
    (operation : Operation) :
    ∃ next, PlainTable.Step operation table next ∧ (operation.after bench).matrix.Mirrors next := by
  have hleads (hdescending : operation.isDescending = true) :
      operation.Leads bench.matrix (operation.after bench).matrix :=
    Operation.of_ends ((Operation.ends_descending hmatrix hdescending).imp (fun _ _ hnext ↦ hnext)
      fun _ _ hrefused ↦ hrefused.1)
  obtain ⟨change, rfl⟩ | hrule | hobserving := operation.eq_change_or
  · refine ⟨_, .change change rfl, ?_⟩
    rw [change.matrix_after]
    exact (h.agree hmatrix change).related
  · have hdescending : operation.isDescending = true := by
      cases operation <;> first | rfl | cases hrule
    have hsets : operation.setsCost = false := by
      cases operation <;> first | rfl | cases hrule
    obtain ⟨last, hlast, hmirrors⟩ := h.exists_deletes hmatrix ((hleads hdescending).deletes hsets)
    exact ⟨last, .rule hrule hlast, hmirrors⟩
  · have hdescending : operation.isDescending = true := by
      cases operation <;> first | rfl | cases hobserving
    refine ⟨table, .observe hobserving, ?_⟩
    rw [(hleads hdescending).unchanged hobserving]
    exact h

theorem exists_run [LawfulCost κ] (h : bench.matrix.Mirrors table) (hmatrix : bench.matrix.Intact)
    (operations : List Operation) :
    ∃ last, PlainTable.Run operations table last ∧
      (Operation.afterAll operations bench).matrix.Mirrors last := by
  induction operations generalizing bench table with
  | nil => exact ⟨table, .nil, h⟩
  | cons operation rest ih =>
    obtain ⟨next, hstep, hnext⟩ := exists_step h hmatrix operation
    obtain ⟨last, hrun, hlast⟩ := ih hnext (operation.intact_after hmatrix)
    exact ⟨last, .cons hstep hrun, hlast⟩

theorem mirrors_blank (rowSize columnSize : Nat) (recording : Bool) :
    (Workbench.blank κ rowSize columnSize recording).matrix.Mirrors
      (.new (PlainTable.shape rowSize columnSize)) := by
  obtain ⟨hlinked, hhistory⟩ := @linked_new κ _ _ _ _ _ (new_blank rowSize columnSize recording)
  refine mirrors_new hlinked hhistory (fun axis ↦ ?_) (fun slot ↦ ?_) rfl
  · cases axis <;> rfl
  · simp [Workbench.blank]

/-- Whatever is done to a new table, it shows a plain table to which the same can be done, and the
rows that are left when a column is chosen keep their columns. -/
theorem PlainTable.exists_run_shows [LawfulCost κ] (rowSize columnSize : Nat) (recording : Bool)
    (operations : List Operation) :
    let matrix :=
      (Operation.afterAll operations (Workbench.blank κ rowSize columnSize recording)).matrix
    (∃ table, Run operations (.new (shape rowSize columnSize)) table ∧ matrix.Shows table) ∧
      ∀ column next, Matrix.select column matrix = .ok () next →
        ∀ row ∈ next.activeRows, next.columnsOf row = matrix.columnsOf row := by
  intro matrix
  obtain ⟨hlinked, hhistory⟩ := @linked_new κ _ _ _ _ _ (new_blank rowSize columnSize recording)
  have hintact : matrix.Intact :=
    (reachable_afterAll_blank rowSize columnSize recording operations).intact
  obtain ⟨table, hrun, hmirrors⟩ := exists_run (mirrors_blank rowSize columnSize recording)
    (.of_linked hlinked hhistory) operations
  exact ⟨⟨table, hrun, hmirrors.shows hintact⟩,
    fun column next hselect row hrow ↦
      hintact.linked.columnsOf_of_select hintact.settled hselect hrow⟩

/-- After a deletion with which a column falls, the deleted row still shows both its columns. -/
theorem PlainTable.exists_run_shows_deletion :
    let operations : List Operation := [.insert 0 0, .insert 0 1, .insert 1 1, .insert 0 1, .backup,
      .select 1, .restore, .delete (.row 0), .delete (.column 0)]
    let matrix := (Operation.afterAll operations (Workbench.blank SingleCost 2 2 false)).matrix
    matrix.activeColumns = [1] ∧ matrix.columnsOf 0 = [0, 1] ∧ matrix.rowsOf 0 = [] ∧
      ∃ table, Run operations (.new (shape 2 2)) table ∧ matrix.Shows table :=
  ⟨by decide +kernel, by decide +kernel, by decide +kernel,
    (exists_run_shows 2 2 false [.insert 0 0, .insert 0 1, .insert 1 1, .insert 0 1, .backup,
      .select 1, .restore, .delete (.row 0), .delete (.column 0)]).1⟩

end SetCover

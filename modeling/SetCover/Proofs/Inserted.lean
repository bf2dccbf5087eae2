import SetCover.Proofs.Plain.Mirrors

/-!
# Inserted cells

The cells that were inserted are counted up along a run from the answers that it gave: an insertion that
is carried out adds its cell, whether or not it was there already, and clearing a table or giving it a
new shape forgets them all.  These are exactly the cells of the table, live or not.  No other operation
makes or loses a cell, whatever it deletes or restores.
-/

namespace SetCover

namespace Operation

variable {κ : Type} [Cost κ]

/-- The cells that have been inserted after an operation on a table, carried out or refused, if the
given ones had been before. -/
def insertedAfter (operation : Operation) (matrix : Matrix κ) (inserted : Finset Cell) : Finset Cell :=
  match operation with
  | insert row column =>
    match Matrix.insert row column matrix with
    | .ok _ _ => Insert.insert ⟨row, column⟩ inserted
    | .error _ _ => inserted
  | clear => ∅
  | resize rowSize columnSize dimension =>
    match Matrix.resize rowSize columnSize dimension matrix with
    | .ok _ _ => ∅
    | .error _ _ => inserted
  | _ => inserted

/-- The cells that have been inserted after several operations. -/
def insertedAfterAll : List Operation → Workbench κ → Finset Cell → Finset Cell
  | [], _, inserted => inserted
  | operation :: rest, bench, inserted =>
    insertedAfterAll rest (operation.after bench) (operation.insertedAfter bench.matrix inserted)

end Operation

open Workbench SetCover.Matrix

namespace Matrix

variable {κ : Type} {matrix next : Matrix κ} {inserted : Finset Cell}

/-- The cells of a table, live or not, are the given ones. -/
def Holds (matrix : Matrix κ) (inserted : Finset Cell) : Prop :=
  ∀ cell, matrix.HasCell cell ↔ cell ∈ inserted

theorem Holds.congr (h : matrix.Holds inserted) (hcells : next.cells = matrix.cells) :
    next.Holds inserted :=
  fun cell ↦ (hasCell_congr hcells cell).trans (h cell)

theorem holds_of_vacant (hvacant : ∀ slot, matrix.cells.get? slot = none) : matrix.Holds ∅ := by
  intro cell
  simp [HasCell, hvacant]

theorem holds_new [Cost κ] {rowSize columnSize dimension : Nat}
    (hnew : Matrix.new rowSize columnSize dimension = .ok matrix) : matrix.Holds ∅ := by
  unfold Matrix.new at hnew
  split at hnew
  · obtain rfl := Except.ok.inj hnew
    exact holds_of_vacant Arena.get?_empty
  · cases hnew

theorem Holds.ends_insert [Cost κ] (h : matrix.Holds inserted) (hmatrix : matrix.Intact)
    (row column : Nat) :
    Calls.Ends (insert row column) matrix
      (fun _ next ↦ next.Holds ((Operation.insert row column).insertedAfter matrix inserted))
      (fun _ next ↦ next.Holds ((Operation.insert row column).insertedAfter matrix inserted)) := by
  rw [Operation.insertedAfter]
  obtain ⟨fault, hinsert, -⟩ | ⟨hinsert, -, hcell⟩ | ⟨next, hinsert, -, -, hcells⟩ :=
    hmatrix.linked.insert_cases row column
  · simp only [hinsert]
    exact .of_error hinsert h
  · simp only [hinsert, Finset.insert_eq_of_mem ((h _).mp hcell)]
    exact .of_ok hinsert h
  · simp only [hinsert]
    refine .of_ok hinsert fun cell ↦ ?_
    rw [hasCell_insert hcells, h cell, Finset.mem_insert]

end Matrix

variable {κ : Type} [Cost κ] {matrix : Matrix κ} {inserted : Finset Cell}

/-- What is counted up along a run stays what the table holds. -/
theorem Operation.ends_holds [LawfulCost κ] (h : matrix.Holds inserted) (hmatrix : matrix.Intact)
    (operation : Operation) :
    Ends operation.run matrix
      (fun _ next ↦ next.Holds (operation.insertedAfter matrix inserted))
      (fun _ next ↦ next.Holds (operation.insertedAfter matrix inserted)) := by
  cases hdescending : operation.isDescending with
  | true =>
    have hinserted : operation.insertedAfter matrix inserted = inserted := by
      cases operation <;> first | rfl | cases hdescending
    rw [hinserted]
    exact (ends_descending hmatrix hdescending).imp
      (fun _ _ hnext ↦ h.congr hnext.descends.removes.cells_eq)
      fun _ _ hrefused ↦ h.congr hrefused.1.descends.removes.cells_eq
  | false =>
    cases operation with
    | insert row column => exact .discard (.edit (h.ends_insert hmatrix row column))
    | backup => exact ends_backup h
    | restore =>
      refine .bind (.report (.edit ?_))
      obtain ⟨outer, -, hremoves, hrestore⟩ | ⟨base, -, -, hremoves, hrestore⟩ :=
        hmatrix.restore_cases
      · exact .of_ok hrestore (h.congr hremoves.cells_eq.symm)
      · exact .of_error hrestore (h.congr hremoves.cells_eq.symm)
    | clear =>
      have hclear : matrix.clear.Holds ∅ :=
        holds_of_vacant fun slot ↦ by simp [Matrix.clear, Arena.get?_releaseFrom]
      exact fun _ _ ↦ hclear
    | resize rowSize columnSize dimension =>
      refine .edit ?_
      rw [insertedAfter]
      cases hnew : (Matrix.new rowSize columnSize dimension : Except Fault (Matrix κ)) with
      | error fault =>
        have hresize : Matrix.resize rowSize columnSize dimension matrix = .error fault matrix := by
          rw [Matrix.resize, hnew]
          rfl
        simp only [hresize]
        exact .of_error hresize h
      | ok next =>
        have hresize : Matrix.resize rowSize columnSize dimension matrix = .ok () next := by
          rw [Matrix.resize, hnew]
          rfl
        simp only [hresize]
        exact .of_ok hresize (holds_new hnew)
    | _ => cases hdescending

namespace Matrix

/-- The tables that come from a new one by operations, with the cells that were inserted. -/
inductive ReachableWith : Matrix κ → Finset Cell → Prop
  | new {rowSize columnSize dimension : Nat} {matrix : Matrix κ} :
      Matrix.new rowSize columnSize dimension = .ok matrix → ReachableWith matrix ∅
  | step {bench : Workbench κ} {inserted : Finset Cell} (operation : Operation) :
      ReachableWith bench.matrix inserted →
      ReachableWith (operation.after bench).matrix (operation.insertedAfter bench.matrix inserted)

theorem ReachableWith.reachable (h : matrix.ReachableWith inserted) : matrix.Reachable := by
  induction h with
  | new hnew => exact .new hnew
  | step operation _ ih => exact .step operation ih

/-- Every reachable table is reachable with the cells that its run inserted. -/
theorem Reachable.exists_reachableWith (h : matrix.Reachable) :
    ∃ inserted, matrix.ReachableWith inserted := by
  induction h with
  | new hnew => exact ⟨∅, .new hnew⟩
  | step operation _ ih =>
    obtain ⟨inserted, hinserted⟩ := ih
    exact ⟨_, .step operation hinserted⟩

theorem ReachableWith.afterAll {bench : Workbench κ} (h : bench.matrix.ReachableWith inserted)
    (operations : List Operation) :
    (Operation.afterAll operations bench).matrix.ReachableWith
      (Operation.insertedAfterAll operations bench inserted) := by
  induction operations generalizing bench inserted with
  | nil => exact h
  | cons operation rest ih => exact ih (.step operation h)

/-- A reachable table has the cells that were inserted and no others. -/
theorem ReachableWith.holds [LawfulCost κ] (h : matrix.ReachableWith inserted) :
    matrix.Holds inserted := by
  induction h with
  | new hnew => exact holds_new hnew
  | step operation hprior ih =>
    exact Operation.of_ends (operation.ends_holds ih hprior.reachable.intact)

end Matrix

end SetCover

import SetCover.Proofs.Reachable

/-!
# Pending deletions

A table on whose history something is pending stands above the table that it was when the history was
last empty: lines have been removed and markers put on the history in between, and costs set, but no
cell has come or gone.  Every operation that leaves something pending keeps it there.  So a restoration
without a marker, although it is refused, ends at this very table, in which every cell is live.
-/

namespace SetCover

open Workbench SetCover.Matrix

namespace Matrix

variable {κ : Type} {base outer matrix next : Matrix κ}

theorem Removes.marker_mem_iff (h : Removes base matrix) :
    .marker ∈ matrix.history ↔ .marker ∈ base.history := by
  induction h with
  | refl => exact Iff.rfl
  | remove _ _ ih => rw [history_remove, List.mem_cons, or_iff_right (by simp), ih]

/-- The second table has come about from the first by removals and markers. -/
inductive Above (base : Matrix κ) : Matrix κ → Prop
  | ground {matrix : Matrix κ} : Removes base matrix → Above base matrix
  | marked {outer matrix : Matrix κ} : Above base outer → Removes outer.backup matrix →
      Above base matrix

namespace Above

theorem linked (h : Above base matrix) (hbase : base.Linked) : matrix.Linked := by
  induction h with
  | ground hremoves => exact hremoves.linked hbase
  | marked _ hremoves ih => exact hremoves.linked ih.backup

theorem costs_eq (h : Above base matrix) : matrix.costs = base.costs := by
  induction h with
  | ground hremoves => exact hremoves.costs_eq
  | marked _ hremoves ih => exact hremoves.costs_eq.trans ih

theorem cells_eq (h : Above base matrix) : matrix.cells = base.cells := by
  induction h with
  | ground hremoves => exact hremoves.cells_eq
  | marked _ hremoves ih => exact hremoves.cells_eq.trans ih

theorem removes (h : Above base matrix) (hremoves : Removes matrix next) : Above base next := by
  cases h with
  | ground hprior => exact .ground (hprior.trans hremoves)
  | marked houter hprior => exact .marked houter (hprior.trans hremoves)

theorem withCosts (h : Above base matrix) (costs : Array κ) :
    Above { base with costs := costs } { matrix with costs := costs } := by
  induction h with
  | ground hremoves => exact .ground (hremoves.withCosts costs)
  | marked _ hremoves ih => exact .marked ih (hremoves.withCosts costs)

/-- A restoration stays above the base if there is a marker, and otherwise it ends at the base. -/
theorem restore_cases (h : Above base matrix) (hbase : base.Linked) (hhistory : base.history = []) :
    (.marker ∈ matrix.history ∧ ∃ outer, restore matrix = .ok () outer ∧ Above base outer) ∨
      (.marker ∉ matrix.history ∧ restore matrix = .error .noMarker base) := by
  cases h with
  | ground hremoves =>
    refine .inr ⟨?_, hremoves.restore_ground hbase hhistory⟩
    rw [hremoves.marker_mem_iff, hhistory]
    exact List.not_mem_nil
  | marked houter hremoves =>
    have hmarked := hremoves.marker_mem_iff.mpr List.mem_cons_self
    exact .inl ⟨hmarked, _, hremoves.restore_backup (houter.linked hbase).backup, houter⟩

end Above

theorem Descends.above (h : Descends matrix next)
    (habove : Above { base with costs := matrix.costs } matrix) :
    Above { base with costs := next.costs } next :=
  (habove.withCosts next.costs).removes h.removes

/-- If nothing is pending, every cell is live. -/
theorem Linked.live_of_hasCell {cell : Cell} (h : matrix.Linked) (hhistory : matrix.history = [])
    (hcell : matrix.HasCell cell) :
    matrix.isActive (.row cell.row) = true ∧ matrix.isActive (.column cell.column) = true ∧
      cell.column ∈ matrix.columnsOf cell.row ∧ cell.row ∈ matrix.rowsOf cell.column := by
  obtain ⟨slot, hslot⟩ := hcell
  obtain ⟨hrow, hcolumn⟩ := indexAt?_eq_some_iff.mp hslot
  have hrowActive : matrix.isActive (.row cell.row) = true :=
    (h.isActive_iff_occupied hhistory).mpr ⟨slot, hrow⟩
  have hcolumnActive : matrix.isActive (.column cell.column) = true :=
    (h.isActive_iff_occupied hhistory).mpr ⟨slot, hcolumn⟩
  have hshown := h.mem_crossing_iff_hasCell hhistory (h.inRange_of_isActive hrowActive)
    (h.inRange_of_isActive hcolumnActive)
  exact ⟨hrowActive, hcolumnActive, hshown.1.mpr ⟨slot, hslot⟩, hshown.2.mpr ⟨slot, hslot⟩⟩

/-- An insertion never makes anything pending. -/
theorem ends_insert_history (h : matrix.Linked) (row column : Nat) :
    Calls.Ends (insert row column) matrix (fun _ next ↦ next.history = [])
      fun _ next ↦ next = matrix := by
  obtain ⟨fault, hinsert, -⟩ | ⟨hinsert, hhistory, -⟩ | ⟨next, hinsert, hnext, -⟩ :=
    h.insert_cases row column
  · exact .of_error hinsert rfl
  · exact .of_ok hinsert hhistory
  · exact .of_ok hinsert hnext

end Matrix

variable {κ : Type} [Cost κ] {base origin matrix : Matrix κ}

/-- Whatever an operation leaves pending stands above the same table, costs aside. -/
theorem Operation.ends_above [LawfulCost κ] (h : Above { base with costs := matrix.costs } matrix)
    (hmatrix : matrix.Intact) (hbase : base.Linked) (hhistory : base.history = [])
    (operation : Operation) :
    Ends operation.run matrix
      (fun _ next ↦ next.history ≠ [] → Above { base with costs := next.costs } next)
      (fun _ next ↦ next.history ≠ [] → Above { base with costs := next.costs } next) := by
  have hsame {next : Matrix κ} (hnext : next = matrix) (_ : next.history ≠ []) :
      Above { base with costs := next.costs } next := hnext ▸ h
  cases hdescending : operation.isDescending with
  | true =>
    exact (ends_descending hmatrix hdescending).imp (fun _ _ hnext _ ↦ hnext.descends.above h)
      fun _ _ hnext _ ↦ hnext.1.descends.above h
  | false =>
    cases operation with
    | insert row column =>
      exact .discard (.edit ((ends_insert_history hmatrix.linked row column).imp
        (fun _ _ hempty hpending ↦ absurd hempty hpending) fun _ _ ↦ hsame))
    | backup => exact ends_backup fun _ ↦ .marked h .refl
    | restore =>
      refine .bind (.report (.edit ?_))
      rcases h.restore_cases (hbase.withCosts _) hhistory with
        ⟨-, outer, hrestore, habove⟩ | ⟨-, hrestore⟩
      · refine .of_ok hrestore fun _ ↦ ?_
        rw [habove.costs_eq]
        exact habove
      · exact .of_error hrestore fun hpending ↦ absurd hhistory hpending
    | clear => exact fun _ _ hpending ↦ absurd rfl hpending
    | resize rowSize columnSize dimension =>
      refine .edit ?_
      rw [Matrix.resize]
      cases hnew : (Matrix.new rowSize columnSize dimension : Except Fault (Matrix κ)) with
      | error fault => exact .throw (hsame rfl)
      | ok next => exact .of_ok rfl fun hpending ↦ absurd (linked_new hnew).2 hpending
    | _ => cases hdescending

namespace Matrix

/-- The history of the first table was empty, and on the way from it to the second one something was
always pending. -/
inductive PendingSince (origin : Matrix κ) : Matrix κ → Prop
  | start : origin.Reachable → origin.history = [] → PendingSince origin origin
  | step {bench : Workbench κ} (operation : Operation) : PendingSince origin bench.matrix →
      (operation.after bench).matrix.history ≠ [] →
      PendingSince origin (operation.after bench).matrix

theorem PendingSince.of_origin (h : PendingSince origin matrix) :
    origin.Reachable ∧ origin.history = [] := by
  induction h with
  | start horigin hhistory => exact ⟨horigin, hhistory⟩
  | step _ _ _ ih => exact ih

theorem PendingSince.reachable (h : PendingSince origin matrix) : matrix.Reachable := by
  induction h with
  | start horigin _ => exact horigin
  | step operation _ _ ih => exact .step operation ih

theorem PendingSince.afterAll {bench : Workbench κ} (h : PendingSince origin bench.matrix)
    {operations : List Operation} (hpending : ∀ count < operations.length,
      (Operation.afterAll (operations.take (count + 1)) bench).matrix.history ≠ []) :
    PendingSince origin (Operation.afterAll operations bench).matrix := by
  induction operations generalizing bench with
  | nil => exact h
  | cons operation rest ih =>
    have hfirst : (operation.after bench).matrix.history ≠ [] := hpending 0 (Nat.succ_pos _)
    exact ih (.step operation h hfirst) fun count hcount ↦
      hpending (count + 1) (Nat.succ_lt_succ hcount)

/-- A table stands above what it was when its history was last empty. -/
theorem PendingSince.above [LawfulCost κ] (h : PendingSince origin matrix) :
    Above { origin with costs := matrix.costs } matrix := by
  induction h with
  | start _ _ => exact .ground .refl
  | step operation hprior hpending ih =>
    obtain ⟨horigin, hhistory⟩ := hprior.of_origin
    exact Operation.of_ends (Operation.ends_above ih hprior.reachable.intact horigin.intact.linked
      hhistory operation) hpending

/-- The history of every reachable table was empty once. -/
theorem Reachable.exists_pendingSince [LawfulCost κ] (h : matrix.Reachable) :
    ∃ origin, PendingSince origin matrix := by
  induction h with
  | new hnew => exact ⟨_, .start (.new hnew) (linked_new hnew).2⟩
  | @step bench operation hprior ih =>
    obtain ⟨origin, horigin⟩ := ih
    by_cases hempty : (operation.after bench).matrix.history = []
    · exact ⟨_, .start (.step operation hprior) hempty⟩
    · exact ⟨origin, .step operation horigin hempty⟩

end Matrix

end SetCover

import SetCover.Proofs.Cost.Amount
import SetCover.Proofs.Search.Reduction

/-!
# Covers

A set of active columns covers a table if every active row has a cell in one of them.  Deleting lines
changes what has to be covered and what may be used for it: a row that contains another row is covered
with it, a column can be replaced by one that dominates it, and the choice of a column covers its rows.
So every reduction keeps the least amount that covers cost.
-/

namespace SetCover

namespace Matrix

variable {κ : Type} {matrix next start : Matrix κ} {columns : Finset Nat} {row column : Nat}

/-- The columns are active, and every active row has a cell in one of them. -/
structure Covers (matrix : Matrix κ) (columns : Finset Nat) : Prop where
  active : ∀ column ∈ columns, matrix.isActive (.column column) = true
  covered : ∀ row, matrix.isActive (.row row) = true →
    ∃ column ∈ columns, matrix.Crosses (.row row) column

/-- The active columns as a set. -/
def columnSet (matrix : Matrix κ) : Finset Nat := matrix.activeColumns.toFinset

theorem Linked.mem_columnSet (h : matrix.Linked) :
    column ∈ matrix.columnSet ↔ matrix.isActive (.column column) = true := by
  rw [columnSet, List.mem_toFinset]
  exact (@Linked.mem_active _ _ (.column column) h).symm

theorem Linked.mem_columnsOf_iff (h : matrix.Linked) (hrow : matrix.isActive (.row row) = true) :
    column ∈ matrix.columnsOf row ↔
      matrix.Crosses (.row row) column ∧ matrix.isActive (.column column) = true :=
  h.mem_crossing_iff hrow

theorem Linked.mem_rowsOf_iff (h : matrix.Linked)
    (hcolumn : matrix.isActive (.column column) = true) :
    row ∈ matrix.rowsOf column ↔
      matrix.Crosses (.row row) column ∧ matrix.isActive (.row row) = true := by
  rw [← @crosses_comm _ matrix (.row row) column]
  exact h.mem_crossing_iff hcolumn

/-- Every cover has the only column of an active row. -/
theorem Covers.mem_of_only (hcovers : matrix.Covers columns) (h : matrix.Linked)
    (hrow : matrix.isActive (.row row) = true) (honly : matrix.columnsOf row = [column]) :
    column ∈ columns := by
  obtain ⟨other, hother, hcrosses⟩ := hcovers.covered row hrow
  have hlisted := (h.mem_columnsOf_iff hrow).mpr ⟨hcrosses, hcovers.active other hother⟩
  rw [honly, List.mem_singleton] at hlisted
  rwa [← hlisted]

/-- A cover stays one, as far as its columns stay, if the columns of the rows that stay do. -/
theorem Covers.restrict (h : matrix.Covers columns) (hcells : next.cells = matrix.cells)
    (hnext : next.Linked) (hrows : ∀ row, next.isActive (.row row) = true →
      matrix.isActive (.row row) = true ∧ ∀ column, matrix.isActive (.column column) = true →
        matrix.Crosses (.row row) column → next.isActive (.column column) = true) :
    next.Covers (columns ∩ next.columnSet) where
  active column hcolumn := hnext.mem_columnSet.mp (Finset.mem_inter.mp hcolumn).2
  covered row hrow := by
    obtain ⟨hbefore, hstay⟩ := hrows row hrow
    obtain ⟨column, hcolumn, hcrosses⟩ := h.covered row hbefore
    have hkept := hstay column (h.active column hcolumn) hcrosses
    exact ⟨column, Finset.mem_inter.mpr ⟨hcolumn, hnext.mem_columnSet.mpr hkept⟩,
      (crosses_congr hcells).mpr hcrosses⟩

/-! ## Deleting a row that contains another one -/

section DeletedRow

variable {contained : Nat}

theorem isActive_row_deletedRow (h : matrix.Linked) (hsettled : matrix.Settled)
    (hactive : matrix.isActive (.row row) = true) {other : Nat} :
    (matrix.deleted (.row row)).isActive (.row other) = true ↔
      matrix.isActive (.row other) = true ∧ other ≠ row := by
  rw [isActive_deleted h hsettled hactive]
  simp

theorem Covers.of_deletedRow (h : matrix.Linked) (hsettled : matrix.Settled)
    (hactive : matrix.isActive (.row row) = true)
    (hcontained : matrix.isActive (.row contained) = true) (hne : row ≠ contained)
    (hsubset : ∀ column ∈ matrix.columnsOf contained, column ∈ matrix.columnsOf row)
    (hcovers : (matrix.deleted (.row row)).Covers columns) : matrix.Covers columns := by
  have hremoves := (removes_deleted h hactive).1
  have hstays := fun column hcolumn ↦ hremoves.isActive_of h (hcovers.active column hcolumn)
  have hcrossing : ∀ other, (matrix.deleted (.row row)).isActive (.row other) = true →
      ∃ column ∈ columns, matrix.Crosses (.row other) column := fun other hother ↦ by
    obtain ⟨column, hcolumn, hcrosses⟩ := hcovers.covered other hother
    exact ⟨column, hcolumn, (crosses_congr hremoves.cells_eq).mp hcrosses⟩
  refine ⟨hstays, fun other hother ↦ ?_⟩
  by_cases heq : other = row
  · have hkept := (isActive_row_deletedRow h hsettled hactive).mpr ⟨hcontained, hne.symm⟩
    obtain ⟨column, hcolumn, hcrosses⟩ := hcrossing contained hkept
    have hmem := hsubset column
      ((h.mem_columnsOf_iff hcontained).mpr ⟨hcrosses, hstays column hcolumn⟩)
    rw [heq]
    exact ⟨column, hcolumn, ((h.mem_columnsOf_iff hactive).mp hmem).1⟩
  · exact hcrossing other ((isActive_row_deletedRow h hsettled hactive).mpr ⟨hother, heq⟩)

theorem Covers.deletedRow (h : matrix.Linked) (hsettled : matrix.Settled)
    (hactive : matrix.isActive (.row row) = true) (hcovers : matrix.Covers columns) :
    (matrix.deleted (.row row)).Covers (columns ∩ (matrix.deleted (.row row)).columnSet) := by
  have hremoves := (removes_deleted h hactive).1
  apply hcovers.restrict hremoves.cells_eq (hremoves.linked h)
  intro other hother
  obtain ⟨hbefore, hne⟩ := (isActive_row_deletedRow h hsettled hactive).mp hother
  refine ⟨hbefore, fun column hcolumn hcrosses ↦ ?_⟩
  have hmem := (h.mem_rowsOf_iff hcolumn).mpr ⟨hcrosses, hbefore⟩
  exact (isActive_deleted h hsettled hactive).mpr ⟨hcolumn, by simp, fun _ ↦ ⟨other, hmem, hne⟩⟩

end DeletedRow

/-! ## Deleting a column that is not needed -/

section DeletedColumn

/-- A column is spare if all its rows have other columns. -/
def Spare (matrix : Matrix κ) (column : Nat) : Prop :=
  ∀ row ∈ matrix.rowsOf column, ∃ other ∈ matrix.columnsOf row, other ≠ column

theorem isActive_row_deletedColumn (h : matrix.Linked) (hsettled : matrix.Settled)
    (hactive : matrix.isActive (.column column) = true) (hspare : matrix.Spare column) :
    (matrix.deleted (.column column)).isActive (.row row) = true ↔
      matrix.isActive (.row row) = true := by
  rw [isActive_deleted h hsettled hactive]
  refine ⟨fun hrow ↦ hrow.1, fun hrow ↦ ⟨hrow, by simp, fun _ ↦ ?_⟩⟩
  by_cases hmem : column ∈ matrix.columnsOf row
  · exact hspare row ((h.mem_rowsOf_iff hactive).mpr
      ⟨((h.mem_columnsOf_iff hrow).mp hmem).1, hrow⟩)
  · obtain ⟨other, hother⟩ := h.settled_iff.mp hsettled _ hrow
    refine ⟨other, hother, fun heq ↦ hmem ?_⟩
    obtain rfl : other = column := heq
    exact hother

theorem isActive_column_deletedColumn (h : matrix.Linked) (hsettled : matrix.Settled)
    (hactive : matrix.isActive (.column column) = true) {other : Nat} :
    (matrix.deleted (.column column)).isActive (.column other) = true ↔
      matrix.isActive (.column other) = true ∧ other ≠ column := by
  rw [isActive_deleted h hsettled hactive]
  simp

theorem Covers.of_deletedColumn (h : matrix.Linked) (hsettled : matrix.Settled)
    (hactive : matrix.isActive (.column column) = true) (hspare : matrix.Spare column)
    (hcovers : (matrix.deleted (.column column)).Covers columns) : matrix.Covers columns := by
  have hremoves := (removes_deleted h hactive).1
  refine ⟨fun other hother ↦ hremoves.isActive_of h (hcovers.active other hother),
    fun row hrow ↦ ?_⟩
  obtain ⟨other, hother, hcrosses⟩ := hcovers.covered row
    ((isActive_row_deletedColumn h hsettled hactive hspare).mpr hrow)
  exact ⟨other, hother, (crosses_congr hremoves.cells_eq).mp hcrosses⟩

theorem Covers.deletedColumn (h : matrix.Linked) (hsettled : matrix.Settled)
    (hactive : matrix.isActive (.column column) = true) (hspare : matrix.Spare column)
    (hcovers : matrix.Covers columns) (hmem : column ∉ columns) :
    (matrix.deleted (.column column)).Covers columns := by
  have hremoves := (removes_deleted h hactive).1
  refine ⟨fun other hother ↦ (isActive_column_deletedColumn h hsettled hactive).mpr
    ⟨hcovers.active other hother, fun heq ↦ hmem (heq ▸ hother)⟩, fun row hrow ↦ ?_⟩
  obtain ⟨other, hother, hcrosses⟩ := hcovers.covered row
    ((isActive_row_deletedColumn h hsettled hactive hspare).mp hrow)
  exact ⟨other, hother, (crosses_congr hremoves.cells_eq).mpr hcrosses⟩

/-- A dominated column can be replaced in every cover. -/
theorem Covers.replace (h : matrix.Linked) {dominator : Nat}
    (hactive : matrix.isActive (.column column) = true)
    (hdominator : matrix.isActive (.column dominator) = true)
    (hsubset : ∀ row ∈ matrix.rowsOf column, row ∈ matrix.rowsOf dominator)
    (hcovers : matrix.Covers columns) : matrix.Covers ({dominator} ∪ columns.erase column) := by
  refine ⟨fun other hother ↦ ?_, fun row hrow ↦ ?_⟩
  · rcases Finset.mem_union.mp hother with hother | hother
    · rw [Finset.mem_singleton.mp hother]
      exact hdominator
    · exact hcovers.active other (Finset.mem_of_mem_erase hother)
  · obtain ⟨other, hother, hcrosses⟩ := hcovers.covered row hrow
    by_cases heq : other = column
    · have hmem := hsubset row ((h.mem_rowsOf_iff hactive).mpr ⟨heq ▸ hcrosses, hrow⟩)
      exact ⟨dominator, Finset.mem_union_left _ (Finset.mem_singleton_self _),
        ((h.mem_rowsOf_iff hdominator).mp hmem).1⟩
    · exact ⟨other, Finset.mem_union_right _ (Finset.mem_erase.mpr ⟨heq, hother⟩), hcrosses⟩

end DeletedColumn

/-! ## Choosing a column -/

section Selected

theorem isActive_row_selected (h : matrix.Linked) (hsettled : matrix.Settled)
    (hactive : matrix.isActive (.column column) = true) :
    (matrix.selected column).isActive (.row row) = true ↔
      matrix.isActive (.row row) = true ∧ ¬matrix.Crosses (.row row) column := by
  rw [(allDeleted_selected h hsettled hactive).2.parallel]
  refine and_congr_right fun hrow ↦ not_congr ?_
  rw [h.mem_rowsOf_iff hactive]
  exact and_iff_left hrow

theorem Covers.of_selected (h : matrix.Linked) (hsettled : matrix.Settled)
    (hactive : matrix.isActive (.column column) = true)
    (hcovers : (matrix.selected column).Covers columns) :
    column ∉ columns ∧ matrix.Covers ({column} ∪ columns) := by
  have hremoves := removes_selected h hsettled hactive
  have hgone := isActive_column_selected h hsettled hactive
  refine ⟨fun hmem ↦ ?_, fun other hother ↦ ?_, fun row hrow ↦ ?_⟩
  · exact ne_true_of_eq_false hgone (hcovers.active column hmem)
  · rcases Finset.mem_union.mp hother with hother | hother
    · rw [Finset.mem_singleton.mp hother]
      exact hactive
    · exact hremoves.isActive_of h (hcovers.active other hother)
  · by_cases hcrosses : matrix.Crosses (.row row) column
    · exact ⟨column, Finset.mem_union_left _ (Finset.mem_singleton_self _), hcrosses⟩
    · obtain ⟨other, hother, hcrosses⟩ := hcovers.covered row
        ((isActive_row_selected h hsettled hactive).mpr ⟨hrow, hcrosses⟩)
      exact ⟨other, Finset.mem_union_right _ hother, (crosses_congr hremoves.cells_eq).mp hcrosses⟩

theorem Covers.selected (h : matrix.Linked) (hsettled : matrix.Settled)
    (hactive : matrix.isActive (.column column) = true) (hcovers : matrix.Covers columns) :
    (matrix.selected column).Covers (columns ∩ (matrix.selected column).columnSet) := by
  have hdeleted := (allDeleted_selected h hsettled hactive).2
  have hremoves := removes_selected h hsettled hactive
  apply hcovers.restrict hremoves.cells_eq (hremoves.linked h)
  intro row hrow
  have hbefore := (isActive_row_selected h hsettled hactive).mp hrow
  refine ⟨hbefore.1, fun other hother hcrosses ↦ ?_⟩
  refine (hdeleted.crossing other).mpr ⟨hother, row, ?_, ((hdeleted.parallel row).mp hrow).2⟩
  exact (h.mem_rowsOf_iff hother).mpr ⟨hcrosses, hbefore.1⟩

/-- A cover that has the chosen column has the columns for what is left beside it. -/
theorem union_inter_selected_subset (h : matrix.Linked) (hsettled : matrix.Settled)
    (hactive : matrix.isActive (.column column) = true) (hmem : column ∈ columns) :
    column ∉ columns ∩ (matrix.selected column).columnSet ∧
      {column} ∪ columns ∩ (matrix.selected column).columnSet ⊆ columns := by
  have hlinked := (removes_selected h hsettled hactive).linked h
  refine ⟨fun hleft ↦ ?_,
    Finset.union_subset (Finset.singleton_subset_iff.mpr hmem) Finset.inter_subset_left⟩
  have hkept := hlinked.mem_columnSet.mp (Finset.mem_inter.mp hleft).2
  exact ne_true_of_eq_false (isActive_column_selected h hsettled hactive) hkept

end Selected

end Matrix

end SetCover

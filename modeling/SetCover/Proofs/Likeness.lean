import Mathlib.Data.List.Find
import SetCover.Matrix.Text
import SetCover.Proofs.Cost.Lawful
import SetCover.Proofs.Search.Branching
import SetCover.Search.Bound

/-!
# Tables that look alike

Two tables look alike if they have the same shape, the same active lines with the same cells, and the
same costs.  Where the cells lie in the arena, what the rings of deleted lines hold and what is on the
history does not matter.  Deleting the same line or choosing the same column keeps tables alike, and
whatever the rules and the lower bound read is read the same off both.

Tables look alike if and only if their snapshots are the same.
-/

namespace SetCover

/-! ## Lists read through functions that agree on them -/

theorem minOn?_congr {first second : Nat → Nat} {elements : List Nat}
    (h : ∀ element ∈ elements, first element = second element) :
    elements.minOn? first = elements.minOn? second := by
  induction elements with
  | nil => rfl
  | cons element rest ih =>
    have hrest := ih fun other hother ↦ h other (by simp [hother])
    rw [List.minOn?_cons, List.minOn?_cons, hrest]
    cases hleast : rest.minOn? second with
    | none => rfl
    | some least =>
      have hmem : least ∈ rest := List.minOn?_mem hleast
      simp only [Option.elim_some, minOn, h element (by simp), h least (by simp [hmem])]

theorem mergeSort_congr {first second : Nat → Nat → Bool} {elements : List Nat}
    (h : ∀ left ∈ elements, ∀ right ∈ elements, first left right = second left right) :
    elements.mergeSort first = elements.mergeSort second := by
  have hsorted := @List.map_mergeSort _ _ first second id elements h
  rwa [List.map_id, List.map_id] at hsorted

theorem mapM_congr {α β : Type} {first second : α → Except Fault β} {elements : List α}
    (h : ∀ element ∈ elements, first element = second element) :
    elements.mapM first = elements.mapM second := by
  induction elements with
  | nil => rfl
  | cons element rest ih =>
    rw [List.mapM_cons, List.mapM_cons, h element (by simp),
      ih fun other hother ↦ h other (by simp [hother])]

/-! ## Snapshots that are the same -/

section Same

variable {κ : Type} [Cost κ] [LawfulCost κ]

theorem zip_all_isEq_iff {left right : List κ} (hlength : left.length = right.length) :
    ((left.zip right).all fun (first, second) ↦ (compare first second).isEq) = true ↔
      left = right := by
  induction left generalizing right with
  | nil => simp [List.length_eq_zero_iff.mp hlength.symm]
  | cons first rest ih =>
    cases right with
    | nil => cases hlength
    | cons second others =>
      rw [List.zip_cons_cons, List.all_cons, Bool.and_eq_true, LawfulCost.compare_isEq_iff,
        ih (Nat.succ.inj hlength), List.cons.injEq]

/-- Costs that are equal in their order are equal, so snapshots that are the same are equal. -/
theorem Snapshot.same_iff {left right : Snapshot κ} : left.same right = true ↔ left = right := by
  obtain ⟨rowSize, columnSize, rows, columns, cells, costs⟩ := left
  obtain ⟨otherRowSize, otherColumnSize, otherRows, otherColumns, otherCells, otherCosts⟩ := right
  have hcosts : costs.length = otherCosts.length ∧
      ((costs.zip otherCosts).all fun (first, second) ↦ (compare first second).isEq) = true ↔
        costs = otherCosts := by
    constructor
    · exact fun hall ↦ (zip_all_isEq_iff hall.1).mp hall.2
    · intro heq
      have hlength := congrArg List.length heq
      exact ⟨hlength, (zip_all_isEq_iff hlength).mpr heq⟩
  simp only [same, Bool.and_eq_true, beq_iff_eq, and_assoc, hcosts, Snapshot.mk.injEq]

end Same

namespace Matrix

variable {κ : Type} {first second left right matrix next : Matrix κ} {axis : Axis} {line : Line}
  {row column : Nat}

/-! ## Active lines -/

theorem Linked.active_congr (h : first.Linked) (hother : second.Linked)
    (hsame : ∀ index, first.isActive ⟨axis, index⟩ = second.isActive ⟨axis, index⟩) :
    first.active axis = second.active axis := by
  apply (h.lines axis).ascending.eq_of_mem_iff (hother.lines axis).ascending
  intro index
  have hfirst := @Linked.mem_active _ _ ⟨axis, index⟩ h
  have hsecond := @Linked.mem_active _ _ ⟨axis, index⟩ hother
  exact hfirst.symm.trans ((Bool.eq_iff_iff.mp (hsame index)).trans hsecond)

/-- An active line has lost the lines that were removed. -/
theorem Removes.crossing_eq_filter (h : Removes matrix next) (hmatrix : matrix.Linked)
    (hactive : next.isActive line = true) :
    next.crossing line =
      (matrix.crossing line).filter fun index ↦ next.isActive ⟨line.axis.cross, index⟩ := by
  have hnext := h.linked hmatrix
  have hbefore := h.isActive_of hmatrix hactive
  have hascending := hmatrix.ascending line (hmatrix.inRange_of_isActive hbefore)
  apply (hnext.ascending line (hnext.inRange_of_isActive hactive)).eq_of_mem_iff (hascending.filter _)
  intro index
  rw [List.mem_filter, hnext.mem_crossing_iff hactive, hmatrix.mem_crossing_iff hbefore,
    crosses_congr h.cells_eq, and_assoc, and_congr_right_iff]
  exact fun _ ↦ (and_iff_right_of_imp (h.isActive_of hmatrix)).symm

/-! ## Likeness -/

section Alike

variable [Cost κ]

/-- Two tables of the same shape with the same active lines, cells and costs. -/
structure Alike (first second : Matrix κ) : Prop where
  linked : first.Linked ∧ second.Linked
  settled : first.Settled ∧ second.Settled
  size : ∀ axis, (first.lines axis).size = (second.lines axis).size
  active : ∀ axis, first.active axis = second.active axis
  crossing : ∀ line, first.isActive line = true → first.crossing line = second.crossing line
  costOf : ∀ column < first.columnSize, first.costOf column = second.costOf column

namespace Alike

theorem isActive_eq (h : Alike first second) (line : Line) :
    first.isActive line = second.isActive line := by
  apply Bool.eq_iff_iff.mpr
  rw [h.linked.1.mem_active, h.linked.2.mem_active, h.active]

theorem count_eq (h : Alike first second) (hactive : first.isActive line = true) :
    first.count line = second.count line := by
  have hother : second.isActive line = true := h.isActive_eq line ▸ hactive
  calc first.count line
      = (first.crossing line).length :=
        (h.linked.1.length_crossing (h.linked.1.inRange_of_isActive hactive)).symm
    _ = (second.crossing line).length := by rw [h.crossing line hactive]
    _ = second.count line := h.linked.2.length_crossing (h.linked.2.inRange_of_isActive hother)

theorem costOf_eq (h : Alike first second) (hactive : first.isActive (.column column) = true) :
    first.costOf column = second.costOf column :=
  h.costOf column (h.linked.1.inRange_of_isActive hactive)

/-- Removals that leave the same lines active keep tables alike. -/
theorem of_removes (h : Alike first second) (hleft : Removes first left)
    (hright : Removes second right) (hsettled : left.Settled ∧ right.Settled)
    (hsame : ∀ line, left.isActive line = right.isActive line) : Alike left right where
  linked := ⟨hleft.linked h.linked.1, hright.linked h.linked.2⟩
  settled := hsettled
  size axis := by rw [hleft.size_eq, hright.size_eq, h.size]
  active axis := (hleft.linked h.linked.1).active_congr (hright.linked h.linked.2) fun _ ↦ hsame _
  crossing line hactive := by
    rw [hleft.crossing_eq_filter h.linked.1 hactive,
      hright.crossing_eq_filter h.linked.2 (hsame line ▸ hactive),
      h.crossing line (hleft.isActive_of h.linked.1 hactive)]
    exact List.filter_congr fun index _ ↦ hsame _
  costOf column hcolumn := by
    have hrange : left.InRange (.column column) := hcolumn
    rw [Matrix.costOf, Matrix.costOf, hleft.costs_eq, hright.costs_eq]
    exact h.costOf column (hleft.inRange_iff.mp hrange)

theorem backup (h : Alike first second) : Alike first.backup second.backup where
  linked := ⟨h.linked.1.backup, h.linked.2.backup⟩
  settled := h.settled
  size := h.size
  active := h.active
  crossing := h.crossing
  costOf := h.costOf

theorem deleted (h : Alike first second) (hactive : first.isActive line = true) :
    Alike (first.deleted line) (second.deleted line) := by
  have hother : second.isActive line = true := h.isActive_eq line ▸ hactive
  refine h.of_removes (removes_deleted h.linked.1 hactive).1 (removes_deleted h.linked.2 hother).1
    ⟨settled_deleted h.linked.1 h.settled.1 hactive, settled_deleted h.linked.2 h.settled.2 hother⟩
    fun kept ↦ ?_
  rw [Bool.eq_iff_iff, isActive_deleted h.linked.1 h.settled.1 hactive,
    isActive_deleted h.linked.2 h.settled.2 hother, h.isActive_eq kept]
  apply and_congr_right
  intro hkept
  rw [h.crossing kept (h.isActive_eq kept ▸ hkept)]

theorem selected (h : Alike first second) (hactive : first.isActive (.column column) = true) :
    Alike (first.selected column) (second.selected column) := by
  have hother : second.isActive (.column column) = true := h.isActive_eq _ ▸ hactive
  have hfirst := (allDeleted_selected h.linked.1 h.settled.1 hactive).2
  have hsecond := (allDeleted_selected h.linked.2 h.settled.2 hother).2
  have hrows : first.rowsOf column = second.rowsOf column := h.crossing (.column column) hactive
  refine h.of_removes (removes_selected h.linked.1 h.settled.1 hactive)
    (removes_selected h.linked.2 h.settled.2 hother)
    ⟨settled_selected h.linked.1 h.settled.1 hactive, settled_selected h.linked.2 h.settled.2 hother⟩
    fun line ↦ ?_
  obtain ⟨axis, index⟩ := line
  cases axis with
  | row =>
    rw [Bool.eq_iff_iff, hfirst.parallel, hsecond.parallel, hrows, h.isActive_eq]
  | column =>
    apply Bool.eq_iff_iff.mpr
    refine (hfirst.crossing index).trans (Iff.trans ?_ (hsecond.crossing index).symm)
    rw [hrows, h.isActive_eq]
    apply and_congr_right
    intro hline
    rw [h.crossing _ (h.isActive_eq _ ▸ hline)]

/-! ## What is read off tables that look alike -/

theorem isActive_of_mem (h : Alike first second) {index : Nat} (hindex : index ∈ first.active axis) :
    first.isActive ⟨axis, index⟩ = true :=
  (@Linked.mem_active _ _ ⟨axis, index⟩ h.linked.1).mpr hindex

theorem isEmpty_eq (h : Alike first second) : first.isEmpty = second.isEmpty := by
  have hfirst : first.rows.first? = first.activeRows.head? := (h.linked.1.lines .row).first?_eq
  have hsecond : second.rows.first? = second.activeRows.head? := (h.linked.2.lines .row).first?_eq
  have hrows : first.activeRows = second.activeRows := h.active .row
  rw [isEmpty, isEmpty, hfirst, hsecond, hrows]

theorem first?_eq (h : Alike first second) : first.columns.first? = second.columns.first? := by
  have hfirst : first.columns.first? = first.activeColumns.head? := (h.linked.1.lines .column).first?_eq
  have hsecond : second.columns.first? = second.activeColumns.head? :=
    (h.linked.2.lines .column).first?_eq
  have hcolumns : first.activeColumns = second.activeColumns := h.active .column
  rw [hfirst, hsecond, hcolumns]

theorem activeBySize_eq (h : Alike first second) (axis : Axis) :
    first.activeBySize axis = second.activeBySize axis := by
  rw [activeBySize, activeBySize, h.active axis]
  apply mergeSort_congr
  intro left hleft right hright
  rw [← h.active axis] at hleft hright
  rw [h.count_eq (h.isActive_of_mem hleft), h.count_eq (h.isActive_of_mem hright)]

theorem singleRows_eq (h : Alike first second) : first.singleRows = second.singleRows := by
  have hrows : first.activeRows = second.activeRows := h.active .row
  rw [singleRows, singleRows, ← hrows]
  apply List.filter_congr
  intro row hrow
  rw [h.count_eq (h.isActive_of_mem hrow)]

theorem shortestCrossing?_eq (h : Alike first second) (hactive : first.isActive line = true) :
    first.shortestCrossing? line = second.shortestCrossing? line := by
  rw [shortestCrossing?, shortestCrossing?, ← h.crossing line hactive]
  apply minOn?_congr
  intro index hindex
  exact h.count_eq (h.linked.1.isActive_of_mem_crossing hactive hindex)

theorem dominatedRows_eq (h : Alike first second) (hactive : first.isActive (.row row) = true) :
    first.dominatedRows row = second.dominatedRows row := by
  rw [dominatedRows, dominatedRows, ← h.shortestCrossing?_eq hactive]
  cases hshortest : first.shortestCrossing? (.row row) with
  | none => rfl
  | some column =>
    have hcolumn := h.linked.1.isActive_of_mem_crossing hactive (List.minOn?_mem hshortest)
    have hrows : first.rowsOf column = second.rowsOf column := h.crossing (.column column) hcolumn
    simp only
    rw [← hrows]
    apply List.filter_congr
    intro other hother
    have hotherActive : first.isActive (.row other) = true :=
      h.linked.1.isActive_of_mem_crossing hcolumn hother
    have hcolumns : first.columnsOf row = second.columnsOf row := h.crossing (.row row) hactive
    have hothers : first.columnsOf other = second.columnsOf other :=
      h.crossing (.row other) hotherActive
    rw [rowDominates, rowDominates, h.count_eq hactive, h.count_eq hotherActive, hcolumns, hothers]

theorem dominator?_eq (h : Alike first second) (hactive : first.isActive (.column column) = true) :
    first.dominator? column = second.dominator? column := by
  rw [dominator?, dominator?, ← h.shortestCrossing?_eq hactive]
  cases hshortest : first.shortestCrossing? (.column column) with
  | none => rfl
  | some row =>
    have hrow := h.linked.1.isActive_of_mem_crossing hactive (List.minOn?_mem hshortest)
    have hcolumns : first.columnsOf row = second.columnsOf row := h.crossing (.row row) hrow
    simp only
    rw [← hcolumns]
    apply List.find?_congr
    intro other hother
    have hotherActive : first.isActive (.column other) = true :=
      h.linked.1.isActive_of_mem_crossing hrow hother
    have hrows : first.rowsOf column = second.rowsOf column := h.crossing (.column column) hactive
    have hothers : first.rowsOf other = second.rowsOf other :=
      h.crossing (.column other) hotherActive
    rw [columnDominates, columnDominates, h.count_eq hactive, h.count_eq hotherActive,
      h.costOf_eq hactive, h.costOf_eq hotherActive, hrows, hothers]

theorem forces_eq (h : Alike first second) (hactive : first.isActive (.column column) = true) :
    first.forces column = second.forces column := by
  have hrows : first.rowsOf column = second.rowsOf column := h.crossing (.column column) hactive
  rw [forces, forces, ← hrows]
  apply Bool.eq_iff_iff.mpr
  rw [List.any_eq_true, List.any_eq_true]
  apply exists_congr
  intro row
  apply and_congr_right
  intro hrow
  have hrowActive : first.isActive (.row row) = true :=
    h.linked.1.isActive_of_mem_crossing hactive hrow
  rw [h.count_eq hrowActive]

theorem groups_eq (h : Alike first second) : first.groups = second.groups := by
  have hcolumns : first.activeColumns = second.activeColumns := h.active .column
  have hsize : first.rowSize = second.rowSize := h.size .row
  rw [groups, groups, ← hcolumns, ← hsize]
  apply List.foldl_ext
  intro partition column hcolumn
  have hrows : first.rowsOf column = second.rowsOf column :=
    h.crossing (.column column) (h.isActive_of_mem hcolumn)
  rw [hrows]

theorem cheapest_eq (h : Alike first second) (hactive : first.isActive (.row row) = true) :
    first.cheapest row = second.cheapest row := by
  have hcolumns : first.columnsOf row = second.columnsOf row := h.crossing (.row row) hactive
  have hcosts : (first.columnsOf row).map first.costOf = (second.columnsOf row).map second.costOf := by
    rw [← hcolumns]
    apply List.map_congr_left
    intro column hcolumn
    exact h.costOf_eq (h.linked.1.isActive_of_mem_crossing hactive hcolumn)
  rw [cheapest, cheapest, cheapest?, cheapest?, hcosts]

theorem disjointRows_eq (h : Alike first second) : first.disjointRows = second.disjointRows := by
  have hrows : first.activeRows = second.activeRows := h.active .row
  have hcosts : first.activeRows.mapM first.cheapest = first.activeRows.mapM second.cheapest :=
    mapM_congr fun row hrow ↦ h.cheapest_eq (h.isActive_of_mem hrow)
  rw [disjointRows, disjointRows, h.groups_eq, hcosts, hrows]

/-! ## Snapshots -/

theorem snapshot_eq (h : Alike first second) : first.snapshot = second.snapshot := by
  have hrows : first.activeRows = second.activeRows := h.active .row
  have hcolumns : first.activeColumns = second.activeColumns := h.active .column
  have hrowSize : first.rowSize = second.rowSize := h.size .row
  have hcolumnSize : first.columnSize = second.columnSize := h.size .column
  have hcells : (first.activeRows.flatMap fun row ↦
        (first.columnsOf row).map fun column ↦ (row, column)) =
      second.activeRows.flatMap fun row ↦ (second.columnsOf row).map fun column ↦ (row, column) := by
    rw [← hrows]
    apply List.flatMap_congr
    intro row hrow
    have hcolumns : first.columnsOf row = second.columnsOf row :=
      h.crossing (.row row) (h.isActive_of_mem hrow)
    rw [hcolumns]
  have hcosts : (List.range first.columnSize).map first.costOf =
      (List.range second.columnSize).map second.costOf := by
    rw [← hcolumnSize]
    apply List.map_congr_left
    intro column hcolumn
    exact h.costOf column (List.mem_range.mp hcolumn)
  rw [snapshot, snapshot, hcells, hcosts, hrowSize, hcolumnSize, hrows, hcolumns]

end Alike

theorem mem_cells_snapshot : (row, column) ∈ matrix.snapshot.cells.toList ↔
    row ∈ matrix.activeRows ∧ column ∈ matrix.columnsOf row := by
  simp [snapshot]

/-- Tables with one snapshot look alike. -/
theorem Linked.alike (h : first.Linked) (hother : second.Linked)
    (hsettled : first.Settled ∧ second.Settled) (hsame : first.snapshot = second.snapshot) :
    Alike first second := by
  have hactive (axis : Axis) : first.active axis = second.active axis := by
    cases axis
    · exact congrArg Snapshot.rows hsame
    · exact congrArg Snapshot.columns hsame
  have hisActive (line : Line) : first.isActive line = true ↔ second.isActive line = true := by
    rw [h.mem_active, hother.mem_active, hactive]
  have hcells {row column : Nat} (hrow : first.isActive (.row row) = true) :
      column ∈ first.columnsOf row ↔ column ∈ second.columnsOf row := by
    have hmem : row ∈ first.activeRows := h.mem_active.mp hrow
    have hmemOther : row ∈ second.activeRows := hother.mem_active.mp ((hisActive _).mp hrow)
    have hfirst := @mem_cells_snapshot _ first row column _
    have hsecond := @mem_cells_snapshot _ second row column _
    rw [hsame, hsecond] at hfirst
    simpa only [hmem, hmemOther, true_and] using hfirst.symm
  refine ⟨⟨h, hother⟩, hsettled, fun axis ↦ ?_, hactive, fun line hline ↦ ?_, fun column hcolumn ↦ ?_⟩
  · cases axis
    · exact congrArg Snapshot.rowSize hsame
    · exact congrArg Snapshot.columnSize hsame
  · have hlineOther := (hisActive line).mp hline
    apply (h.ascending line (h.inRange_of_isActive hline)).eq_of_mem_iff
      (hother.ascending line (hother.inRange_of_isActive hlineOther))
    intro index
    obtain ⟨axis, position⟩ := line
    cases axis with
    | row => exact hcells hline
    | column =>
      change index ∈ first.rowsOf position ↔ index ∈ second.rowsOf position
      rw [h.mem_rowsOf_iff hline, hother.mem_rowsOf_iff hlineOther, ← hisActive]
      apply and_congr_left
      intro hrow
      have hrowOther := (hisActive _).mp hrow
      have hfirst := @Linked.mem_columnsOf_iff _ _ index position h hrow
      have hsecond := @Linked.mem_columnsOf_iff _ _ index position hother hrowOther
      rw [and_iff_left hline] at hfirst
      rw [and_iff_left hlineOther] at hsecond
      exact hfirst.symm.trans ((hcells hrow).trans hsecond)
  · have hcosts := congrArg Snapshot.costs hsame
    have hsize : first.columnSize = second.columnSize := congrArg Snapshot.columnSize hsame
    simp only [snapshot, ← hsize, List.map_inj_left, List.mem_range] at hcosts
    exact hcosts column hcolumn

end Alike

end Matrix

end SetCover

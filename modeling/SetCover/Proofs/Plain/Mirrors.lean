import SetCover.Proofs.Plain.Basic
import SetCover.Proofs.Reachable

/-!
# Linked tables as plain ones

A linked table mirrors a plain one if both have the same cells, active lines and costs, if the rings of
lines that are not active show what the plain table has kept, and if the saved lines are those whose
deletions are not recorded below the markers.  Calls on both give the same answers and leave a linked
table behind that mirrors the plain one.
-/

namespace SetCover

namespace Matrix

variable {κ : Type} {matrix next : Matrix κ} {axis : Axis} {line : Line} {index : Nat}

/-! ## Below the markers -/

/-- The histories below the markers, the latest first. -/
def underMarkers : List Record → List (List Record)
  | [] => []
  | .marker :: history => history :: underMarkers history
  | .deleted _ :: history => underMarkers history

theorem Removes.underMarkers_eq (h : Removes matrix next) :
    underMarkers next.history = underMarkers matrix.history := by
  induction h with
  | refl => rfl
  | remove _ _ ih =>
    rw [history_remove, underMarkers]
    exact ih

/-- The lines are those that were active when the history was the given one. -/
def Saves (matrix : Matrix κ) (active : Axis → Finset Nat) (history : List Record) : Prop :=
  ∀ line, line.index ∈ active line.axis ↔ matrix.Occupied line ∧ .deleted line ∉ history

/-- What a plain table says of a linked one. -/
structure Mirrors [Cost κ] (matrix : Matrix κ) (table : PlainTable κ) : Prop where
  size : ∀ axis, (matrix.lines axis).size = table.size axis
  cells : ∀ cell, matrix.HasCell cell ↔ cell ∈ table.cells
  active : ∀ line, matrix.isActive line = table.isActive line
  kept : ∀ line, matrix.InRange line → matrix.isActive line = false →
    ∀ index, index ∈ matrix.crossing line ↔ index ∈ table.kept line
  costsSize : matrix.costs.size = matrix.columnSize
  cost : ∀ column, matrix.costOf column = table.cost column
  saved : List.Forall₂ matrix.Saves table.saved (underMarkers matrix.history)

/-! ## Cells and lines -/

theorem crosses_iff_hasCell : matrix.Crosses line index ↔ matrix.HasCell (line.meet index) := by
  apply exists_congr
  intro slot
  rw [indexAt?_eq_some_iff]
  cases line with
  | mk axis =>
    cases axis
    · exact Iff.rfl
    · exact And.comm

theorem occupied_iff_hasCell :
    matrix.Occupied line ↔ ∃ cell, matrix.HasCell cell ∧ cell.along line.axis = line.index := by
  constructor
  · rintro ⟨slot, hslot⟩
    obtain ⟨cell, hcell, halong⟩ := Option.map_eq_some_iff.mp hslot
    exact ⟨cell, ⟨slot, hcell⟩, halong⟩
  · rintro ⟨cell, ⟨slot, hcell⟩, halong⟩
    exact ⟨slot, Option.map_eq_some_iff.mpr ⟨cell, hcell, halong⟩⟩

theorem Linked.crossing_of_not_occupied (h : matrix.Linked) (hrange : matrix.InRange line)
    (hvacant : ¬matrix.Occupied line) : matrix.crossing line = [] := by
  have hslots : matrix.slots line = [] := List.eq_nil_iff_forall_not_mem.mpr fun slot hslot ↦
    hvacant ⟨slot, h.sound line hrange slot hslot⟩
  rw [crossing, hslots]
  rfl

theorem hasCell_congr {first second : Matrix κ} (hcells : first.cells = second.cells) (cell : Cell) :
    first.HasCell cell ↔ second.HasCell cell := by
  rw [HasCell, HasCell, hcells]

theorem saves_congr {first second : Matrix κ} (hcells : first.cells = second.cells) :
    first.Saves = second.Saves := by
  funext active history
  simp only [Saves, occupied_congr hcells]

namespace Mirrors

variable [Cost κ] {table : PlainTable κ}

theorem mem_active (h : matrix.Mirrors table) :
    matrix.isActive line = true ↔ line.index ∈ table.active line.axis := by
  rw [h.active]
  exact decide_eq_true_iff

theorem inRange_iff (h : matrix.Mirrors table) :
    matrix.InRange line ↔ line.index < table.size line.axis := by
  rw [InRange, h.size]

theorem occupied_iff (h : matrix.Mirrors table) :
    matrix.Occupied line ↔ ∃ cell ∈ table.cells, cell.along line.axis = line.index := by
  rw [occupied_iff_hasCell]
  simp only [h.cells]

/-- An active line shows the same on both tables. -/
theorem mem_crossing (h : matrix.Mirrors table) (hlinked : matrix.Linked)
    (hactive : matrix.isActive line = true) :
    index ∈ matrix.crossing line ↔ index ∈ table.crossing line := by
  rw [hlinked.mem_crossing_iff hactive, h.mem_active, crosses_iff_hasCell, h.cells,
    PlainTable.crossing, Finset.mem_filter, and_comm]

/-- No deletion and no marker is pending on one table if none is on the other. -/
theorem history_eq_nil_iff (h : matrix.Mirrors table) (hlinked : matrix.Linked) :
    matrix.history = [] ↔ table.isPristine = true := by
  rw [PlainTable.isPristine, decide_eq_true_iff, List.isEmpty_iff]
  constructor
  · intro hhistory
    have hsaved := h.saved
    rw [hhistory, underMarkers, List.forall₂_nil_right_iff] at hsaved
    refine ⟨hsaved, fun cell hcell ↦ ?_⟩
    have hactive (axis : Axis) : cell.along axis ∈ table.active axis := by
      refine (@mem_active _ _ ⟨axis, cell.along axis⟩ _ _ h).mp ?_
      rw [hlinked.isActive_iff_occupied hhistory, h.occupied_iff]
      exact ⟨cell, hcell, rfl⟩
    exact ⟨hactive .row, hactive .column⟩
  · rintro ⟨hsaved, hall⟩
    have hmarkers := h.saved
    rw [hsaved, List.forall₂_nil_left_iff] at hmarkers
    match hhistory : matrix.history with
    | [] => rfl
    | .marker :: history => simp [hhistory, underMarkers] at hmarkers
    | .deleted line :: history =>
      -- The line has a cell, and so it would be active.
      have hdeleted : matrix.IsDeleted line := by simp [IsDeleted, hhistory]
      obtain ⟨cell, hcell, halong⟩ := h.occupied_iff.mp (hlinked.recorded line hdeleted)
      have hactive : matrix.isActive line = true := by
        rw [h.mem_active, ← halong]
        rcases line with ⟨_ | _, found⟩
        · exact (hall cell hcell).1
        · exact (hall cell hcell).2
      exact absurd hdeleted (hlinked.not_isDeleted hactive)

end Mirrors

/-- A new table mirrors the plain one of the same shape. -/
theorem mirrors_new [Cost κ] {size : Axis → Nat} (hlinked : matrix.Linked)
    (hhistory : matrix.history = []) (hlines : ∀ axis, matrix.lines axis = Lines.empty (size axis))
    (hcells : ∀ slot, matrix.cells.get? slot = none)
    (hcosts : matrix.costs = Array.replicate (size .column) Cost.unit) :
    matrix.Mirrors (.new size) := by
  have hvacant : ∀ line, ¬matrix.Occupied line := by
    rintro line ⟨slot, hslot⟩
    simp [indexAt?, hcells] at hslot
  constructor
  case size => exact fun axis ↦ congrArg Lines.size (hlines axis)
  case cells =>
    intro cell
    simp [HasCell, hcells, PlainTable.new]
  case active =>
    intro line
    rw [Bool.eq_iff_iff, hlinked.isActive_iff_occupied hhistory]
    simp [hvacant, PlainTable.isActive, PlainTable.new]
  case kept =>
    intro line hrange _ index
    simp [hlinked.crossing_of_not_occupied hrange (hvacant line), PlainTable.new]
  case costsSize =>
    have hsize : matrix.columnSize = size .column := congrArg Lines.size (hlines .column)
    rw [hcosts, Array.size_replicate, hsize]
  case cost =>
    intro column
    rw [costOf, hcosts, Array.getD_eq_getD_getElem?, Array.getElem?_replicate]
    split <;> rfl
  case saved => simp [hhistory, underMarkers, PlainTable.new]

/-! ## Deletions -/

namespace Mirrors

variable [Cost κ] {table : PlainTable κ} {indices : List Nat}

/-- What holds of the axis of the deleted lines and of the other one holds of all lines. -/
theorem forall_line_iff {holds : Line → Prop} : (∀ line, holds line) ↔
    (∀ index, holds ⟨axis, index⟩) ∧ ∀ index, holds ⟨axis.cross, index⟩ := by
  refine ⟨fun hall ↦ ⟨fun index ↦ hall _, fun index ↦ hall _⟩, fun ⟨hsame, hcross⟩ line ↦ ?_⟩
  rcases line with ⟨other, index⟩
  rcases axis.eq_or_eq_cross other with rfl | rfl
  · exact hsame index
  · exact hcross index

theorem isActive_without (h : matrix.Mirrors table) (hlinked : matrix.Linked)
    (hdeleted : AllDeleted axis indices matrix next) (line : Line) :
    next.isActive line = (table.without axis indices.toFinset).isActive line := by
  revert line
  refine (@forall_line_iff axis _).mpr ⟨fun index ↦ ?_, fun index ↦ ?_⟩
  · rw [Bool.eq_iff_iff, hdeleted.parallel, h.mem_active]
    simp [PlainTable.isActive, PlainTable.without]
  · have hremaining : next.isActive ⟨axis.cross, index⟩ = true ↔
        index ∈ table.remaining axis (table.active axis \ indices.toFinset) := by
      rw [hdeleted.crossing, PlainTable.remaining, Finset.mem_filter, h.mem_active]
      refine and_congr_right fun hactive ↦ exists_congr fun other ↦ ?_
      have hcrossing : other ∈ matrix.crossing ⟨axis.cross, index⟩ ↔
          other ∈ table.crossing ⟨axis.cross, index⟩ :=
        h.mem_crossing hlinked (h.mem_active.mpr hactive)
      have hmeet : (⟨axis.cross, index⟩ : Line).meet other = (⟨axis, other⟩ : Line).meet index := by
        cases axis <;> rfl
      rw [hcrossing, PlainTable.crossing, Finset.mem_filter, hmeet, Axis.cross_cross]
      simp only [Finset.mem_sdiff, List.mem_toFinset]
      tauto
    rw [Bool.eq_iff_iff, hremaining]
    simp [PlainTable.isActive, PlainTable.without]

/-- Deleting lines of one axis has the same effect on both tables. -/
theorem without (h : matrix.Mirrors table) (hlinked : matrix.Linked) (hsettled : matrix.Settled)
    (hactive : ∀ index ∈ indices, matrix.isActive ⟨axis, index⟩ = true)
    (hdeleted : AllDeleted axis indices matrix next) :
    next.Mirrors (table.without axis indices.toFinset) := by
  have hremoves := (hdeleted.deletes.removes hlinked hsettled).1
  have hstays := h.isActive_without hlinked hdeleted
  constructor
  case size => exact fun axis ↦ (hremoves.size_eq axis).trans (h.size axis)
  case cells => exact fun cell ↦ (hasCell_congr hremoves.cells_eq cell).trans (h.cells cell)
  case active => exact hstays
  case kept =>
    intro line hrange hgone index
    rw [hremoves.inRange_iff] at hrange
    cases hbefore : matrix.isActive line with
    | false =>
      rw [hremoves.crossing_eq hlinked hrange hbefore, h.kept line hrange hbefore]
      have hold : line.index ∉ table.active line.axis := h.mem_active.not.mp (by simp [hbefore])
      rcases line with ⟨other, found⟩
      rcases axis.eq_or_eq_cross other with rfl | rfl
      · have hnot : found ∉ indices := fun hmem ↦ by simp [hactive found hmem] at hbefore
        simp [PlainTable.without, hnot]
      · simp [PlainTable.without, hold]
    | true =>
      rcases line with ⟨other, found⟩
      rcases axis.eq_or_eq_cross other with rfl | rfl
      · have hmem : found ∈ indices := by
          by_contra hnot
          exact ne_true_of_eq_false hgone ((hdeleted.parallel found).mpr ⟨hbefore, hnot⟩)
        rw [hdeleted.kept found hrange, h.mem_crossing hlinked hbefore]
        simp [PlainTable.without, hmem]
      · have hnot : found ∉ table.remaining axis (table.active axis \ indices.toFinset) := by
          rw [hstays] at hgone
          simpa [PlainTable.isActive, PlainTable.without] using hgone
        have hold : found ∈ table.active axis.cross := h.mem_active.mp hbefore
        rw [hdeleted.emptied found hbefore hgone]
        simp [PlainTable.without, hnot, hold]
  case costsSize =>
    have hsize : next.columnSize = matrix.columnSize := hremoves.size_eq .column
    rw [hremoves.costs_eq, hsize, h.costsSize]
  case cost =>
    intro column
    rw [costOf, hremoves.costs_eq]
    exact h.cost column
  case saved =>
    rw [hremoves.underMarkers_eq, saves_congr hremoves.cells_eq]
    exact h.saved

theorem delete (h : matrix.Mirrors table) (hmatrix : matrix.Intact)
    (hactive : matrix.isActive line = true) :
    (matrix.deleted line).Mirrors (table.without line.axis {line.index}) := by
  have hdeleted : AllDeleted line.axis [line.index] matrix (matrix.deleted line) :=
    .cons hmatrix.linked hmatrix.settled hactive
      (.nil ((removes_deleted hmatrix.linked hactive).1.linked hmatrix.linked)
        (settled_deleted hmatrix.linked hmatrix.settled hactive))
  have hnext := h.without hmatrix.linked hmatrix.settled (by simpa using hactive) hdeleted
  simpa using hnext

theorem agree_delete (h : matrix.Mirrors table) (hmatrix : matrix.Intact) (line : Line) :
    Calls.Agree (Matrix.delete line) (PlainTable.delete line) matrix table Mirrors := by
  have hstays := h.active line
  cases hactive : matrix.isActive line with
  | true =>
    have hrange := h.inRange_iff.mp (hmatrix.linked.inRange_of_isActive hactive)
    exact .of_ok (delete_of_isActive hmatrix.linked hactive)
      (PlainTable.delete_of_isActive hrange (hstays ▸ hactive)) (h.delete hmatrix hactive)
  | false =>
    have hplain := PlainTable.delete_of_not_isActive (hstays ▸ hactive)
    rw [← h.size] at hplain
    exact .of_error (delete_of_not_isActive hactive) hplain h

theorem toFinset_rowsOf (h : matrix.Mirrors table) (hlinked : matrix.Linked) {column : Nat}
    (hactive : matrix.isActive (.column column) = true) :
    (matrix.rowsOf column).toFinset = table.crossing (.column column) := by
  ext row
  rw [List.mem_toFinset]
  exact h.mem_crossing hlinked hactive

theorem agree_select (h : matrix.Mirrors table) (hmatrix : matrix.Intact) (column : Nat) :
    Calls.Agree (select column) (PlainTable.select column) matrix table Mirrors := by
  have hstays := h.active (.column column)
  cases hactive : matrix.isActive (.column column) with
  | true =>
    have hdeleted := (allDeleted_selected hmatrix.linked hmatrix.settled hactive).2
    have hrange : column < table.size .column :=
      h.inRange_iff.mp (hmatrix.linked.inRange_of_isActive hactive)
    have hrows : ∀ row ∈ matrix.rowsOf column, matrix.isActive ⟨.row, row⟩ = true :=
      fun row hrow ↦ hmatrix.linked.isActive_of_mem_crossing hactive hrow
    have hnext := h.without hmatrix.linked hmatrix.settled hrows hdeleted
    rw [h.toFinset_rowsOf hmatrix.linked hactive] at hnext
    exact .of_ok (select_of_isActive hmatrix.linked hmatrix.settled hactive)
      (PlainTable.select_of_isActive hrange (hstays ▸ hactive)) hnext
  | false =>
    have hplain := PlainTable.select_of_not_isActive (hstays ▸ hactive)
    rw [← h.size] at hplain
    exact .of_error (select_of_not_isActive hactive) hplain h

/-! ## Insertions and costs -/

/-- A new cell is entered into both tables. -/
theorem enter (h : matrix.Mirrors table) (hlinked : matrix.Linked) (hnext : next.Linked)
    (hhistory : matrix.history = []) (hnextHistory : next.history = []) {cell : Cell}
    (hcosts : next.costs = matrix.costs) (hcells : next.cells = matrix.cells.insert cell)
    (hsize : ∀ axis, (next.lines axis).size = (matrix.lines axis).size) :
    next.Mirrors (table.enter cell) := by
  have hoccupied (line : Line) : next.Occupied line ↔
      cell.along line.axis = line.index ∨ matrix.Occupied line := by
    simp only [Occupied, indexAt?_insert hcells]
    constructor
    · rintro ⟨slot, hslot⟩
      split at hslot
      · exact .inl (Option.some.inj hslot)
      · exact .inr ⟨slot, hslot⟩
    · rintro (halong | ⟨slot, hslot⟩)
      · exact ⟨matrix.cells.vacancy, by rw [if_pos rfl, halong]⟩
      · refine ⟨slot, ?_⟩
        rw [if_neg]
        · exact hslot
        · rintro rfl
          simp [indexAt?_vacancy] at hslot
  have hstays (line : Line) : next.isActive line = true ↔
      cell.along line.axis = line.index ∨ matrix.isActive line = true := by
    rw [hnext.isActive_iff_occupied hnextHistory, hlinked.isActive_iff_occupied hhistory, hoccupied]
  constructor
  case size => exact fun axis ↦ (hsize axis).trans (h.size axis)
  case cells =>
    intro other
    rw [PlainTable.enter, Finset.mem_insert, ← h.cells]
    exact hasCell_insert hcells other
  case active =>
    intro line
    rw [Bool.eq_iff_iff, hstays, h.mem_active, PlainTable.isActive, PlainTable.enter,
      decide_eq_true_iff, Finset.mem_insert, eq_comm]
  case kept =>
    intro line hrange hgone index
    have hbefore : matrix.isActive line = false := by
      rw [Bool.eq_false_iff] at hgone ⊢
      exact fun hactive ↦ hgone ((hstays line).mpr (.inr hactive))
    have hrangeBefore : matrix.InRange line := by
      rw [InRange, ← hsize]
      exact hrange
    have hvacant := (hlinked.isActive_iff_occupied hhistory).not.mp (Bool.eq_false_iff.mp hbefore)
    have hnextVacant :=
      (hnext.isActive_iff_occupied hnextHistory).not.mp (Bool.eq_false_iff.mp hgone)
    have hkept := h.kept line hrangeBefore hbefore index
    rw [hlinked.crossing_of_not_occupied hrangeBefore hvacant] at hkept
    rw [hnext.crossing_of_not_occupied hrange hnextVacant]
    exact hkept
  case costsSize =>
    have hcolumns : next.columnSize = matrix.columnSize := hsize .column
    rw [hcosts, hcolumns, h.costsSize]
  case cost =>
    intro column
    rw [costOf, hcosts]
    exact h.cost column
  case saved =>
    have hsaved := h.saved
    rw [hhistory, underMarkers, List.forall₂_nil_right_iff] at hsaved
    rw [hnextHistory, underMarkers, List.forall₂_nil_right_iff]
    exact hsaved

theorem agree_insert (h : matrix.Mirrors table) (hmatrix : matrix.Intact) (row column : Nat) :
    Calls.Agree (insert row column) (PlainTable.insert row column) matrix table Mirrors := by
  have hrowSize : matrix.rowSize = table.size .row := h.size .row
  have hcolumnSize : matrix.columnSize = table.size .column := h.size .column
  by_cases hinside : row < matrix.rowSize ∧ column < matrix.columnSize
  · obtain ⟨hrow, hcolumn⟩ := hinside
    have hplain := PlainTable.insert_inside (hrowSize ▸ hrow) (hcolumnSize ▸ hcolumn)
    by_cases hhistory : matrix.history = []
    · rw [if_pos ((h.history_eq_nil_iff hmatrix.linked).mp hhistory)] at hplain
      by_cases hcell : matrix.HasCell ⟨row, column⟩
      · rw [if_pos ((h.cells _).mp hcell)] at hplain
        exact .of_ok (insert_present hmatrix.linked hhistory hrow hcolumn hcell) hplain h
      · rw [if_neg ((h.cells _).not.mp hcell)] at hplain
        obtain ⟨next, hinsert, hnext, hnextHistory, hcosts, hcells, hsize⟩ :=
          insert_new hmatrix.linked hhistory hrow hcolumn hcell
        exact .of_ok hinsert hplain
          (h.enter hmatrix.linked hnext hhistory hnextHistory hcosts hcells hsize)
    · rw [if_neg ((h.history_eq_nil_iff hmatrix.linked).not.mp hhistory)] at hplain
      exact .of_error (insert_pending hrow hcolumn hhistory) hplain h
  · have hplain := @PlainTable.insert_outside _ table row column
      (by rwa [hrowSize, hcolumnSize] at hinside)
    rw [← hrowSize, ← hcolumnSize] at hplain
    exact .of_error (insert_outside hinside) hplain h

theorem withCost (h : matrix.Mirrors table) {column : Nat} (hcolumn : column < matrix.columnSize)
    (cost : κ) :
    Mirrors { matrix with costs := matrix.costs.setIfInBounds column cost }
      { table with cost := Function.update table.cost column cost } where
  size := h.size
  cells := h.cells
  active := h.active
  kept := h.kept
  costsSize := by
    rw [Array.size_setIfInBounds]
    exact h.costsSize
  cost other := by
    have hbound : column < matrix.costs.size := h.costsSize ▸ hcolumn
    have hother := h.cost other
    by_cases heq : other = column
    · subst heq
      simp [costOf, hbound]
    · rw [costOf, Array.getD_eq_getD_getElem?] at hother ⊢
      rw [Array.getElem?_setIfInBounds_ne (Ne.symm heq)]
      exact hother.trans (Function.update_of_ne heq cost table.cost).symm
  saved := h.saved

theorem agree_setCost (h : matrix.Mirrors table) (column component : Nat) (value : Float) :
    Calls.Agree (setCost column component value) (PlainTable.setCost column component value)
      matrix table Mirrors := by
  have hcolumnSize : matrix.columnSize = table.size .column := h.size .column
  by_cases hrange : column < matrix.columnSize
  · have hmatrix := @setCost_inside _ matrix _ _ component value hrange
    have htable := @PlainTable.setCost_inside _ table _ _ component value (hcolumnSize ▸ hrange)
    rw [h.cost column] at hmatrix
    split_ifs at hmatrix htable
    · cases hset : Cost.withComponent (table.cost column) component value with
      | error fault =>
        rw [hset] at hmatrix htable
        exact .of_error hmatrix htable h
      | ok cost =>
        rw [hset] at hmatrix htable
        exact .of_ok hmatrix htable (h.withCost hrange cost)
    · exact .of_error hmatrix htable h
    · exact .of_error hmatrix htable h
  · have hplain : PlainTable.requireLine (.column column) table =
        .error (.lineOutOfRange (.column column) (table.size .column)) table :=
      PlainTable.requireLine_error (hcolumnSize ▸ hrange)
    rw [← hcolumnSize] at hplain
    exact .of_error (Calls.bind_error (requireLine_error hrange)) (Calls.bind_error hplain) h

/-! ## Markers -/

theorem agree_backup (h : matrix.Mirrors table) (hlinked : matrix.Linked) :
    Calls.Agree (modify backup) PlainTable.backup matrix table Mirrors := by
  refine .of_ok rfl rfl ⟨h.size, h.cells, h.active, h.kept, h.costsSize, h.cost, ?_⟩
  have hnow : matrix.Saves table.active matrix.history := by
    intro line
    rw [← h.mem_active, hlinked.active]
    rfl
  exact .cons hnow h.saved

/-- What a plain table has kept is still shown once the removals are taken back. -/
theorem kept_of_removes (h : matrix.Mirrors table) {start : Matrix κ} (hstart : start.Linked)
    (hremoves : Removes start matrix) (hrange : start.InRange line)
    (hgone : start.isActive line = false) :
    index ∈ start.crossing line ↔ index ∈ table.kept line := by
  have hafter : matrix.isActive line = false := by
    rw [Bool.eq_false_iff] at hgone ⊢
    exact fun hactive ↦ hgone (hremoves.isActive_of hstart hactive)
  rw [← hremoves.crossing_eq hstart hrange hgone]
  exact h.kept line (hremoves.inRange_iff.mpr hrange) hafter index

theorem agree_restore (h : matrix.Mirrors table) (hmatrix : matrix.Intact) :
    Calls.Agree restore PlainTable.restore matrix table Mirrors := by
  have hsaved := h.saved
  obtain ⟨outer, houter, hremoves, hrestore⟩ | ⟨base, hbase, hhistory, hremoves, hrestore⟩ :=
    hmatrix.restore_cases
  · have hmarkers : underMarkers matrix.history = outer.history :: underMarkers outer.history :=
      hremoves.underMarkers_eq
    have hcells : matrix.cells = outer.cells := hremoves.cells_eq
    rw [hmarkers, saves_congr hcells] at hsaved
    obtain ⟨active, saved, hactive, hrest, htable⟩ := List.forall₂_cons_right_iff.mp hsaved
    have hplain : PlainTable.restore table =
        .ok () { table with active := active, saved := saved } := by
      simp [PlainTable.restore, htable]
    refine .of_ok hrestore hplain ?_
    constructor
    case size => exact fun axis ↦ (hremoves.size_eq axis).symm.trans (h.size axis)
    case cells => exact fun cell ↦ (hasCell_congr hcells.symm cell).trans (h.cells cell)
    case active =>
      intro line
      rw [Bool.eq_iff_iff, houter.linked.active, PlainTable.isActive, decide_eq_true_iff, hactive]
      rfl
    case kept =>
      intro line hrange hgone index
      have hkept : index ∈ outer.backup.crossing line ↔ index ∈ table.kept line :=
        h.kept_of_removes houter.linked.backup hremoves hrange hgone
      exact hkept
    case costsSize =>
      have hcosts : matrix.costs = outer.costs := hremoves.costs_eq
      have hsize : matrix.columnSize = outer.columnSize := hremoves.size_eq .column
      rw [← hcosts, ← hsize, h.costsSize]
    case cost =>
      intro column
      have hcosts : matrix.costs = outer.costs := hremoves.costs_eq
      rw [costOf, ← hcosts]
      exact h.cost column
    case saved => exact hrest
  · have hmarkers : underMarkers matrix.history = [] := by
      rw [hremoves.underMarkers_eq, hhistory]
      rfl
    rw [hmarkers, List.forall₂_nil_right_iff] at hsaved
    have hplain : PlainTable.restore table = .error .noMarker table.grounded := by
      simp [PlainTable.restore, hsaved]
    refine .of_error hrestore hplain ?_
    constructor
    case size => exact fun axis ↦ (hremoves.size_eq axis).symm.trans (h.size axis)
    case cells =>
      exact fun cell ↦ (hasCell_congr hremoves.cells_eq.symm cell).trans (h.cells cell)
    case active =>
      intro line
      rw [Bool.eq_iff_iff, hbase.linked.isActive_iff_occupied hhistory,
        ← occupied_congr hremoves.cells_eq, h.occupied_iff]
      simp [PlainTable.isActive, PlainTable.grounded]
    case kept =>
      intro line hrange hgone index
      exact h.kept_of_removes hbase.linked hremoves hrange hgone
    case costsSize =>
      have hsize : matrix.columnSize = base.columnSize := hremoves.size_eq .column
      rw [← hremoves.costs_eq, ← hsize, h.costsSize]
    case cost =>
      intro column
      rw [costOf, ← hremoves.costs_eq]
      exact h.cost column
    case saved =>
      rw [hhistory]
      exact .nil

/-! ## Tables without cells -/

theorem agree_clear (h : matrix.Mirrors table) (hlinked : matrix.Linked) :
    Calls.Agree (modify clear) PlainTable.clear matrix table Mirrors := by
  refine .of_ok rfl rfl (mirrors_new (linked_clear hlinked) rfl (fun axis ↦ ?_) (fun slot ↦ ?_) ?_)
  · rw [← h.size]
    cases axis <;> rfl
  · simp [clear, Arena.get?_releaseFrom]
  · rw [← h.size]
    rfl

theorem agree_resize (h : matrix.Mirrors table) (rowSize columnSize dimension : Nat) :
    Calls.Agree (resize rowSize columnSize dimension)
      (PlainTable.resize rowSize columnSize dimension) matrix table Mirrors := by
  by_cases hdimension : dimension = Cost.dimension κ
  · let blank := (Workbench.blank κ rowSize columnSize false).matrix
    have hnew : Matrix.new rowSize columnSize dimension = .ok blank :=
      hdimension ▸ new_blank rowSize columnSize false
    have hresize : resize rowSize columnSize dimension matrix = .ok () blank := by
      rw [resize, hnew]
      rfl
    have hplain : PlainTable.resize rowSize columnSize dimension table =
        .ok () (.new (PlainTable.shape rowSize columnSize)) := by
      rw [PlainTable.resize, if_pos hdimension]
      rfl
    refine .of_ok hresize hplain (mirrors_new (linked_new hnew).1 rfl (fun axis ↦ ?_)
      (fun slot ↦ by simp [blank, Workbench.blank]) rfl)
    cases axis <;> rfl
  · have hnew : (Matrix.new rowSize columnSize dimension : Except Fault (Matrix κ)) =
        .error (.dimensionMismatch dimension (Cost.dimension κ)) := if_neg hdimension
    have hresize : resize rowSize columnSize dimension matrix =
        .error (.dimensionMismatch dimension (Cost.dimension κ)) matrix := by
      rw [resize, hnew]
      rfl
    have hplain : PlainTable.resize rowSize columnSize dimension table =
        .error (.dimensionMismatch dimension (Cost.dimension κ)) table := by
      rw [PlainTable.resize, if_neg hdimension]
      rfl
    exact .of_error hresize hplain h

end Mirrors

end Matrix

end SetCover

import SetCover.Matrix.Insertion
import SetCover.Proofs.Calls
import SetCover.Proofs.Matrix.Restoration

/-!
# New tables and new cells

While no deletion is pending, every ring shows all cells of its line, so a cell is new if the ring of
its row does not show its column, and then the ring of its column does not show its row either.
-/

namespace SetCover.Matrix

open Lines

variable {κ : Type} {matrix : Matrix κ} {axis : Axis} {line : Line} {slot : Nat}
  {row column : Nat} {before after : List Nat}

/-! ## Tables without history -/

theorem isDeleted_of_history_nil (hhistory : matrix.history = []) : ¬matrix.IsDeleted line := by
  simp [IsDeleted, hhistory]

/-- Without history, every ring shows all cells of its line. -/
theorem Linked.mem_slots_iff (h : matrix.Linked) (hhistory : matrix.history = [])
    (hrange : matrix.InRange line) :
    slot ∈ matrix.slots line ↔ matrix.indexAt? line.axis slot = some line.index := by
  refine ⟨h.sound line hrange slot, fun hindex ↦ ?_⟩
  obtain ⟨crossing, hcrossing⟩ := exists_indexAt?_cross hindex
  exact (h.live line (isDeleted_of_history_nil hhistory) slot crossing hindex hcrossing).mpr
    (isDeleted_of_history_nil hhistory)

theorem Linked.isActive_iff_occupied (h : matrix.Linked) (hhistory : matrix.history = []) :
    matrix.isActive line = true ↔ matrix.Occupied line := by
  rw [h.active]
  exact and_iff_left (isDeleted_of_history_nil hhistory)

/-- What it takes to link a table without history. -/
theorem linked_of_history_nil (hhistory : matrix.history = [])
    (hlines : ∀ axis, (matrix.lines axis).Linked)
    (hrange : ∀ line, matrix.Occupied line → matrix.InRange line)
    (hinjective : matrix.cells.Injective) (hcounted : matrix.cells.Counted)
    (hslots : ∀ line, matrix.InRange line → ∀ slot,
      slot ∈ matrix.slots line ↔ matrix.indexAt? line.axis slot = some line.index)
    (hascending : ∀ line, matrix.InRange line → (matrix.crossing line).Pairwise (· < ·))
    (hactive : ∀ line, matrix.isActive line = true ↔ matrix.Occupied line) : matrix.Linked where
  lines := hlines
  inRange := hrange
  injective := hinjective
  counted := hcounted
  sound line hline slot := (hslots line hline slot).mp
  live line _ slot crossing hindex _ :=
    iff_of_true ((hslots line (hrange line ⟨slot, hindex⟩) slot).mpr hindex)
      (isDeleted_of_history_nil hhistory)
  ascending := hascending
  active line := by
    rw [hactive]
    exact (and_iff_left (isDeleted_of_history_nil hhistory)).symm
  recorded line hline := absurd hline (isDeleted_of_history_nil hhistory)
  nodup := by simp [hhistory]

/-- A table without cells and history is linked. -/
theorem linked_of_vacant (hhistory : matrix.history = [])
    (hrows : ∃ size, matrix.rows = Lines.empty size)
    (hcolumns : ∃ size, matrix.columns = Lines.empty size)
    (hcells : ∀ slot, matrix.cells.get? slot = none) (hcounted : matrix.cells.Counted) :
    matrix.Linked := by
  have hlines : ∀ axis, ∃ size, matrix.lines axis = Lines.empty size := by
    intro axis
    cases axis
    · exact hrows
    · exact hcolumns
  have hindex : ∀ axis slot, matrix.indexAt? axis slot = none := by simp [indexAt?, hcells]
  have hslots : ∀ line, matrix.InRange line → matrix.slots line = [] := by
    intro line hline
    obtain ⟨size, hsize⟩ := hlines line.axis
    have hindex : line.index < size := by simpa [InRange, hsize, empty] using hline
    rw [slots, hsize, slots_empty hindex]
  refine linked_of_history_nil hhistory (fun axis ↦ ?_) ?_ ?_ hcounted (fun line hline slot ↦ ?_)
    (fun line hline ↦ ?_) fun line ↦ ?_
  · obtain ⟨size, hsize⟩ := hlines axis
    rw [hsize]
    exact linked_empty size
  · rintro line ⟨slot, hslot⟩
    simp [hindex] at hslot
  · intro first second cell hfirst
    simp [hcells] at hfirst
  · simp [hslots line hline, hindex]
  · simp [crossing, hslots line hline]
  · obtain ⟨size, hsize⟩ := hlines line.axis
    rw [isActive, hsize, (linked_empty size).flag]
    simp [Occupied, hindex]

theorem linked_new [Cost κ] {rowSize columnSize dimension : Nat}
    (h : Matrix.new rowSize columnSize dimension = .ok matrix) :
    matrix.Linked ∧ matrix.history = [] := by
  unfold Matrix.new at h
  split at h
  · obtain rfl := Except.ok.inj h
    exact ⟨linked_of_vacant rfl ⟨rowSize, rfl⟩ ⟨columnSize, rfl⟩ (fun slot ↦ by simp)
      Arena.counted_empty, rfl⟩
  · cases h

theorem linked_clear [Cost κ] (h : matrix.Linked) : matrix.clear.Linked :=
  linked_of_vacant rfl ⟨matrix.rowSize, rfl⟩ ⟨matrix.columnSize, rfl⟩
    (fun slot ↦ by simp [clear, Arena.get?_releaseFrom]) (h.counted.releaseFrom 0)

/-! ## Places of cells -/

/-- The position of the cell in a slot within its line. -/
def position (matrix : Matrix κ) (axis : Axis) (slot : Nat) : Nat :=
  (matrix.indexAt? axis.cross slot).getD 0

theorem Linked.crossing_eq_map (h : matrix.Linked) (hrange : matrix.InRange line) :
    matrix.crossing line = (matrix.slots line).map (matrix.position line.axis) := by
  rw [crossing, ← List.filterMap_eq_map]
  apply List.filterMap_congr
  intro slot hslot
  obtain ⟨index, hindex⟩ := exists_indexAt?_cross (h.sound line hrange slot hslot)
  simp [position, hindex]

theorem Linked.gap?_eq_none (h : matrix.Linked) (hrange : matrix.InRange line) {position : Nat}
    (hposition : position ∈ matrix.crossing line) : matrix.gap? line position = none := by
  have hascending := h.ascending line hrange
  rw [h.crossing_eq_map hrange] at hascending hposition
  exact (h.lines line.axis).gap?_eq_none hrange hascending hposition

theorem Linked.gap?_eq_some (h : matrix.Linked) (hrange : matrix.InRange line) {position : Nat}
    (hposition : position ∉ matrix.crossing line) :
    ∃ before after, matrix.slots line = before ++ after ∧
      (∀ slot ∈ before, matrix.position line.axis slot < position) ∧
      (∀ slot ∈ after, position < matrix.position line.axis slot) ∧
      matrix.gap? line position =
        some (gapOf (matrix.lines line.axis) line.index before after) := by
  have hascending := h.ascending line hrange
  rw [h.crossing_eq_map hrange] at hascending hposition
  exact (h.lines line.axis).gap?_eq_some hrange hascending hposition

/-! ## Attaching a cell to one line -/

/-- What is known of the lines of an axis after a cell has been attached to one of them. -/
structure Attached (index slot : Nat) (before after : List Nat) (old new : Lines) : Prop where
  linked : new.Linked
  size : new.size = old.size
  slots : ∀ other < old.size,
    new.slots other = if other = index then before ++ slot :: after else old.slots other
  active : ∀ other, other ∈ new.active ↔ other = index ∨ other ∈ old.active

/-- The first cell of a line activates it. -/
theorem attach_first {gap : Nat × Nat} {activated : Lines}
    (hcount : ((matrix.lines line.axis).attach line.index slot gap).count line.index = 1)
    (hactivate : ((matrix.lines line.axis).attach line.index slot gap).activate? line.index =
      some activated) :
    attach line slot gap matrix = .ok () (modifyLines line.axis (fun _ ↦ activated) matrix) := by
  have hread : (modifyLines line.axis (fun lines ↦ lines.attach line.index slot gap) matrix).lines
      line.axis = (matrix.lines line.axis).attach line.index slot gap := by
    rw [lines_modifyLines, if_pos rfl]
  have hwrite : modifyLines line.axis (fun _ ↦ activated)
      (modifyLines line.axis (fun lines ↦ lines.attach line.index slot gap) matrix) =
      modifyLines line.axis (fun _ ↦ activated) matrix := by
    cases line.axis <;> rfl
  simp [attach, count, hread, hcount, hactivate, hwrite]

theorem attach_further {gap : Nat × Nat}
    (hcount : ((matrix.lines line.axis).attach line.index slot gap).count line.index ≠ 1) :
    attach line slot gap matrix = .ok () (modifyLines line.axis
      (fun _ ↦ (matrix.lines line.axis).attach line.index slot gap) matrix) := by
  have hread : (modifyLines line.axis (fun lines ↦ lines.attach line.index slot gap) matrix).lines
      line.axis = (matrix.lines line.axis).attach line.index slot gap := by
    rw [lines_modifyLines, if_pos rfl]
  have hwrite : modifyLines line.axis (fun lines ↦ lines.attach line.index slot gap) matrix =
      modifyLines line.axis (fun _ ↦ (matrix.lines line.axis).attach line.index slot gap)
        matrix := by
    rcases line with ⟨_ | _, index⟩ <;> rfl
  rw [← hwrite]
  simp [attach, count, hread, hcount]

theorem attach_ok (hlinked : (matrix.lines line.axis).Linked) (hrange : matrix.InRange line)
    (hsplit : matrix.slots line = before ++ after)
    (hnew : ∀ other < (matrix.lines line.axis).size, slot ∉ (matrix.lines line.axis).slots other)
    (hactive : matrix.isActive line = true ↔ matrix.slots line ≠ []) :
    ∃ lines, attach line slot (gapOf (matrix.lines line.axis) line.index before after) matrix =
        .ok () (modifyLines line.axis (fun _ ↦ lines) matrix) ∧
      Attached line.index slot before after (matrix.lines line.axis) lines := by
  have hattached := hlinked.attach hrange hsplit hnew
  have hslots {other : Nat} (hother : other < (matrix.lines line.axis).size) :=
    hlinked.slots_attach hrange hsplit hother hnew
  have hcount := hattached.count line.index hrange
  rw [hslots hrange, if_pos rfl, List.length_append, List.length_cons] at hcount
  have hlength := congrArg List.length hsplit
  rw [List.length_append] at hlength
  have hflag := hlinked.flag line.index
  by_cases hempty : matrix.slots line = []
  · have hinactive : line.index ∉ ((matrix.lines line.axis).attach line.index slot
        (gapOf (matrix.lines line.axis) line.index before after)).active :=
      fun hmem ↦ hactive.mp (hflag.mpr hmem) hempty
    obtain ⟨activated, hactivate, hactivated, hsize, -, hrings, hmembers⟩ :=
      hattached.exists_activate? hrange hinactive
    rw [hempty, List.length_nil] at hlength
    refine ⟨activated, ?_, hactivated, hsize, fun other hother ↦ ?_, hmembers⟩
    · exact attach_first (by omega) hactivate
    · rw [← hslots hother, Lines.slots, Lines.slots, hrings, hsize]
  · have hmem : line.index ∈ (matrix.lines line.axis).active := hflag.mp (hactive.mpr hempty)
    refine ⟨_, ?_, hattached, rfl, fun other hother ↦ hslots hother, fun other ↦ ?_⟩
    · have hpos := List.length_pos_iff.mpr hempty
      exact attach_further (by omega)
    · exact (or_iff_right_of_imp fun heq ↦ heq ▸ hmem).symm

/-! ## Inserting a cell -/

/-- The cell has been entered into the ring of its line along an axis, at its place. -/
def Entered (axis : Axis) (cell : Cell) (old new : Matrix κ) : Prop :=
  ∃ before after, old.slots ⟨axis, cell.along axis⟩ = before ++ after ∧
    (∀ slot ∈ before, old.position axis slot < cell.along axis.cross) ∧
    (∀ slot ∈ after, cell.along axis.cross < old.position axis slot) ∧
    Attached (cell.along axis) old.cells.vacancy before after (old.lines axis) (new.lines axis)

theorem indexAt?_insert {cell : Cell} {next : Matrix κ}
    (hcells : next.cells = matrix.cells.insert cell) :
    next.indexAt? axis slot =
      if slot = matrix.cells.vacancy then some (cell.along axis) else matrix.indexAt? axis slot := by
  rw [indexAt?, hcells, Arena.get?_insert]
  split
  · rfl
  · rfl

theorem indexAt?_vacancy : matrix.indexAt? axis matrix.cells.vacancy = none := by
  rw [indexAt?, Arena.get?_vacancy]
  rfl

theorem Linked.vacancy_notMem (h : matrix.Linked) (hrange : matrix.InRange line) :
    matrix.cells.vacancy ∉ matrix.slots line := by
  intro hmem
  have hindex := h.sound line hrange _ hmem
  rw [indexAt?_vacancy] at hindex
  cases hindex

namespace Linked

variable {cell : Cell} {next : Matrix κ}

theorem mem_slots_insert (h : matrix.Linked) (hhistory : matrix.history = [])
    (hcells : next.cells = matrix.cells.insert cell) (hentered : Entered line.axis cell matrix next)
    (hrange : matrix.InRange line) :
    slot ∈ next.slots line ↔ next.indexAt? line.axis slot = some line.index := by
  obtain ⟨before, after, hsplit, -, -, hattached⟩ := hentered
  have hold : slot ∈ matrix.slots line ↔ matrix.indexAt? line.axis slot = some line.index :=
    h.mem_slots_iff hhistory hrange
  rw [slots, hattached.slots line.index hrange, indexAt?_insert hcells]
  have hvacant := h.vacancy_notMem hrange
  by_cases hline : line.index = cell.along line.axis
  · rw [← hline] at hsplit
    change matrix.slots line = before ++ after at hsplit
    rw [if_pos hline]
    by_cases hslot : slot = matrix.cells.vacancy
    · simp [hslot, hline]
    · rw [if_neg hslot, ← hold, hsplit]
      simp [hslot]
  · rw [if_neg hline]
    by_cases hslot : slot = matrix.cells.vacancy
    · rw [if_pos hslot, hslot]
      exact iff_of_false hvacant fun heq ↦ hline (Option.some.inj heq).symm
    · rw [if_neg hslot]
      exact hold

theorem filterMap_insert (hcells : next.cells = matrix.cells.insert cell) {slots : List Nat}
    (hvacant : matrix.cells.vacancy ∉ slots) :
    slots.filterMap (next.indexAt? axis) = slots.filterMap (matrix.indexAt? axis) := by
  apply List.filterMap_congr
  intro slot hslot
  rw [indexAt?_insert hcells, if_neg]
  rintro rfl
  exact hvacant hslot

theorem ascending_insert (h : matrix.Linked) (hcells : next.cells = matrix.cells.insert cell)
    (hentered : Entered line.axis cell matrix next) (hrange : matrix.InRange line) :
    (next.crossing line).Pairwise (· < ·) := by
  obtain ⟨before, after, hsplit, hbefore, hafter, hattached⟩ := hentered
  have hascending := h.ascending line hrange
  have hvacant := h.vacancy_notMem hrange
  rw [crossing, slots, hattached.slots line.index hrange]
  by_cases hline : line.index = cell.along line.axis
  · rw [← hline] at hsplit
    change matrix.slots line = before ++ after at hsplit
    rw [hsplit, List.mem_append, not_or] at hvacant
    rw [crossing, hsplit, List.filterMap_append, List.pairwise_append] at hascending
    obtain ⟨hleft, hright, hbetween⟩ := hascending
    have hfirst : next.indexAt? line.axis.cross matrix.cells.vacancy =
        some (cell.along line.axis.cross) := by
      rw [indexAt?_insert hcells, if_pos rfl]
    rw [if_pos hline, List.filterMap_append, List.filterMap_cons_some hfirst,
      filterMap_insert hcells hvacant.1, filterMap_insert hcells hvacant.2, List.pairwise_append,
      List.pairwise_cons]
    have hless : ∀ index ∈ before.filterMap (matrix.indexAt? line.axis.cross),
        index < cell.along line.axis.cross := by
      intro index hindex
      obtain ⟨slot, hslot, hlocated⟩ := List.mem_filterMap.mp hindex
      simpa [position, hlocated] using hbefore slot hslot
    refine ⟨hleft, ⟨fun index hindex ↦ ?_, hright⟩, fun first hfirst second hsecond ↦ ?_⟩
    · obtain ⟨slot, hslot, hlocated⟩ := List.mem_filterMap.mp hindex
      simpa [position, hlocated] using hafter slot hslot
    · rcases List.mem_cons.mp hsecond with rfl | hsecond
      · exact hless first hfirst
      · exact hbetween first hfirst second hsecond
  · rw [if_neg hline]
    change ((matrix.slots line).filterMap (next.indexAt? line.axis.cross)).Pairwise (· < ·)
    rw [filterMap_insert hcells hvacant]
    exact hascending

/-- A table stays linked when a new cell is entered into both rings. -/
theorem insert (h : matrix.Linked) (hhistory : matrix.history = []) (hnext : next.history = [])
    (hcells : next.cells = matrix.cells.insert cell)
    (hentered : ∀ axis, Entered axis cell matrix next)
    (hcell : ∀ axis, matrix.InRange ⟨axis, cell.along axis⟩)
    (hnew : ∀ slot, matrix.cells.get? slot ≠ some cell) : next.Linked := by
  have hsize : ∀ axis, (next.lines axis).size = (matrix.lines axis).size := by
    intro axis
    obtain ⟨_, _, _, _, _, hattached⟩ := hentered axis
    exact hattached.size
  have hoccupied : ∀ line, next.Occupied line ↔
      line.index = cell.along line.axis ∨ matrix.Occupied line := by
    intro line
    simp only [Occupied, indexAt?_insert hcells]
    constructor
    · rintro ⟨slot, hslot⟩
      split at hslot
      · exact .inl (Option.some.inj hslot).symm
      · exact .inr ⟨slot, hslot⟩
    · rintro (hindex | ⟨slot, hslot⟩)
      · exact ⟨matrix.cells.vacancy, by rw [if_pos rfl, hindex]⟩
      · refine ⟨slot, ?_⟩
        rw [if_neg]
        · exact hslot
        · rintro rfl
          rw [indexAt?_vacancy] at hslot
          cases hslot
  have hrange : ∀ line, next.InRange line ↔ matrix.InRange line := by
    intro line
    rw [InRange, InRange, hsize]
  refine linked_of_history_nil hnext (fun axis ↦ ?_) (fun line hline ↦ ?_) ?_ ?_
    (fun line hline slot ↦ ?_) (fun line hline ↦ ?_) fun line ↦ ?_
  · obtain ⟨_, _, _, _, _, hattached⟩ := hentered axis
    exact hattached.linked
  · rw [hrange]
    rcases (hoccupied line).mp hline with hindex | hline
    · rw [InRange, hindex]
      exact hcell line.axis
    · exact h.inRange line hline
  · intro first second value hfirst hsecond
    rw [hcells, Arena.get?_insert] at hfirst hsecond
    split at hfirst
    · split at hsecond
      · simp_all
      · obtain rfl := Option.some.inj hfirst
        exact absurd hsecond (hnew second)
    · split at hsecond
      · obtain rfl := Option.some.inj hsecond
        exact absurd hfirst (hnew first)
      · exact h.injective first second value hfirst hsecond
  · rw [hcells]
    exact h.counted.insert cell
  · exact h.mem_slots_insert hhistory hcells (hentered line.axis) ((hrange line).mp hline)
  · exact h.ascending_insert hcells (hentered line.axis) ((hrange line).mp hline)
  · obtain ⟨_, _, _, _, _, hattached⟩ := hentered line.axis
    rw [hoccupied, isActive, hattached.linked.flag, hattached.active,
      ← h.isActive_iff_occupied hhistory, h.mem_active]
    rfl

theorem crossing_iff_exists_get? (h : matrix.Linked) (hhistory : matrix.history = [])
    (hline : matrix.InRange line) {index : Nat} :
    index ∈ matrix.crossing line ↔ ∃ slot, matrix.indexAt? line.axis slot = some line.index ∧
      matrix.indexAt? line.axis.cross slot = some index := by
  rw [h.mem_crossing hline]
  constructor
  · rintro ⟨slot, -, hslot⟩
    exact ⟨slot, hslot⟩
  · rintro ⟨slot, hslot⟩
    exact ⟨slot, (h.mem_slots_iff hhistory hline).mpr hslot.1, hslot⟩

end Linked

/-- The table has a cell at this place, live or not. -/
def HasCell (matrix : Matrix κ) (cell : Cell) : Prop := ∃ slot, matrix.cells.get? slot = some cell

theorem hasCell_insert {cell : Cell} {next : Matrix κ} (hcells : next.cells = matrix.cells.insert cell)
    (other : Cell) : next.HasCell other ↔ other = cell ∨ matrix.HasCell other := by
  simp only [HasCell, hcells, Arena.get?_insert]
  constructor
  · rintro ⟨slot, hslot⟩
    split at hslot
    · exact .inl (Option.some.inj hslot).symm
    · exact .inr ⟨slot, hslot⟩
  · rintro (rfl | ⟨slot, hslot⟩)
    · exact ⟨matrix.cells.vacancy, if_pos rfl⟩
    · refine ⟨slot, ?_⟩
      rw [if_neg]
      · exact hslot
      · rintro rfl
        simp [Arena.get?_vacancy] at hslot

theorem indexAt?_eq_some_iff {cell : Cell} : matrix.cells.get? slot = some cell ↔
    matrix.indexAt? .row slot = some cell.row ∧ matrix.indexAt? .column slot = some cell.column := by
  rcases cell with ⟨row, column⟩
  simp only [indexAt?, Option.map_eq_some_iff, Cell.along]
  constructor
  · exact fun h ↦ ⟨⟨_, h, rfl⟩, ⟨_, h, rfl⟩⟩
  · rintro ⟨⟨⟨foundRow, foundColumn⟩, hcell, rfl⟩, ⟨other, hother, rfl⟩⟩
    rw [hcell] at hother
    obtain rfl := Option.some.inj hother
    exact hcell

theorem Linked.isActive_iff_slots (h : matrix.Linked) (hhistory : matrix.history = [])
    (hrange : matrix.InRange line) :
    matrix.isActive line = true ↔ matrix.slots line ≠ [] := by
  rw [h.isActive_iff_occupied hhistory, List.ne_nil_iff_exists_cons, Occupied]
  constructor
  · rintro ⟨slot, hslot⟩
    have hmem := (h.mem_slots_iff hhistory hrange).mpr hslot
    exact List.ne_nil_iff_exists_cons.mp (List.ne_nil_of_mem hmem)
  · rintro ⟨slot, rest, hslots⟩
    exact ⟨slot, h.sound line hrange slot (by simp [hslots])⟩

theorem Linked.mem_crossing_iff_hasCell (h : matrix.Linked) (hhistory : matrix.history = [])
    (hrow : matrix.InRange (.row row)) (hcolumn : matrix.InRange (.column column)) :
    (column ∈ matrix.crossing (.row row) ↔ matrix.HasCell ⟨row, column⟩) ∧
      (row ∈ matrix.crossing (.column column) ↔ matrix.HasCell ⟨row, column⟩) := by
  rw [h.crossing_iff_exists_get? hhistory hrow, h.crossing_iff_exists_get? hhistory hcolumn]
  refine ⟨exists_congr fun slot ↦ ?_, exists_congr fun slot ↦ ?_⟩
  · rw [indexAt?_eq_some_iff]
    rfl
  · rw [indexAt?_eq_some_iff]
    exact And.comm

theorem insert_ok {rowGap columnGap : Nat × Nat} {attached next : Matrix κ}
    (hhistory : matrix.history = []) (hrow : matrix.InRange (.row row))
    (hcolumn : matrix.InRange (.column column))
    (hrowGap : matrix.gap? (.row row) column = some rowGap)
    (hcolumnGap : matrix.gap? (.column column) row = some columnGap)
    (hattachRow : attach (.row row) matrix.cells.vacancy rowGap
      { matrix with cells := matrix.cells.insert ⟨row, column⟩ } = .ok () attached)
    (hattachColumn : attach (.column column) matrix.cells.vacancy columnGap attached =
      .ok () next) : insert row column matrix = .ok true next := by
  simp [insert, requireLine_ok hrow, requireLine_ok hcolumn, if_pos hhistory, hrowGap, hcolumnGap,
    hattachRow, hattachColumn]

/-- The cell of a row and a column that show no common cell is inserted. -/
theorem insert_new (h : matrix.Linked) (hhistory : matrix.history = [])
    (hrow : matrix.InRange (.row row)) (hcolumn : matrix.InRange (.column column))
    (hnew : ¬matrix.HasCell ⟨row, column⟩) :
    ∃ next : Matrix κ, insert row column matrix = .ok true next ∧ next.Linked ∧
      next.history = [] ∧ next.costs = matrix.costs ∧
      next.cells = matrix.cells.insert ⟨row, column⟩ ∧
      ∀ axis, (next.lines axis).size = (matrix.lines axis).size := by
  have hshown := h.mem_crossing_iff_hasCell hhistory hrow hcolumn
  obtain ⟨left, right, hrowSplit, hleft, hright, hrowGap⟩ :=
    h.gap?_eq_some hrow (hshown.1.not.mpr hnew)
  obtain ⟨above, below, hcolumnSplit, habove, hbelow, hcolumnGap⟩ :=
    h.gap?_eq_some hcolumn (hshown.2.not.mpr hnew)
  let filled : Matrix κ := { matrix with cells := matrix.cells.insert ⟨row, column⟩ }
  have hrowNew : ∀ other < matrix.rows.size, matrix.cells.vacancy ∉ matrix.rows.slots other :=
    fun other hother ↦ @Linked.vacancy_notMem _ _ (.row other) h hother
  have hcolumnNew : ∀ other < matrix.columns.size,
      matrix.cells.vacancy ∉ matrix.columns.slots other :=
    fun other hother ↦ @Linked.vacancy_notMem _ _ (.column other) h hother
  obtain ⟨rows, hattachRow, hrows⟩ := @attach_ok _ filled (.row row) _ _ _ (h.lines .row) hrow
    hrowSplit hrowNew (h.isActive_iff_slots hhistory hrow)
  obtain ⟨columns, hattachColumn, hcolumns⟩ := @attach_ok _ { filled with rows := rows }
    (.column column) _ _ _ (h.lines .column) hcolumn hcolumnSplit hcolumnNew
    (h.isActive_iff_slots hhistory hcolumn)
  let next : Matrix κ := { filled with rows := rows, columns := columns }
  refine ⟨next, ?_, ?_, hhistory, rfl, rfl, fun axis ↦ ?_⟩
  · exact insert_ok hhistory hrow hcolumn hrowGap hcolumnGap hattachRow hattachColumn
  · refine h.insert hhistory hhistory rfl (fun axis ↦ ?_) (fun axis ↦ ?_) fun slot hslot ↦
      hnew ⟨slot, hslot⟩
    · cases axis
      · exact ⟨left, right, hrowSplit, hleft, hright, hrows⟩
      · exact ⟨above, below, hcolumnSplit, habove, hbelow, hcolumns⟩
    · cases axis
      · exact hrow
      · exact hcolumn
  · cases axis
    · exact hrows.size
    · exact hcolumns.size

/-- A cell that is there already is not inserted again. -/
theorem insert_present (h : matrix.Linked) (hhistory : matrix.history = [])
    (hrow : matrix.InRange (.row row)) (hcolumn : matrix.InRange (.column column))
    (hcell : matrix.HasCell ⟨row, column⟩) : insert row column matrix = .ok false matrix := by
  have hgap := h.gap?_eq_none hrow
    ((h.mem_crossing_iff_hasCell hhistory hrow hcolumn).1.mpr hcell)
  simp [insert, requireLine_ok hrow, requireLine_ok hcolumn, hhistory, hgap]

end SetCover.Matrix

import SetCover.Proofs.Matrix.Cascade
import SetCover.Proofs.Matrix.Consistency
import SetCover.Proofs.Plain.Refinement

/-!
# The linkage of reachable tables

In every reachable table the cells of each line form one ring in ascending order, forwards and
backwards, the active lines form a ring of their own, and counts, flags, rings and the history agree.
So the check finds nothing, and no operation ever takes a cell from a line without cells.
-/

namespace SetCover

namespace Matrix

variable {κ : Type} {matrix : Matrix κ}

/-- How the links, counts, flags and records of a table agree. -/
structure WellLinked (matrix : Matrix κ) : Prop where
  /-- The links lead from a line through its cells back to it, and the other way round. -/
  ring : ∀ line, matrix.InRange line → (matrix.lines line.axis).rings.IsRing line.index
    ((matrix.slots line).map (matrix.lines line.axis).node)
  /-- The cells that are met are cells of the line. -/
  cells : ∀ line, matrix.InRange line → ∀ slot ∈ matrix.slots line,
    matrix.indexAt? line.axis slot = some line.index
  /-- No slot that is met is vacant, and the line that crosses there is one of the table. -/
  occupied : ∀ line, matrix.InRange line → ∀ slot ∈ matrix.slots line, ∃ cell,
    matrix.cells.get? slot = some cell ∧ matrix.InRange ⟨line.axis.cross, cell.along line.axis.cross⟩
  /-- Lines that are active or whose deletion is recorded are lines of the table. -/
  inRange : ∀ line, matrix.isActive line = true ∨ .deleted line ∈ matrix.history → matrix.InRange line
  /-- Every line of the table has a count and a flag. -/
  sizes : ∀ axis, (matrix.lines axis).counts.size = (matrix.lines axis).size ∧
    (matrix.lines axis).flags.size = (matrix.lines axis).size
  /-- They come in ascending order of the lines that cross there. -/
  ascending : ∀ line, matrix.InRange line → (matrix.crossing line).Pairwise (· < ·)
  /-- There are as many of them as are counted. -/
  count : ∀ line, matrix.InRange line → (matrix.slots line).length = matrix.count line ∧
    (matrix.crossing line).length = matrix.count line
  /-- The links between the active lines form a ring. -/
  chain : ∀ axis, (matrix.lines axis).chain.IsRing (matrix.lines axis).size (matrix.active axis)
  chainAscending : ∀ axis, (matrix.active axis).Pairwise (· < ·)
  flag : ∀ line, matrix.isActive line = true ↔ line.index ∈ matrix.active line.axis
  /-- A line is active if it has a cell and its deletion is not recorded. -/
  active : ∀ line, matrix.isActive line = true ↔
    1 ≤ matrix.count line ∧ .deleted line ∉ matrix.history
  /-- No deletion is recorded twice. -/
  recorded : (matrix.history.filterMap Record.line?).Nodup
  /-- A cell hangs in the ring of its active row if and only if it hangs in that of its active
  column. -/
  shared : ∀ slot cell, matrix.cells.get? slot = some cell →
    (matrix.isActive (.row cell.row) = true ∧ slot ∈ matrix.slots (.row cell.row) ↔
      matrix.isActive (.column cell.column) = true ∧ slot ∈ matrix.slots (.column cell.column))

theorem Linked.count_eq_zero (h : matrix.Linked) {line : Line} (hrange : ¬matrix.InRange line) :
    matrix.count line = 0 := by
  have hsize : (matrix.lines line.axis).counts.size ≤ line.index := by
    rw [(h.lines line.axis).countsSize]
    exact Nat.not_lt.mp hrange
  simp [count, Lines.count, hsize]

theorem Linked.isActive_iff_count (h : matrix.Linked) (hsettled : matrix.Settled) (line : Line) :
    matrix.isActive line = true ↔ 1 ≤ matrix.count line ∧ ¬matrix.IsDeleted line := by
  constructor
  · exact fun hactive ↦ ⟨hsettled line hactive, h.not_isDeleted hactive⟩
  · rintro ⟨hcount, hdeleted⟩
    by_cases hrange : matrix.InRange line
    · rw [h.count_eq hrange] at hcount
      obtain ⟨slot, hslot⟩ := List.length_pos_iff_exists_mem.mp hcount
      exact (h.active line).mpr ⟨⟨slot, h.sound line hrange slot hslot⟩, hdeleted⟩
    · rw [h.count_eq_zero hrange] at hcount
      omega

theorem Linked.shared (h : matrix.Linked) {line : Line} {slot index : Nat}
    (hcrossing : matrix.indexAt? line.axis.cross slot = some index)
    (hactive : matrix.isActive line = true) (hslot : slot ∈ matrix.slots line) :
    matrix.isActive ⟨line.axis.cross, index⟩ = true ∧
      slot ∈ matrix.slots ⟨line.axis.cross, index⟩ := by
  obtain ⟨found, hfound, hcross, hmem⟩ := h.isActive_cross hactive hslot
  obtain rfl : index = found := Option.some.inj (hcrossing.symm.trans hfound)
  exact ⟨hcross, hmem⟩

/-- Whatever follows a ring of the table reads cells only, and never finds a line from outside. -/
theorem Linked.exists_cell_of_mem_slots (h : matrix.Linked) {line : Line} {slot : Nat}
    (hrange : matrix.InRange line) (hslot : slot ∈ matrix.slots line) : ∃ cell,
      matrix.cells.get? slot = some cell ∧
        matrix.InRange ⟨line.axis.cross, cell.along line.axis.cross⟩ := by
  obtain ⟨cell, hcell, -⟩ := Option.map_eq_some_iff.mp (h.sound line hrange slot hslot)
  refine ⟨cell, hcell, h.inRange _ ⟨slot, ?_⟩⟩
  rw [indexAt?, hcell]
  rfl

theorem Linked.wellLinked (h : matrix.Linked) (hsettled : matrix.Settled) : matrix.WellLinked where
  ring line hrange := (h.lines line.axis).ring line.index hrange
  cells := h.sound
  occupied _ hrange _ := h.exists_cell_of_mem_slots hrange
  inRange line := by
    rintro (hactive | hdeleted)
    · exact h.inRange_of_isActive hactive
    · exact h.inRange line (h.recorded line hdeleted)
  sizes axis := ⟨(h.lines axis).countsSize, (h.lines axis).flagsSize⟩
  ascending := h.ascending
  count line hrange := ⟨(h.count_eq hrange).symm, h.length_crossing hrange⟩
  chain axis := (h.lines axis).chain
  chainAscending axis := (h.lines axis).ascending
  flag _ := h.mem_active
  active := h.isActive_iff_count hsettled
  recorded := h.nodup
  shared slot cell hcell := by
    obtain ⟨hrow, hcolumn⟩ := indexAt?_eq_some_iff.mp hcell
    constructor
    · exact fun ⟨hactive, hslot⟩ ↦ @Linked.shared _ _ h (.row cell.row) _ _ hcolumn hactive hslot
    · exact fun ⟨hactive, hslot⟩ ↦ @Linked.shared _ _ h (.column cell.column) _ _ hrow hactive hslot

/-- Every reachable table mirrors a plain one. -/
theorem Reachable.exists_mirrors [Cost κ] [LawfulCost κ] (h : matrix.Reachable) :
    ∃ table, matrix.Mirrors table := by
  induction h with
  | @new rowSize columnSize dimension matrix hnew =>
    unfold Matrix.new at hnew
    split at hnew
    · obtain rfl := Except.ok.inj hnew
      exact ⟨_, mirrors_blank rowSize columnSize false⟩
    · cases hnew
  | step operation hprior ih =>
    obtain ⟨table, hmirrors⟩ := ih
    obtain ⟨next, -, hnext⟩ := exists_step hmirrors hprior.intact operation
    exact ⟨next, hnext⟩

/-- In every reachable table, deletions and choices that follow the rings as they are, and delete a line
in the middle of the walk when it falls, are `delete` and `select`. -/
theorem along_rings_of_reachable [Cost κ] [LawfulCost κ] (h : matrix.Reachable) (line : Line)
    (column : Nat) :
    let steps := matrix.rowSize + matrix.columnSize + 3
    cascade steps line matrix = delete line matrix ∧
      selectAlong steps column matrix = select column matrix := by
  have hintact := h.intact
  refine ⟨hintact.linked.cascade_eq_delete (Nat.add_le_add_right ?_ 3),
    hintact.linked.selectAlong_eq_select hintact.settled le_rfl⟩
  by_cases hrange : matrix.InRange line
  · refine (hintact.linked.count_le hrange).trans ?_
    rcases line with ⟨_ | _, index⟩
    · exact Nat.le_add_left matrix.columnSize matrix.rowSize
    · exact Nat.le_add_right matrix.rowSize matrix.columnSize
  · rw [hintact.linked.count_eq_zero hrange]
    exact Nat.zero_le _

/-- Every reachable table is well linked and passes the check, it has a cost for every column, and no
operation on it, whatever was counted and reported before, runs a count below zero. -/
theorem wellLinked_of_reachable [Cost κ] [LawfulCost κ] (h : matrix.Reachable) :
    matrix.WellLinked ∧ matrix.costs.size = matrix.columnSize ∧ matrix.check = .ok () ∧
      ∀ (operation : Operation) (stats : Stats) (journal : Journal κ) (bench : Workbench κ),
        operation.run ⟨matrix, stats, journal⟩ ≠ .error (.breach .countUnderflow) bench := by
  have hintact := h.intact
  obtain ⟨table, hmirrors⟩ := h.exists_mirrors
  refine ⟨hintact.linked.wellLinked hintact.settled, hmirrors.costsSize,
    hintact.linked.check_eq hintact.settled, ?_⟩
  intro operation stats journal bench hrun
  exact ((operation.ends_run hintact stats journal).error hrun).2 rfl

/-- A deletion with which a column falls, then a refused one: the ring of the first row keeps what it
had. -/
theorem wellLinked_after_refusal :
    let bench := Operation.afterAll [.insert 0 0, .insert 0 1, .insert 1 1, .delete (.row 0),
      .delete (.column 0)] (Workbench.blank SingleCost 2 2 false)
    bench.matrix.history = [.deleted (.column 0), .deleted (.row 0)] ∧
      bench.matrix.columnsOf 0 = [0, 1] ∧ bench.matrix.WellLinked ∧
      bench.matrix.check = .ok () :=
  have hlinked := wellLinked_of_reachable (reachable_afterAll_blank 2 2 false
    [.insert 0 0, .insert 0 1, .insert 1 1, .delete (.row 0), .delete (.column 0)])
  ⟨by decide +kernel, by decide +kernel, hlinked.1, hlinked.2.2.1⟩

end Matrix

end SetCover

import SetCover.Proofs.Likeness
import SetCover.Proofs.Plain.Mirrors
import SetCover.Proofs.Reachable

/-!
# Deletions in any order

Lines that are deleted one after the other may take each other along, so that some of them are gone
when their turn comes.  In whatever order this is done, a line is left if it was active, is not to be
deleted and crosses an active line that is not to be deleted either.  This law is one of lists of
deletions: what two lists do in a row is what both do together.
-/

namespace SetCover.Matrix

variable {κ : Type} {matrix middle next last : Matrix κ} {line kept : Line}
  {first second lines : List Line}

/-- Deletes a line of the table unless it is gone already. -/
def deleteIfActive (line : Line) : Edit κ Unit := do
  requireLine line
  if (← get).isActive line then
    delete line

/-- The second table is what is left of the first one without the lines. -/
structure Without (lines : List Line) (matrix next : Matrix κ) : Prop where
  deletes : Deletes matrix next
  isActive_iff : ∀ kept, next.isActive kept = true ↔ matrix.isActive kept = true ∧ kept ∉ lines ∧
    ∃ index ∈ matrix.crossing kept, (⟨kept.axis.cross, index⟩ : Line) ∉ lines

/-! ## Single lines -/

theorem without_of_not_isActive (h : matrix.Linked) (hsettled : matrix.Settled)
    (hgone : matrix.isActive line = false) : Without [line] matrix matrix where
  deletes := .refl
  isActive_iff kept := by
    have hother {other : Line} (hactive : matrix.isActive other = true) : other ∉ [line] := by
      rw [List.mem_singleton]
      rintro rfl
      exact ne_true_of_eq_false hgone hactive
    refine ⟨fun hactive ↦ ⟨hactive, hother hactive, ?_⟩, fun hleft ↦ hleft.1⟩
    obtain ⟨index, hindex⟩ := h.settled_iff.mp hsettled kept hactive
    exact ⟨index, hindex, hother (h.isActive_of_mem_crossing hactive hindex)⟩

theorem without_deleted (h : matrix.Linked) (hsettled : matrix.Settled)
    (hactive : matrix.isActive line = true) : Without [line] matrix (matrix.deleted line) where
  deletes := .delete .refl hactive
  isActive_iff kept := by
    rw [isActive_deleted h hsettled hactive, List.mem_singleton]
    refine and_congr_right fun hkept ↦ and_congr_right fun _ ↦ ?_
    obtain ⟨axis, position⟩ := kept
    rcases line.axis.eq_or_eq_cross axis with rfl | rfl
    · -- A line of the same axis does not go along, and its cells cross lines of the other one.
      refine iff_of_true (fun haxis ↦ absurd haxis line.axis.ne_cross) ?_
      obtain ⟨index, hindex⟩ := h.settled_iff.mp hsettled _ hkept
      refine ⟨index, hindex, fun hmem ↦ line.axis.cross_ne ?_⟩
      exact congrArg Line.axis (List.mem_singleton.mp hmem)
    · rw [forall_prop_of_true rfl]
      refine exists_congr fun index ↦ and_congr_right fun _ ↦ not_congr ?_
      rw [List.mem_singleton, Axis.cross_cross, Line.mk.injEq, and_iff_right rfl]

theorem deleteIfActive_ok (h : matrix.Linked) (hsettled : matrix.Settled)
    (hrange : matrix.InRange line) :
    ∃ next, deleteIfActive line matrix = .ok () next ∧ Without [line] matrix next := by
  cases hactive : matrix.isActive line with
  | true =>
    refine ⟨_, (Calls.bind_ok (requireLine_ok hrange)).trans ?_, without_deleted h hsettled hactive⟩
    simp only [Calls.bind_apply, Calls.get_apply, hactive, if_true]
    exact delete_of_isActive h hactive
  | false =>
    refine ⟨matrix, (Calls.bind_ok (requireLine_ok hrange)).trans ?_,
      without_of_not_isActive h hsettled hactive⟩
    simp only [Calls.bind_apply, Calls.get_apply, hactive]
    rfl

/-! ## Lists of lines -/

theorem without_nil (h : matrix.Linked) (hsettled : matrix.Settled) : Without [] matrix matrix where
  deletes := .refl
  isActive_iff kept := by
    simpa using h.settled_iff.mp hsettled kept

namespace Without

theorem append (h : Without first matrix middle) (hnext : Without second middle next)
    (hmatrix : matrix.Linked) (hsettled : matrix.Settled) : Without (first ++ second) matrix next where
  deletes := h.deletes.trans hnext.deletes
  isActive_iff kept := by
    have hremoves := (h.deletes.removes hmatrix hsettled).1
    rw [hnext.isActive_iff, List.mem_append, not_or]
    constructor
    · rintro ⟨hmiddle, hkept, index, hindex, hcross⟩
      obtain ⟨hbefore, hfirst, -⟩ := (h.isActive_iff kept).mp hmiddle
      rw [hremoves.crossing_eq_filter hmatrix hmiddle, List.mem_filter] at hindex
      have hcrossFirst := ((h.isActive_iff _).mp hindex.2).2.1
      refine ⟨hbefore, ⟨hfirst, hkept⟩, index, hindex.1, ?_⟩
      exact List.mem_append.not.mpr (not_or.mpr ⟨hcrossFirst, hcross⟩)
    · rintro ⟨hbefore, ⟨hfirst, hkept⟩, index, hindex, hcross⟩
      rw [List.mem_append, not_or] at hcross
      have hcrossActive := hmatrix.isActive_of_mem_crossing hbefore hindex
      have hback : kept.index ∈ matrix.crossing ⟨kept.axis.cross, index⟩ :=
        (hmatrix.mem_crossing_comm hbefore hcrossActive).mpr hindex
      have hmiddle : middle.isActive kept = true :=
        (h.isActive_iff kept).mpr ⟨hbefore, hfirst, index, hindex, hcross.1⟩
      -- The line that it crosses is left as well, because it crosses this one.
      have hcrossMiddle : middle.isActive ⟨kept.axis.cross, index⟩ = true := by
        refine (h.isActive_iff _).mpr ⟨hcrossActive, hcross.1, kept.index, hback, ?_⟩
        rwa [Axis.cross_cross]
      refine ⟨hmiddle, hkept, index, ?_, hcross.2⟩
      rw [hremoves.crossing_eq_filter hmatrix hmiddle]
      exact List.mem_filter.mpr ⟨hindex, hcrossMiddle⟩

/-- What is left depends on which lines are deleted, and on nothing else. -/
theorem alike [Cost κ] (h : Without first matrix next) (hother : Without second matrix last)
    (hmatrix : matrix.Linked) (hsettled : matrix.Settled)
    (hsame : ∀ line, line ∈ second ↔ line ∈ first) : Alike next last := by
  have hmatrixAlike : Alike matrix matrix :=
    ⟨⟨hmatrix, hmatrix⟩, ⟨hsettled, hsettled⟩, fun _ ↦ rfl, fun _ ↦ rfl, fun _ _ ↦ rfl, fun _ _ ↦ rfl⟩
  obtain ⟨hremoves, hnext⟩ := h.deletes.removes hmatrix hsettled
  obtain ⟨hotherRemoves, hlast⟩ := hother.deletes.removes hmatrix hsettled
  refine hmatrixAlike.of_removes hremoves hotherRemoves ⟨hnext, hlast⟩ fun kept ↦ ?_
  rw [Bool.eq_iff_iff, h.isActive_iff, hother.isActive_iff]
  simp only [hsame]

end Without

/-- Deletions in a row go through, lines that are gone being passed over. -/
theorem forM_deleteIfActive (h : matrix.Linked) (hsettled : matrix.Settled)
    (hrange : ∀ line ∈ lines, matrix.InRange line) :
    ∃ next, lines.forM deleteIfActive matrix = .ok () next ∧ Without lines matrix next := by
  induction lines generalizing matrix with
  | nil => exact ⟨matrix, rfl, without_nil h hsettled⟩
  | cons line rest ih =>
    obtain ⟨middle, hmiddle, hfirst⟩ := deleteIfActive_ok h hsettled (hrange line (by simp))
    obtain ⟨hremoves, hsettledMiddle⟩ := hfirst.deletes.removes h hsettled
    obtain ⟨next, hnext, hrest⟩ := ih (hremoves.linked h) hsettledMiddle fun other hother ↦
      hremoves.inRange_iff.mpr (hrange other (by simp [hother]))
    exact ⟨next, (Calls.forM_cons_ok hmiddle).trans hnext, hfirst.append hrest h hsettled⟩

/-- Whether a line is left, in terms of cells. -/
theorem Without.mem_active_iff (h : Without lines matrix next) (hmatrix : matrix.Linked)
    (hsettled : matrix.Settled) (line : Line) : line.index ∈ next.active line.axis ↔
      line.index ∈ matrix.active line.axis ∧ line ∉ lines ∧ ∃ index ∈ matrix.active line.axis.cross,
        matrix.HasCell (line.meet index) ∧ (⟨line.axis.cross, index⟩ : Line) ∉ lines := by
  simp only [← crosses_iff_hasCell]
  rw [← (h.deletes.linked hmatrix hsettled).mem_active, h.isActive_iff, ← hmatrix.mem_active]
  refine and_congr_right fun hactive ↦ and_congr_right fun _ ↦ exists_congr fun index ↦ ?_
  rw [hmatrix.mem_crossing_iff hactive, @Linked.mem_active _ _ ⟨line.axis.cross, index⟩ hmatrix,
    and_comm (a := matrix.Crosses line index), and_assoc]

/-- On a reachable table, deleting rows and columns one after the other, in any order and passing over
those that are gone already, is never refused.  The rows that are left are the active ones that are not
to be deleted and have a cell in an active column that is not to be deleted; likewise for columns.  All
orders lead to the same snapshot. -/
theorem exists_forM_deleteIfActive [Cost κ] [LawfulCost κ] (h : matrix.Reachable)
    (hrange : ∀ line ∈ lines, matrix.InRange line) :
    ∃ next, lines.forM deleteIfActive matrix = .ok () next ∧
      (∀ row, row ∈ next.activeRows ↔ row ∈ matrix.activeRows ∧ .row row ∉ lines ∧
        ∃ column ∈ matrix.activeColumns, matrix.HasCell ⟨row, column⟩ ∧ .column column ∉ lines) ∧
      (∀ column, column ∈ next.activeColumns ↔ column ∈ matrix.activeColumns ∧
        .column column ∉ lines ∧
        ∃ row ∈ matrix.activeRows, matrix.HasCell ⟨row, column⟩ ∧ .row row ∉ lines) ∧
      ∀ other : List Line, (∀ line, line ∈ other ↔ line ∈ lines) →
        ∃ last, other.forM deleteIfActive matrix = .ok () last ∧ last.snapshot = next.snapshot := by
  obtain ⟨hlinked, hsettled⟩ : matrix.Linked ∧ matrix.Settled := ⟨h.intact.linked, h.intact.settled⟩
  obtain ⟨next, hnext, hwithout⟩ := forM_deleteIfActive hlinked hsettled hrange
  refine ⟨next, hnext, fun row ↦ hwithout.mem_active_iff hlinked hsettled (.row row),
    fun column ↦ hwithout.mem_active_iff hlinked hsettled (.column column), fun other hsame ↦ ?_⟩
  obtain ⟨last, hlast, hother⟩ := forM_deleteIfActive hlinked hsettled fun line hline ↦
    hrange line ((hsame line).mp hline)
  have halike := hother.alike hwithout hlinked hsettled fun line ↦ (hsame line).symm
  exact ⟨last, hlast, halike.snapshot_eq⟩

/-- A row and two columns are deleted on a table that has lost another row behind a marker.  In the
first order one of the columns falls with the row and is passed over; in the other one it is deleted
itself. -/
theorem exists_forM_deleteIfActive_cascade :
    let bench := Operation.afterAll [.insert 0 0, .insert 0 1, .insert 1 1, .insert 1 2, .insert 2 2,
      .insert 2 3, .insert 3 0, .insert 3 3, .backup, .delete (.row 3)]
      (Workbench.blank SingleCost 4 4 false)
    ∃ next, [Line.row 0, .column 2, .column 0].forM deleteIfActive bench.matrix = .ok () next ∧
      (∀ row, row ∈ next.activeRows ↔ row ∈ bench.matrix.activeRows ∧ row ≠ 0 ∧
        ∃ column ∈ bench.matrix.activeColumns, bench.matrix.HasCell ⟨row, column⟩ ∧
          column ≠ 2 ∧ column ≠ 0) ∧
      ∃ last, [Line.column 0, .column 2, .row 0].forM deleteIfActive bench.matrix = .ok () last ∧
        last.snapshot = next.snapshot := by
  intro bench
  have hreachable : bench.matrix.Reachable := reachable_afterAll_blank 4 4 false _
  have hsize : bench.matrix.rows.size = 4 ∧ bench.matrix.columns.size = 4 := by
    decide +kernel
  clear_value bench
  have hrange : ∀ line ∈ [Line.row 0, .column 2, .column 0], bench.matrix.InRange line := by
    simp [InRange, Matrix.lines, hsize]
  obtain ⟨next, hnext, hrows, -, hother⟩ := exists_forM_deleteIfActive hreachable hrange
  refine ⟨next, hnext, by simpa using hrows, hother _ fun line ↦ ?_⟩
  simp only [List.mem_cons, List.not_mem_nil, or_false]
  tauto

end SetCover.Matrix

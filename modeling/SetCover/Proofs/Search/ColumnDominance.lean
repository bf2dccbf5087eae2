import SetCover.Proofs.Reachable
import SetCover.Proofs.Search.Amounts
import SetCover.Proofs.Search.Sweep

/-!
# Column dominance leaves the columns that nothing undercuts

A column undercuts another one if it covers more rows and is no dearer, or covers the same rows and is
cheaper or, at equal cost, comes first.  This is a strict order, costs being compared as they are,
whatever they are.  A column that is undercut shares every row with the column above it, so that one is
found in the shortest of them.  One sweep looks at every column once and deletes it if a column that is
left undercuts it.  The column that nothing undercuts behind it is left until the end, so the sweep
deletes every undercut column, and a row that loses columns keeps that one.
-/

namespace SetCover

namespace Matrix

variable {κ : Type} [Cost κ] {matrix next : Matrix κ} {column other : Nat}

/-! ## Columns that undercut others -/

/-- The column covers the rows of the other column and more and is no dearer, or it covers the same
rows and is cheaper or, at equal cost, comes first. -/
def Undercuts (matrix : Matrix κ) (column other : Nat) : Prop :=
  (matrix.rowsOf other).toFinset ⊂ (matrix.rowsOf column).toFinset ∧
      matrix.costOf column ≤ matrix.costOf other ∨
    matrix.rowsOf other = matrix.rowsOf column ∧ (matrix.costOf column < matrix.costOf other ∨
      matrix.costOf column = matrix.costOf other ∧ column < other)

instance [DecidableEq κ] : Decidable (matrix.Undercuts column other) :=
  inferInstanceAs (Decidable ((matrix.rowsOf other).toFinset ⊂ (matrix.rowsOf column).toFinset ∧
      matrix.costOf column ≤ matrix.costOf other ∨
    matrix.rowsOf other = matrix.rowsOf column ∧ (matrix.costOf column < matrix.costOf other ∨
      matrix.costOf column = matrix.costOf other ∧ column < other)))

theorem Undercuts.subset (h : matrix.Undercuts column other) :
    matrix.rowsOf other ⊆ matrix.rowsOf column := by
  rcases h with ⟨hless, -⟩ | ⟨hsame, -⟩
  · exact fun row hrow ↦ List.mem_toFinset.mp (hless.1 (List.mem_toFinset.mpr hrow))
  · exact hsame ▸ List.Subset.refl _

theorem Undercuts.costOf_le (h : matrix.Undercuts column other) :
    matrix.costOf column ≤ matrix.costOf other := by
  have hpreorder : Std.IsLinearPreorder κ := .of_ord
  rcases h with ⟨-, hle⟩ | ⟨-, hless | ⟨hsame, -⟩⟩
  · exact hle
  · exact Std.le_of_lt hless
  · rw [hsame]
    exact Std.le_refl _

instance : IsStrictOrder Nat matrix.Undercuts where
  irrefl column := by
    rintro (⟨hless, -⟩ | ⟨-, hless | ⟨-, hless⟩⟩)
    · exact hless.ne rfl
    · exact Std.lt_irrefl hless
    · exact hless.ne rfl
  trans first second third := by
    have hpreorder : Std.IsLinearPreorder κ := .of_ord
    intro hfirst hsecond
    have hle := Std.le_trans hfirst.costOf_le hsecond.costOf_le
    rcases hfirst with ⟨hfirst, -⟩ | ⟨hfirst, horder⟩
    · rcases hsecond with ⟨hsecond, -⟩ | ⟨hsecond, -⟩
      · exact .inl ⟨hsecond.trans hfirst, hle⟩
      · exact .inl ⟨hsecond ▸ hfirst, hle⟩
    · rcases hsecond with ⟨hsecond, -⟩ | ⟨hsecond, hbehind⟩
      · exact .inl ⟨hfirst ▸ hsecond, hle⟩
      · refine .inr ⟨hsecond.trans hfirst, ?_⟩
        rcases horder with hless | ⟨hsame, hbefore⟩
        · rcases hbehind with hafter | ⟨hafter, -⟩
          · exact .inl (Std.lt_trans hless hafter)
          · exact .inl (hafter ▸ hless)
        · rw [hsame]
          exact hbehind.imp_right (And.imp_right hbefore.trans)

theorem undercuts_congr (hcosts : next.costOf = matrix.costOf)
    (hcolumn : next.rowsOf column = matrix.rowsOf column)
    (hother : next.rowsOf other = matrix.rowsOf other) :
    next.Undercuts column other ↔ matrix.Undercuts column other := by
  rw [Undercuts, Undercuts, hcosts, hcolumn, hother]

variable [LawfulCost κ]

theorem Linked.columnDominates_iff (h : matrix.Linked)
    (hcolumn : matrix.isActive (.column column) = true)
    (hother : matrix.isActive (.column other) = true) :
    matrix.columnDominates column other = true ↔ matrix.Undercuts column other := by
  have hrange := h.inRange_of_isActive hcolumn
  have hotherRange := h.inRange_of_isActive hother
  have hlength : (matrix.rowsOf column).length = matrix.count (.column column) :=
    h.length_crossing hrange
  have hotherLength : (matrix.rowsOf other).length = matrix.count (.column other) :=
    h.length_crossing hotherRange
  have hascending : (matrix.rowsOf column).Pairwise (· < ·) := h.ascending _ hrange
  have hotherAscending : (matrix.rowsOf other).Pairwise (· < ·) := h.ascending _ hotherRange
  have hequal : (compare (matrix.costOf column) (matrix.costOf other)).isEq = true ↔
      matrix.costOf column = matrix.costOf other := LawfulCost.compare_isEq_iff _ _
  have hcheaper : (compare (matrix.costOf column) (matrix.costOf other)).isLT = true ↔
      matrix.costOf column < matrix.costOf other := Ordering.isLT_iff_eq_lt
  have hnoDearer : (compare (matrix.costOf column) (matrix.costOf other)).isLE = true ↔
      matrix.costOf column ≤ matrix.costOf other := Iff.rfl
  rw [Undercuts, ssubset_or_eq_iff hotherAscending hascending, hlength, hotherLength,
    columnDominates]
  simp only [Bool.and_eq_true, decide_eq_true_iff, Ascending.within_iff hotherAscending hascending]
  apply and_congr_left'
  split
  · rename_i hless
    rw [hnoDearer, and_iff_right hless.le, and_iff_right hless]
    exact (or_iff_left fun hsame ↦ hless.ne' hsame.1).symm
  · rename_i hnotLess
    have hsize : matrix.count (.column other) ≤ matrix.count (.column column) ↔
        matrix.count (.column column) = matrix.count (.column other) := by omega
    rw [Bool.or_eq_true, Bool.and_eq_true, hequal, hcheaper, decide_eq_true_iff, hsize]
    exact (or_iff_right fun hless ↦ hnotLess hless.1).symm

/-- The columns of the shortest row of a column are enough to find one that undercuts it. -/
theorem Linked.isSome_dominator?_iff (h : matrix.Linked) (hsettled : matrix.Settled)
    (hactive : matrix.isActive (.column column) = true) :
    (matrix.dominator? column).isSome = true ↔
      ∃ other, matrix.isActive (.column other) = true ∧ matrix.Undercuts other column := by
  obtain ⟨first, hfirst⟩ := h.settled_iff.mp hsettled _ hactive
  have hsome : (matrix.shortestCrossing? (.column column)).isSome := List.isSome_minOn?_of_mem hfirst
  obtain ⟨row, hshortest⟩ := Option.isSome_iff_exists.mp hsome
  have hrow : row ∈ matrix.rowsOf column := List.minOn?_mem hshortest
  have hrowActive := h.isActive_of_mem_crossing hactive hrow
  rw [dominator?, hshortest, List.find?_isSome]
  constructor
  · rintro ⟨other, hmem, hdominates⟩
    have hother := h.isActive_of_mem_crossing hrowActive hmem
    rw [Bool.and_eq_true] at hdominates
    exact ⟨other, hother, (h.columnDominates_iff hother hactive).mp hdominates.2⟩
  · rintro ⟨other, hother, hundercuts⟩
    have hshared := (h.mem_rowsOf_iff hother).mp (hundercuts.subset hrow)
    refine ⟨other, (h.mem_columnsOf_iff hrowActive).mpr ⟨hshared.1, hother⟩, ?_⟩
    rw [Bool.and_eq_true, bne_iff_ne]
    refine ⟨?_, (h.columnDominates_iff hother hactive).mpr hundercuts⟩
    rintro rfl
    exact irrefl_of matrix.Undercuts _ hundercuts

end Matrix

namespace Workbench

open SetCover.Matrix

variable {κ : Type} [Cost κ] {matrix : Matrix κ} {column : Nat} {rest dropped : List Nat}

/-! ## One sweep -/

/-- Counts a column that was deleted. -/
def countColumn (stats : Stats) : Stats :=
  { stats with dominatedColumns := stats.dominatedColumns + 1 }

theorem countColumn_iterate (count : Nat) : countColumn^[count] = fun stats ↦
    { stats with dominatedColumns := stats.dominatedColumns + count } :=
  @iterate_eq_of_succ
    (fun count stats ↦ { stats with dominatedColumns := stats.dominatedColumns + count })
    rfl (fun _ ↦ rfl) count

theorem drops_deleteColumnIfDominated (h : matrix.Linked)
    (hactive : matrix.isActive (.column column) = true) {dominator : Nat}
    (hdominator : matrix.dominator? column = some dominator) :
    Drops (deleteColumnIfDominated column) matrix .column countColumn [column] := by
  apply Reaches.table
  rw [if_pos hactive, hdominator]
  have hcounted : Reaches (do count countColumn; return 1) (matrix.deleted (.column column))
      (id ∘ countColumn) 1 (matrix.deleted (.column column)) := (Reaches.count countColumn).bind (.pure 1)
  have hdeleted : Reaches (do delete (.column column); count countColumn; return 1) matrix
      ((id ∘ countColumn) ∘ id) 1 (matrix.deleted (.column column)) :=
    (Reaches.delete h hactive).bind hcounted
  have hnoted : Reaches (do
      note (.columnDominated column dominator); delete (.column column); count countColumn; return 1)
      matrix (((id ∘ countColumn) ∘ id) ∘ id) 1 (matrix.deleted (.column column)) :=
    (Reaches.report _).bind hdeleted
  exact hnoted

/-- A column that is gone or that no column left undercuts is passed. -/
theorem idles_deleteColumnIfDominated
    (hstays : matrix.isActive (.column column) = true → matrix.dominator? column = none) :
    Idles (deleteColumnIfDominated column) matrix 0 := by
  apply Idles.table
  split
  · rename_i hactive
    rw [hstays hactive]
    exact .pure 0
  · exact .pure 0

/-- What a sweep knows of the columns ahead and of those dropped so far: only columns that are undercut
are dropped, and what undercuts a column that was passed and kept has been dropped. -/
structure SweepsColumns (matrix : Matrix κ) (ahead dropped : List Nat) : Prop where
  beaten : matrix.Beaten .column matrix.Undercuts dropped
  passed : ∀ column ∈ matrix.activeColumns, column ∉ ahead → column ∉ dropped →
    ∀ other ∈ matrix.activeColumns, matrix.Undercuts other column → other ∈ dropped

namespace SweepsColumns

/-- A column can be passed with those dropped that are undercut, if it is dropped itself or only
dropped columns undercut it. -/
theorem pass {more : List Nat} (h : SweepsColumns matrix (column :: rest) dropped)
    (hbeaten : matrix.Beaten .column matrix.Undercuts (dropped ++ more))
    (hcolumn : column ∉ dropped ++ more →
      ∀ other ∈ matrix.activeColumns, matrix.Undercuts other column → other ∈ dropped ++ more) :
    SweepsColumns matrix rest (dropped ++ more) := by
  refine ⟨hbeaten, fun passed hpassed hahead hkept other hother hundercuts ↦ ?_⟩
  by_cases heq : passed = column
  · subst heq
    exact hcolumn hkept other hother hundercuts
  · rw [List.mem_append, not_or] at hkept
    exact List.mem_append_left more (h.passed passed hpassed
      (List.not_mem_cons_of_ne_of_not_mem heq hahead) hkept.1 other hother hundercuts)

variable [LawfulCost κ]

theorem step (h : SweepsColumns matrix (column :: rest) dropped) (hmatrix : matrix.Linked)
    (hsettled : matrix.Settled) (hcolumn : column ∈ matrix.activeColumns) : ∃ more,
      Drops (deleteColumnIfDominated column) (matrix.deletedAll .column dropped) .column countColumn
          more ∧
        SweepsColumns matrix rest (dropped ++ more) := by
  have hdeleted := h.beaten.allDeleted hmatrix hsettled
  have hlinked := hdeleted.deletes.linked hmatrix hsettled
  have hleft := hdeleted.deletes.settled hmatrix hsettled
  have hbefore : matrix.isActive (.column column) = true := hmatrix.mem_active.mpr hcolumn
  have hcosts := (hdeleted.deletes.removes hmatrix hsettled).1.costOf_eq
  have hundercuts {other : Nat} (hother : matrix.isActive (.column other) = true) :
      (matrix.deletedAll .column dropped).Undercuts other column ↔ matrix.Undercuts other column :=
    undercuts_congr hcosts (hdeleted.kept other (hmatrix.inRange_of_isActive hother))
      (hdeleted.kept column (hmatrix.inRange_of_isActive hbefore))
  by_cases hbeaten : (matrix.deletedAll .column dropped).isActive (.column column) = true ∧
      ((matrix.deletedAll .column dropped).dominator? column).isSome = true
  · obtain ⟨hactive, hsome⟩ := hbeaten
    obtain ⟨dominator, hdominator⟩ := Option.isSome_iff_exists.mp hsome
    obtain ⟨other, hother, hless⟩ := (hlinked.isSome_dominator?_iff hleft hactive).mp hsome
    have hotherBefore := ((hdeleted.parallel other).mp hother).1
    have hone : (matrix.deletedAll .column dropped).Beaten .column matrix.Undercuts [column] := by
      refine ⟨List.nodup_singleton column, ?_, ?_⟩
      · simpa using hactive
      · simpa using ⟨other, hlinked.mem_active.mp hother, (hundercuts hotherBefore).mp hless⟩
    refine ⟨[column], drops_deleteColumnIfDominated hlinked hactive hdominator,
      h.pass (h.beaten.append hmatrix hsettled hone) fun hkept ↦ absurd ?_ hkept⟩
    exact List.mem_append_right dropped (List.mem_singleton_self column)
  · rw [not_and, Option.not_isSome_iff_eq_none] at hbeaten
    refine ⟨[], (idles_deleteColumnIfDominated hbeaten).reaches, h.pass ?_ fun hkept ↦ ?_⟩
    · rw [List.append_nil]
      exact h.beaten
    · rw [List.append_nil] at hkept ⊢
      intro other hother hless
      by_contra hotherKept
      have hactive := (hdeleted.parallel column).mpr ⟨hbefore, hkept⟩
      have hotherBefore : matrix.isActive (.column other) = true := hmatrix.mem_active.mpr hother
      have hotherActive := (hdeleted.parallel other).mpr ⟨hotherBefore, hotherKept⟩
      have hsome := (hlinked.isSome_dominator?_iff hleft hactive).mpr
        ⟨other, hotherActive, (hundercuts hotherBefore).mpr hless⟩
      rw [hbeaten hactive] at hsome
      cases hsome

end SweepsColumns

variable [LawfulCost κ]

theorem exists_reaches_columnDominance (h : matrix.Linked) (hsettled : matrix.Settled) : ∃ dropped,
    Reaches columnDominance matrix countColumn^[dropped.length] (decide (0 < dropped.length))
        (matrix.deletedAll .column dropped) ∧
      matrix.Beaten .column matrix.Undercuts dropped ∧ ∀ column ∈ matrix.activeColumns,
        (column ∈ dropped ↔ ∃ other ∈ matrix.activeColumns, matrix.Undercuts other column) := by
  have hstart (hlines : ∀ column ∈ matrix.activeColumns, column ∈ matrix.activeBySize .column) :
      SweepsColumns matrix (matrix.activeBySize .column) [] :=
    ⟨.nil, fun column hcolumn hpassed ↦ absurd (hlines column hcolumn) hpassed⟩
  obtain ⟨dropped, hsweep, hswept⟩ := exists_reaches_sweep hstart
    fun column hcolumn rest dropped hsweeps ↦ hsweeps.step h hsettled hcolumn
  refine ⟨dropped, hsweep, hswept.beaten, fun column hcolumn ↦
    hswept.beaten.mem_iff (fun best hbest hkept line hline hless ↦ ?_) hcolumn⟩
  -- If the sweep had passed the column and kept it, it would have dropped the best one.
  by_contra hleft
  exact hkept (hswept.passed line hline List.not_mem_nil hleft best hbest hless)

/-- If no column undercuts another one, there is nothing to do. -/
theorem idles_columnDominance (h : matrix.Linked) (hsettled : matrix.Settled)
    (hminimal : ∀ column, matrix.isActive (.column column) = true → ∀ other,
      matrix.isActive (.column other) = true → ¬matrix.Undercuts other column) :
    Idles columnDominance matrix false := by
  have hstep (column : Nat) : Idles (deleteColumnIfDominated column) matrix 0 := by
    apply idles_deleteColumnIfDominated
    intro hactive
    rw [← Option.not_isSome_iff_eq_none, h.isSome_dominator?_iff hsettled hactive]
    exact fun ⟨other, hother, hless⟩ ↦ hminimal column hactive other hother hless
  exact Idles.sweep hstep

omit [LawfulCost κ] in
/-- The columns that are dropped because others undercut them leave no row without columns. -/
theorem isActive_row_of_undercut (h : matrix.Linked) (hsettled : matrix.Settled)
    (hbeaten : matrix.Beaten .column matrix.Undercuts dropped) {row : Nat} :
    (matrix.deletedAll .column dropped).isActive (.row row) = true ↔
      matrix.isActive (.row row) = true := by
  refine ((hbeaten.allDeleted h hsettled).crossing row).trans (and_iff_left_of_imp fun hrow ↦ ?_)
  obtain ⟨column, hcolumn⟩ := h.settled_iff.mp hsettled _ hrow
  by_cases hdropped : column ∈ dropped
  · obtain ⟨other, hother, hless⟩ := hbeaten.beaten column hdropped
    obtain ⟨best, hbest, hbeats, hunbeaten⟩ := exists_unbeaten hother hless
    have hactive := h.isActive_of_mem_crossing hrow hcolumn
    have hbestActive : matrix.isActive (.column best) = true := h.mem_active.mpr hbest
    have hshared := hbeats.subset ((h.mem_crossing_comm hrow hactive).mpr hcolumn)
    refine ⟨best, (h.mem_crossing_comm hrow hbestActive).mp hshared, fun hgone ↦ ?_⟩
    obtain ⟨third, hthird, hbelow⟩ := hbeaten.beaten best hgone
    exact hunbeaten third hthird hbelow
  · exact ⟨column, hcolumn, hdropped⟩

/-- On every reachable table, whatever the costs are, one sweep leaves exactly the active columns that
no other active column undercuts.  They keep their rows, and no row is deleted or loses its last column.
As many columns are counted as were deleted, the answer is whether there was one, and a second sweep
does nothing. -/
theorem columnDominance_of_reachable (h : matrix.Reachable) : ∃ count next,
    Reaches columnDominance matrix
        (fun stats ↦ { stats with dominatedColumns := stats.dominatedColumns + count })
        (decide (0 < count)) next ∧
      next.activeColumns.length + count = matrix.activeColumns.length ∧
      (∀ column, next.isActive (.column column) = true ↔ matrix.isActive (.column column) = true ∧
        ∀ other, matrix.isActive (.column other) = true → ¬matrix.Undercuts other column) ∧
      (∀ column, next.isActive (.column column) = true → next.rowsOf column = matrix.rowsOf column) ∧
      (∀ row, next.isActive (.row row) = true ↔ matrix.isActive (.row row) = true) ∧
      (∀ row, next.isActive (.row row) = true → next.columnsOf row ≠ []) ∧
      Idles columnDominance next false := by
  obtain ⟨hlinked, hsettled⟩ : matrix.Linked ∧ matrix.Settled := ⟨h.intact.linked, h.intact.settled⟩
  obtain ⟨dropped, hrun, hbeaten, hdropped⟩ := exists_reaches_columnDominance hlinked hsettled
  have hdeleted := hbeaten.allDeleted hlinked hsettled
  have hnext := hdeleted.deletes.linked hlinked hsettled
  have hleft := hdeleted.deletes.settled hlinked hsettled
  have hcosts := (hdeleted.deletes.removes hlinked hsettled).1.costOf_eq
  have hcolumns (column : Nat) : (matrix.deletedAll .column dropped).isActive (.column column) = true ↔
      matrix.isActive (.column column) = true ∧
        ∀ other, matrix.isActive (.column other) = true → ¬matrix.Undercuts other column := by
    refine (hdeleted.parallel column).trans (and_congr_right fun hcolumn ↦ ?_)
    rw [hdropped column (hlinked.mem_active.mp hcolumn)]
    push Not
    exact forall_congr' fun other ↦ imp_congr_left (@Linked.mem_active _ _ (.column other) hlinked).symm
  have hrows (column : Nat)
      (hcolumn : (matrix.deletedAll .column dropped).isActive (.column column) = true) :
      (matrix.deletedAll .column dropped).rowsOf column = matrix.rowsOf column :=
    hdeleted.kept column (hlinked.inRange_of_isActive ((hdeleted.parallel column).mp hcolumn).1)
  refine ⟨dropped.length, matrix.deletedAll .column dropped, countColumn_iterate dropped.length ▸ hrun,
    hbeaten.length_active hlinked hsettled, hcolumns, hrows,
    fun row ↦ isActive_row_of_undercut hlinked hsettled hbeaten, fun row hrow ↦ ?_, ?_⟩
  · exact List.ne_nil_of_mem (hnext.exists_mem_columnsOf hleft hrow).choose_spec
  · apply idles_columnDominance hnext hleft
    intro column hcolumn other hother
    rw [undercuts_congr hcosts (hrows other hother) (hrows column hcolumn)]
    exact ((hcolumns column).mp hcolumn).2 other ((hcolumns other).mp hother).1

/-- Two columns are equal only since a row was deleted behind a marker, and the first of them also
covers a third one; of two others with one row the later one costs a negative zero, which is less than
zero; the last column covers that row too but is dearer. -/
theorem columnDominance_of_reachable_pending :
    let bench := Operation.afterAll [.insert 0 0, .insert 1 0, .insert 0 1, .insert 1 1, .insert 4 1,
      .insert 0 2, .insert 2 3, .insert 2 4, .insert 2 5, .insert 3 5, .setCost 2 0 2.0,
      .setCost 3 0 0.0, .setCost 4 0 (-0.0), .backup, .delete (.row 4)]
      (Workbench.blank SingleCost 5 6 false)
    ∃ count next, Reaches columnDominance bench.matrix
        (fun stats ↦ { stats with dominatedColumns := stats.dominatedColumns + count })
        (decide (0 < count)) next ∧
      next.activeColumns.length + count = 6 ∧
      (∀ column, next.isActive (.column column) = true ↔ column = 0 ∨ column = 4 ∨ column = 5) ∧
      next.rowsOf 0 = [0, 1] ∧ next.isActive (.row 3) = true ∧ next.columnsOf 2 ≠ [] ∧
      Idles columnDominance next false := by
  intro bench
  have hreachable : bench.matrix.Reachable := reachable_afterAll_blank 5 6 false _
  obtain ⟨hactive, hminimal, hrow, hother, hkept⟩ : bench.matrix.activeColumns = [0, 1, 2, 3, 4, 5] ∧
      (∀ column ∈ [0, 1, 2, 3, 4, 5], (∀ other ∈ [0, 1, 2, 3, 4, 5],
        ¬bench.matrix.Undercuts other column) ↔ column = 0 ∨ column = 4 ∨ column = 5) ∧
      bench.matrix.isActive (.row 2) = true ∧ bench.matrix.isActive (.row 3) = true ∧
      bench.matrix.rowsOf 0 = [0, 1] := by
    decide +kernel
  clear_value bench
  have hmem (column : Nat) :
      bench.matrix.isActive (.column column) = true ↔ column ∈ [0, 1, 2, 3, 4, 5] :=
    hactive ▸ hreachable.intact.linked.mem_active
  obtain ⟨count, next, hreaches, hcount, hcolumns, hrows, hstay, hfilled, hidles⟩ :=
    columnDominance_of_reachable hreachable
  rw [hactive] at hcount
  have hsurvives (column : Nat) :
      next.isActive (.column column) = true ↔ column = 0 ∨ column = 4 ∨ column = 5 := by
    simp only [hcolumns, hmem]
    refine ⟨fun ⟨hcolumn, hnone⟩ ↦ (hminimal column hcolumn).mp hnone, fun hcolumn ↦ ?_⟩
    have hlisted : column ∈ [0, 1, 2, 3, 4, 5] := by
      rcases hcolumn with rfl | rfl | rfl <;> decide
    exact ⟨hlisted, (hminimal column hlisted).mpr hcolumn⟩
  refine ⟨count, next, hreaches, hcount, hsurvives, ?_, (hstay 3).mpr hother,
    hfilled 2 ((hstay 2).mpr hrow), hidles⟩
  rw [hrows 0 ((hsurvives 0).mpr (.inl rfl)), hkept]

end Workbench

end SetCover

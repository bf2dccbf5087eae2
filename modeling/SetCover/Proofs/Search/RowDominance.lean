import SetCover.Proofs.Reachable
import SetCover.Proofs.Search.Covers
import SetCover.Proofs.Search.Sweep

/-!
# Row dominance leaves the minimal rows

A row outranks another one if its columns are some of those of the other, or the same and it comes
first.  A row that is outranked shares every column of the row above it, so it is found in the shortest
one of them, and the deletion of rows changes nothing in the rows that are left.  So one sweep deletes
the outranked rows and no others, and a second one has nothing to do.
-/

namespace SetCover

namespace Matrix

variable {κ : Type} {matrix next : Matrix κ} {row other : Nat}

/-! ## Rows that outrank others -/

/-- The columns of the row are some of those of the other row, or all of them and the row comes first. -/
def Outranks (matrix : Matrix κ) (row other : Nat) : Prop :=
  (matrix.columnsOf row).toFinset ⊂ (matrix.columnsOf other).toFinset ∨
    matrix.columnsOf row = matrix.columnsOf other ∧ row < other

instance : Decidable (matrix.Outranks row other) :=
  inferInstanceAs (Decidable ((matrix.columnsOf row).toFinset ⊂ (matrix.columnsOf other).toFinset ∨
    matrix.columnsOf row = matrix.columnsOf other ∧ row < other))

instance : IsStrictOrder Nat matrix.Outranks where
  irrefl row := by
    rintro (hless | ⟨-, hless⟩)
    · exact hless.ne rfl
    · exact hless.ne rfl
  trans first second third := by
    rintro (hfirst | ⟨hfirst, hbefore⟩) (hsecond | ⟨hsecond, hafter⟩)
    · exact .inl (hfirst.trans hsecond)
    · exact .inl (hsecond ▸ hfirst)
    · exact .inl (hfirst ▸ hsecond)
    · exact .inr ⟨hfirst.trans hsecond, hbefore.trans hafter⟩

theorem Outranks.subset (h : matrix.Outranks row other) :
    matrix.columnsOf row ⊆ matrix.columnsOf other := by
  rcases h with hless | ⟨hsame, -⟩
  · exact fun column hcolumn ↦ List.mem_toFinset.mp (hless.1 (List.mem_toFinset.mpr hcolumn))
  · exact hsame ▸ List.Subset.refl _

theorem outranks_congr (hrow : next.columnsOf row = matrix.columnsOf row)
    (hother : next.columnsOf other = matrix.columnsOf other) :
    next.Outranks row other ↔ matrix.Outranks row other := by
  rw [Outranks, Outranks, hrow, hother]

theorem Linked.rowDominates_iff (h : matrix.Linked) (hrow : matrix.isActive (.row row) = true)
    (hother : matrix.isActive (.row other) = true) :
    matrix.rowDominates row other = true ↔ matrix.Outranks row other := by
  have hrange := h.inRange_of_isActive hrow
  have hotherRange := h.inRange_of_isActive hother
  have hlength : (matrix.columnsOf row).length = matrix.count (.row row) := h.length_crossing hrange
  have hotherLength : (matrix.columnsOf other).length = matrix.count (.row other) :=
    h.length_crossing hotherRange
  have hascending : (matrix.columnsOf row).Pairwise (· < ·) := h.ascending _ hrange
  have hotherAscending : (matrix.columnsOf other).Pairwise (· < ·) := h.ascending _ hotherRange
  have hiff := @ssubset_or_eq_iff _ _ True (row < other) hascending hotherAscending
  rw [and_true, and_true, hlength, hotherLength] at hiff
  rw [Outranks, hiff, rowDominates]
  simp only [Bool.and_eq_true, Bool.or_eq_true, decide_eq_true_iff, beq_iff_eq,
    Ascending.within_iff hascending hotherAscending]

/-- The rows of the shortest column of a row are enough to find those that it makes superfluous. -/
theorem Linked.mem_dominatedRows_iff (h : matrix.Linked) (hsettled : matrix.Settled)
    (hactive : matrix.isActive (.row row) = true) :
    other ∈ matrix.dominatedRows row ↔
      matrix.isActive (.row other) = true ∧ matrix.Outranks row other := by
  obtain ⟨first, hfirst⟩ := h.settled_iff.mp hsettled _ hactive
  have hsome : (matrix.shortestCrossing? (.row row)).isSome := List.isSome_minOn?_of_mem hfirst
  obtain ⟨column, hshortest⟩ := Option.isSome_iff_exists.mp hsome
  have hcolumn : column ∈ matrix.columnsOf row := List.minOn?_mem hshortest
  have hcolumnActive := h.isActive_of_mem_crossing hactive hcolumn
  rw [dominatedRows, hshortest, List.mem_filter]
  constructor
  · rintro ⟨hmem, hdominates⟩
    have hother := h.isActive_of_mem_crossing hcolumnActive hmem
    exact ⟨hother, (h.rowDominates_iff hactive hother).mp hdominates⟩
  · rintro ⟨hother, hless⟩
    have hshared := (h.mem_columnsOf_iff hother).mp (hless.subset hcolumn)
    exact ⟨(h.mem_rowsOf_iff hcolumnActive).mpr ⟨hshared.1, hother⟩,
      (h.rowDominates_iff hactive hother).mpr hless⟩

end Matrix

namespace Workbench

open SetCover.Matrix

variable {κ : Type} {matrix : Matrix κ} {row : Nat} {rest dropped : List Nat}

/-! ## One sweep -/

/-- Counts a row that was deleted. -/
def countRow (stats : Stats) : Stats := { stats with dominatedRows := stats.dominatedRows + 1 }

theorem countRow_iterate (count : Nat) : countRow^[count] = fun stats ↦
    { stats with dominatedRows := stats.dominatedRows + count } :=
  @iterate_eq_of_succ (fun count stats ↦ { stats with dominatedRows := stats.dominatedRows + count })
    rfl (fun _ ↦ rfl) count

theorem reaches_forM_deleteDominatedRow (h : matrix.Linked) (hsettled : matrix.Settled)
    (hnodup : dropped.Nodup) (hactive : ∀ other ∈ dropped, matrix.isActive (.row other) = true) :
    Reaches (dropped.forM (deleteDominatedRow row)) matrix countRow^[dropped.length] ()
      (matrix.deletedAll .row dropped) := by
  induction dropped generalizing matrix with
  | nil => exact Reaches.pure ()
  | cons first rest ih =>
    have hfirst := hactive first (by simp)
    obtain ⟨hnew, hrest⟩ := List.nodup_cons.mp hnodup
    have hcounted : Reaches (do delete (.row first); count countRow) matrix (countRow ∘ id) ()
        (matrix.deleted (.row first)) := (Reaches.delete h hfirst).bind (.count countRow)
    have hdeleted : Reaches (do note (.rowContains first row); delete (.row first); count countRow)
        matrix ((countRow ∘ id) ∘ id) () (matrix.deleted (.row first)) :=
      (Reaches.report _).bind hcounted
    have hlater := ih ((removes_deleted h hfirst).1.linked h) (settled_deleted h hsettled hfirst) hrest
      fun other hother ↦ (isActive_row_deletedRow h hsettled hfirst).mpr
        ⟨hactive other (by simp [hother]), fun heq ↦ hnew (heq ▸ hother)⟩
    exact hdeleted.bind hlater

theorem drops_deleteRowsDominatedBy (h : matrix.Linked) (hsettled : matrix.Settled)
    (hactive : matrix.isActive (.row row) = true) :
    Drops (deleteRowsDominatedBy row) matrix .row countRow (matrix.dominatedRows row) := by
  apply Reaches.table
  rw [if_pos hactive]
  have hrows : Reaches ((matrix.dominatedRows row).forM (deleteDominatedRow row)) matrix
      countRow^[(matrix.dominatedRows row).length] ()
      (matrix.deletedAll .row (matrix.dominatedRows row)) :=
    reaches_forM_deleteDominatedRow h hsettled (h.nodup_dominatedRows hactive) fun other hother ↦
      ((h.mem_dominatedRows_iff hsettled hactive).mp hother).1
  exact hrows.map fun _ ↦ (matrix.dominatedRows row).length

/-- What a sweep knows of the rows ahead and of those dropped so far: only rows that are outranked are
dropped, and a row that it has passed and kept leaves none that it outranks. -/
structure SweepsRows (matrix : Matrix κ) (ahead dropped : List Nat) : Prop where
  beaten : matrix.Beaten .row matrix.Outranks dropped
  passed : ∀ row ∈ matrix.activeRows, row ∉ ahead → row ∉ dropped →
    ∀ other ∈ matrix.activeRows, matrix.Outranks row other → other ∈ dropped

namespace SweepsRows

/-- A row that was dropped before the sweep comes to it can be passed. -/
theorem skip (h : SweepsRows matrix (row :: rest) dropped) (hgone : row ∈ dropped) :
    SweepsRows matrix rest dropped := by
  refine ⟨h.beaten, fun passed hpassed hahead hkept ↦ h.passed passed hpassed ?_ hkept⟩
  refine List.not_mem_cons_of_ne_of_not_mem ?_ hahead
  rintro rfl
  exact hkept hgone

/-- A row can be passed with those dropped that it outranks among the rows that are left. -/
theorem drop {more : List Nat} (h : SweepsRows matrix (row :: rest) dropped)
    (hbeaten : matrix.Beaten .row matrix.Outranks (dropped ++ more))
    (hmore : ∀ other ∈ matrix.activeRows, matrix.Outranks row other → other ∉ dropped → other ∈ more) :
    SweepsRows matrix rest (dropped ++ more) := by
  refine ⟨hbeaten, fun passed hpassed hahead hkept other hother hless ↦ ?_⟩
  rw [List.mem_append] at hkept ⊢
  push Not at hkept
  by_cases heq : passed = row
  · subst heq
    exact (em (other ∈ dropped)).imp_right (hmore other hother hless)
  · exact .inl (h.passed passed hpassed (List.not_mem_cons_of_ne_of_not_mem heq hahead) hkept.1 other
      hother hless)

theorem step (h : SweepsRows matrix (row :: rest) dropped) (hmatrix : matrix.Linked)
    (hsettled : matrix.Settled) (hrow : row ∈ matrix.activeRows) : ∃ more,
      Drops (deleteRowsDominatedBy row) (matrix.deletedAll .row dropped) .row countRow more ∧
        SweepsRows matrix rest (dropped ++ more) := by
  have hdeleted := h.beaten.allDeleted hmatrix hsettled
  have hlinked := hdeleted.deletes.linked hmatrix hsettled
  have hleft := hdeleted.deletes.settled hmatrix hsettled
  have hbefore : matrix.isActive (.row row) = true := hmatrix.mem_active.mpr hrow
  by_cases hgone : row ∈ dropped
  · have hinactive : ¬(matrix.deletedAll .row dropped).isActive (.row row) = true :=
      fun hactive ↦ ((hdeleted.parallel row).mp hactive).2 hgone
    have hnone : Drops (deleteRowsDominatedBy row) (matrix.deletedAll .row dropped) .row countRow [] := by
      apply Reaches.table
      rw [if_neg hinactive]
      exact Reaches.pure 0
    refine ⟨[], hnone, ?_⟩
    rw [List.append_nil]
    exact h.skip hgone
  · have hactive := (hdeleted.parallel row).mpr ⟨hbefore, hgone⟩
    have hmem {other : Nat} : other ∈ (matrix.deletedAll .row dropped).dominatedRows row ↔
        (matrix.isActive (.row other) = true ∧ other ∉ dropped) ∧ matrix.Outranks row other := by
      rw [hlinked.mem_dominatedRows_iff hleft hactive]
      refine (and_congr_left' (hdeleted.parallel other)).trans (and_congr_right fun hother ↦ ?_)
      exact outranks_congr (hdeleted.kept row (hmatrix.inRange_of_isActive hbefore))
        (hdeleted.kept other (hmatrix.inRange_of_isActive hother.1))
    refine ⟨_, drops_deleteRowsDominatedBy hlinked hleft hactive,
      h.drop (h.beaten.append hmatrix hsettled ?_) fun other hother hless hkept ↦ ?_⟩
    · refine ⟨hlinked.nodup_dominatedRows hactive, fun other hother ↦ ?_, fun other hother ↦ ?_⟩
      · exact (hdeleted.parallel other).mpr (hmem.mp hother).1
      · exact ⟨row, hlinked.mem_active.mp hactive, (hmem.mp hother).2⟩
    · exact hmem.mpr ⟨⟨hmatrix.mem_active.mpr hother, hkept⟩, hless⟩

end SweepsRows

theorem exists_reaches_rowDominance (h : matrix.Linked) (hsettled : matrix.Settled) : ∃ dropped,
    Reaches rowDominance matrix countRow^[dropped.length] (decide (0 < dropped.length))
        (matrix.deletedAll .row dropped) ∧
      matrix.Beaten .row matrix.Outranks dropped ∧ ∀ row ∈ matrix.activeRows,
        (row ∈ dropped ↔ ∃ other ∈ matrix.activeRows, matrix.Outranks other row) := by
  have hstart (hlines : ∀ row ∈ matrix.activeRows, row ∈ matrix.activeBySize .row) :
      SweepsRows matrix (matrix.activeBySize .row) [] :=
    ⟨.nil, fun row hrow hpassed ↦ absurd (hlines row hrow) hpassed⟩
  obtain ⟨dropped, hsweep, hswept⟩ := exists_reaches_sweep hstart
    fun row hrow rest dropped hsweeps ↦ hsweeps.step h hsettled hrow
  refine ⟨dropped, hsweep, hswept.beaten, fun row hrow ↦ hswept.beaten.mem_iff ?_ hrow⟩
  exact fun best hbest hkept ↦ hswept.passed best hbest List.not_mem_nil hkept

/-- If no row outranks another one, there is nothing to do. -/
theorem idles_rowDominance (h : matrix.Linked) (hsettled : matrix.Settled)
    (hminimal : ∀ row, matrix.isActive (.row row) = true → ∀ other,
      matrix.isActive (.row other) = true → ¬matrix.Outranks row other) :
    Idles rowDominance matrix false := by
  have hstep (row : Nat) : Idles (deleteRowsDominatedBy row) matrix 0 := by
    apply Idles.table
    split
    · rename_i hactive
      have hnone : matrix.dominatedRows row = [] := by
        apply List.eq_nil_iff_forall_not_mem.mpr
        intro other hother
        obtain ⟨hotherActive, hless⟩ := (h.mem_dominatedRows_iff hsettled hactive).mp hother
        exact hminimal row hactive other hotherActive hless
      rw [hnone]
      exact .pure 0
    · exact .pure 0
  exact Idles.sweep hstep

/-- On every reachable table, one sweep leaves exactly the active rows that no other active row
outranks.  They keep their columns, and the columns that are left are those that a row is left in.  As
many rows are counted as were deleted, the answer is whether there was one, and a second sweep does
nothing. -/
theorem rowDominance_of_reachable [Cost κ] [LawfulCost κ] (h : matrix.Reachable) : ∃ count next,
    Reaches rowDominance matrix
        (fun stats ↦ { stats with dominatedRows := stats.dominatedRows + count })
        (decide (0 < count)) next ∧
      next.activeRows.length + count = matrix.activeRows.length ∧
      (∀ row, next.isActive (.row row) = true ↔ matrix.isActive (.row row) = true ∧
        ∀ other, matrix.isActive (.row other) = true → ¬matrix.Outranks other row) ∧
      (∀ row, next.isActive (.row row) = true → next.columnsOf row = matrix.columnsOf row) ∧
      (∀ column, next.isActive (.column column) = true ↔
        ∃ row, next.isActive (.row row) = true ∧ column ∈ matrix.columnsOf row) ∧
      Idles rowDominance next false := by
  obtain ⟨hlinked, hsettled⟩ : matrix.Linked ∧ matrix.Settled := ⟨h.intact.linked, h.intact.settled⟩
  obtain ⟨dropped, hrun, hbeaten, hdropped⟩ := exists_reaches_rowDominance hlinked hsettled
  have hdeleted := hbeaten.allDeleted hlinked hsettled
  have hrows (row : Nat) : (matrix.deletedAll .row dropped).isActive (.row row) = true ↔
      matrix.isActive (.row row) = true ∧
        ∀ other, matrix.isActive (.row other) = true → ¬matrix.Outranks other row := by
    refine (hdeleted.parallel row).trans (and_congr_right fun hrow ↦ ?_)
    rw [hdropped row (hlinked.mem_active.mp hrow)]
    push Not
    exact forall_congr' fun other ↦ imp_congr_left (@Linked.mem_active _ _ (.row other) hlinked).symm
  have hcolumns (row : Nat) (hrow : (matrix.deletedAll .row dropped).isActive (.row row) = true) :
      (matrix.deletedAll .row dropped).columnsOf row = matrix.columnsOf row :=
    hdeleted.kept row (hlinked.inRange_of_isActive ((hdeleted.parallel row).mp hrow).1)
  refine ⟨dropped.length, matrix.deletedAll .row dropped, countRow_iterate dropped.length ▸ hrun,
    hbeaten.length_active hlinked hsettled, hrows, hcolumns, fun column ↦ ?_, ?_⟩
  · constructor
    · intro hcolumn
      obtain ⟨hactive, row, hrow, hkept⟩ := (hdeleted.crossing column).mp hcolumn
      have hrowActive := hlinked.isActive_of_mem_crossing hactive hrow
      exact ⟨row, (hdeleted.parallel row).mpr ⟨hrowActive, hkept⟩,
        (hlinked.mem_crossing_comm hrowActive hactive).mp hrow⟩
    · rintro ⟨row, hrow, hcolumn⟩
      obtain ⟨hrowActive, hkept⟩ := (hdeleted.parallel row).mp hrow
      have hactive := hlinked.isActive_of_mem_crossing hrowActive hcolumn
      exact (hdeleted.crossing column).mpr
        ⟨hactive, row, (hlinked.mem_crossing_comm hrowActive hactive).mpr hcolumn, hkept⟩
  · apply idles_rowDominance (hdeleted.deletes.linked hlinked hsettled)
      (hdeleted.deletes.settled hlinked hsettled)
    intro row hrow other hother
    rw [outranks_congr (hcolumns row hrow) (hcolumns other hother)]
    exact ((hrows other).mp hother).2 row ((hrows row).mp hrow).1

/-- Two rows contain others, two are equal, and a row that is deleted behind a marker is contained in
none that is left. -/
theorem rowDominance_of_reachable_pending :
    let bench := Operation.afterAll [.insert 0 0, .insert 0 1, .insert 1 1, .insert 2 1, .insert 3 2,
      .insert 3 3, .insert 4 0, .insert 4 2, .insert 4 3, .insert 5 3, .backup, .delete (.row 5)]
      (Workbench.blank SingleCost 6 4 false)
    ∃ count next, Reaches rowDominance bench.matrix
        (fun stats ↦ { stats with dominatedRows := stats.dominatedRows + count })
        (decide (0 < count)) next ∧
      next.activeRows.length + count = 5 ∧
      (∀ row, next.isActive (.row row) = true ↔ row = 1 ∨ row = 3) ∧
      next.columnsOf 3 = [2, 3] ∧ next.isActive (.column 0) = false ∧
      Idles rowDominance next false := by
  intro bench
  have hreachable : bench.matrix.Reachable := reachable_afterAll_blank 6 4 false _
  obtain ⟨hactive, hminimal, hkept, hcells⟩ : bench.matrix.activeRows = [0, 1, 2, 3, 4] ∧
      (∀ row ∈ [0, 1, 2, 3, 4],
        (∀ other ∈ [0, 1, 2, 3, 4], ¬bench.matrix.Outranks other row) ↔ row = 1 ∨ row = 3) ∧
      bench.matrix.columnsOf 3 = [2, 3] ∧ bench.matrix.columnsOf 1 = [1] := by
    decide +kernel
  clear_value bench
  have hmem (row : Nat) : bench.matrix.isActive (.row row) = true ↔ row ∈ [0, 1, 2, 3, 4] :=
    hactive ▸ hreachable.intact.linked.mem_active
  obtain ⟨count, next, hreaches, hcount, hrows, hcolumns, hleft, hidles⟩ :=
    rowDominance_of_reachable hreachable
  rw [hactive] at hcount
  have hsurvives (row : Nat) : next.isActive (.row row) = true ↔ row = 1 ∨ row = 3 := by
    simp only [hrows, hmem]
    refine ⟨fun ⟨hrow, hnone⟩ ↦ (hminimal row hrow).mp hnone, fun hrow ↦ ?_⟩
    have hlisted : row ∈ [0, 1, 2, 3, 4] := by
      rcases hrow with rfl | rfl <;> decide
    exact ⟨hlisted, (hminimal row hlisted).mpr hrow⟩
  refine ⟨count, next, hreaches, hcount, hsurvives, ?_, ?_, hidles⟩
  · rw [hcolumns 3 ((hsurvives 3).mpr (.inr rfl)), hkept]
  · rw [Bool.eq_false_iff]
    intro hcolumn
    obtain ⟨row, hrow, hcell⟩ := (hleft 0).mp hcolumn
    rcases (hsurvives row).mp hrow with rfl | rfl
    · simp [hcells] at hcell
    · simp [hkept] at hcell

end Workbench

end SetCover

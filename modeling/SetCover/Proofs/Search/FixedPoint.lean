import SetCover.Proofs.Search.ColumnDominance
import SetCover.Proofs.Search.EssentialColumns
import SetCover.Proofs.Search.Reduction
import SetCover.Proofs.Search.RowDominance

/-!
# Reductions end where no rule applies

A rule that reports no change found nothing to do and left the table as it was, so a round that reports
no change was run on a table to which none of its rules applies.  Every other round leaves fewer lines.
So the rounds of a reduction suffice, whatever the rules enable each other to do, and a second reduction
does nothing.  On the table that is left no line need be compared in size: a row within another one is
less than it or equal to it, and then one of the two is deleted.
-/

namespace SetCover

namespace Matrix

variable {κ : Type} {matrix : Matrix κ}

/-- Of two rows one of which has no other columns than the other, one outranks the other. -/
theorem Linked.outranks_or_outranks (h : matrix.Linked) {row other : Nat}
    (hrow : matrix.isActive (.row row) = true) (hother : matrix.isActive (.row other) = true)
    (hne : row ≠ other) (hsubset : matrix.columnsOf row ⊆ matrix.columnsOf other) :
    matrix.Outranks row other ∨ matrix.Outranks other row := by
  have hascending := h.ascending (.row row) (h.inRange_of_isActive hrow)
  have hotherAscending := h.ascending (.row other) (h.inRange_of_isActive hother)
  rcases ssubset_or_eq_of_subset hascending hotherAscending hsubset with hless | hsame
  · exact .inl (.inl hless)
  · rcases hne.lt_or_gt with hbefore | hafter
    · exact .inl (.inr ⟨hsame, hbefore⟩)
    · exact .inr (.inr ⟨hsame.symm, hafter⟩)

variable [Cost κ]

/-- If a column has no other rows than one that is no dearer, one of the two undercuts the other. -/
theorem Linked.undercuts_or_undercuts [LawfulCost κ] (h : matrix.Linked) {column other : Nat}
    (hcolumn : matrix.isActive (.column column) = true)
    (hother : matrix.isActive (.column other) = true) (hne : column ≠ other)
    (hsubset : matrix.rowsOf column ⊆ matrix.rowsOf other)
    (hcost : matrix.costOf other ≤ matrix.costOf column) :
    matrix.Undercuts other column ∨ matrix.Undercuts column other := by
  have hascending := h.ascending (.column column) (h.inRange_of_isActive hcolumn)
  have hotherAscending := h.ascending (.column other) (h.inRange_of_isActive hother)
  rcases ssubset_or_eq_of_subset hascending hotherAscending hsubset with hless | hsame
  · exact .inl (.inl ⟨hless, hcost⟩)
  · rcases LawfulCost.lt_or_eq_of_le hcost with hcheaper | hcosts
    · exact .inl (.inr ⟨hsame, .inl hcheaper⟩)
    · rcases hne.lt_or_gt with hbefore | hafter
      · exact .inr (.inr ⟨hsame.symm, .inr ⟨hcosts.symm, hbefore⟩⟩)
      · exact .inl (.inr ⟨hsame, .inr ⟨hcosts, hafter⟩⟩)

/-- No rule that is switched on applies to the table. -/
structure Irreducible (matrix : Matrix κ) (config : Config) : Prop where
  rows : config.rowDominance = true → ∀ row, matrix.isActive (.row row) = true →
    ∀ other, matrix.isActive (.row other) = true → ¬matrix.Outranks row other
  columns : config.columnDominance = true → ∀ column, matrix.isActive (.column column) = true →
    ∀ other, matrix.isActive (.column other) = true → ¬matrix.Undercuts column other
  singles : config.essentialColumns = true → ∀ row, matrix.isActive (.row row) = true →
    (matrix.columnsOf row).length ≠ 1

end Matrix

namespace Workbench

open SetCover.Matrix

variable {κ : Type} [Cost κ] [LawfulCost κ] {matrix : Matrix κ} {config : Config}

/-! ## Tables to which no rule applies -/

theorem idles_reduceOnce (h : matrix.Irreducible config) (hmatrix : matrix.Linked)
    (hsettled : matrix.Settled) : Idles (reduceOnce config) matrix ⟨false, []⟩ := by
  have hrows : Idles (if config.rowDominance then rowDominance else pure false) matrix false := by
    split
    · rename_i hon
      exact idles_rowDominance hmatrix hsettled (h.rows hon)
    · exact .pure false
  have hcolumns : Idles (if config.columnDominance then columnDominance else pure false) matrix
      false := by
    split
    · rename_i hon
      exact idles_columnDominance hmatrix hsettled
        fun column hcolumn other hother ↦ h.columns hon other hother column hcolumn
    · exact .pure false
  have hforced : Idles (if config.essentialColumns then essentialColumns else pure .unchanged) matrix
      .unchanged := by
    split
    · rename_i hon
      exact idles_essentialColumns hmatrix (h.singles hon)
    · exact .pure Reduction.unchanged
  rw [reduceOnce_eq]
  exact hrows.bind (hcolumns.bind (hforced.bind (Idles.pure (⟨false, []⟩ : Reduction))))

theorem idles_reduceWithin (h : matrix.Irreducible config) (hmatrix : matrix.Linked)
    (hsettled : matrix.Settled) (rounds : Nat) :
    Idles (reduceWithin config (rounds + 1)) matrix ⟨false, []⟩ :=
  (idles_reduceOnce h hmatrix hsettled).bind (Idles.pure (⟨false, []⟩ : Reduction))

theorem idles_reduce (h : matrix.Irreducible config) (hmatrix : matrix.Linked)
    (hsettled : matrix.Settled) : Idles (reduce config) matrix ⟨false, []⟩ :=
  .table (idles_reduceWithin h hmatrix hsettled _)

/-! ## Rounds that change something -/

omit [Cost κ] [LawfulCost κ] in
/-- A rule that may be switched off reports a change unless it finds nothing to delete. -/
theorem exists_reaches_switched {rule : Work κ Bool} {axis : Axis} {beats : Nat → Nat → Prop}
    {counted : Stats → Stats} (on : Bool) (h : matrix.Linked) (hsettled : matrix.Settled)
    (hrule : ∃ dropped, Reaches rule matrix counted^[dropped.length] (decide (0 < dropped.length))
        (matrix.deletedAll axis dropped) ∧
      matrix.Beaten axis beats dropped ∧ ∀ line ∈ matrix.active axis,
        (line ∈ dropped ↔ ∃ other ∈ matrix.active axis, beats other line)) :
    ∃ change changed next, Reaches (if on then rule else pure false) matrix change changed next ∧
      Deletes matrix next ∧ (changed = false → next = matrix ∧ (on = true →
        ∀ other, matrix.isActive ⟨axis, other⟩ = true → ∀ line, matrix.isActive ⟨axis, line⟩ = true →
          ¬beats other line)) := by
  cases on
  · exact ⟨id, false, matrix, .pure false, .refl, fun _ ↦ ⟨rfl, by simp⟩⟩
  · obtain ⟨dropped, hrun, hbeaten, hdropped⟩ := hrule
    refine ⟨_, _, _, hrun, (hbeaten.allDeleted h hsettled).deletes, fun hunchanged ↦ ?_⟩
    obtain rfl : dropped = [] := by simpa using hunchanged
    refine ⟨rfl, fun _ other hother line hline hbeats ↦ ?_⟩
    have hnone := (hdropped line (h.mem_active.mp hline)).mpr ⟨other, h.mem_active.mp hother, hbeats⟩
    exact List.not_mem_nil hnone

/-- A round that reports no change was run on a table to which no rule applies. -/
theorem exists_reaches_reduceOnce (h : matrix.Linked) (hsettled : matrix.Settled) (config : Config) :
    ∃ change reduction next, Reaches (reduceOnce config) matrix change reduction next ∧
      (reduction.changed = false → matrix.Irreducible config) := by
  obtain ⟨first, byRows, afterRows, hrows, hrowsDeleted, hrowsKept⟩ :=
    exists_reaches_switched config.rowDominance h hsettled (exists_reaches_rowDominance h hsettled)
  have hlinked := hrowsDeleted.linked h hsettled
  have hleft := hrowsDeleted.settled h hsettled
  obtain ⟨second, byColumns, afterColumns, hcolumns, hcolumnsDeleted, hcolumnsKept⟩ :=
    exists_reaches_switched config.columnDominance hlinked hleft
      (exists_reaches_columnDominance hlinked hleft)
  have hlater := hcolumnsDeleted.linked hlinked hleft
  have hlaterSettled := hcolumnsDeleted.settled hlinked hleft
  obtain ⟨third, forced, next, hforced, hnone⟩ : ∃ change forced next,
      Reaches (if config.essentialColumns then essentialColumns else pure .unchanged) afterColumns change
        forced next ∧ (forced.changed = false → config.essentialColumns = true → ∀ row,
          afterColumns.isActive (.row row) = true → (afterColumns.columnsOf row).length ≠ 1) := by
    cases config.essentialColumns
    · exact ⟨id, .unchanged, afterColumns, .pure Reduction.unchanged, by simp⟩
    · obtain ⟨chosen, next, hrun, hvisited⟩ := exists_reaches_essentialColumns hlater hlaterSettled
      refine ⟨_, .choosing chosen, next, hrun, fun hunchanged _ row hrow hlength ↦ ?_⟩
      obtain ⟨column, honly⟩ := List.length_eq_one_iff.mp hlength
      have hneeds : afterColumns.Needs row column := ⟨hrow, honly⟩
      have hmem := (hvisited.mem_iff column).mpr
        ⟨row, hlater.mem_singleRows_iff.mpr ⟨column, hneeds⟩, hneeds⟩
      exact of_decide_eq_false hunchanged (List.length_pos_of_mem hmem)
  have hrun : Reaches (reduceOnce config) matrix ((third ∘ second) ∘ first)
      ⟨byRows || byColumns || forced.changed, forced.selected⟩ next := by
    rw [reduceOnce_eq]
    exact hrows.bind (hcolumns.bind (hforced.map fun forced ↦
      (⟨byRows || byColumns || forced.changed, forced.selected⟩ : Reduction)))
  refine ⟨_, _, next, hrun, fun hunchanged ↦ ?_⟩
  simp only [Bool.or_eq_false_iff] at hunchanged
  obtain ⟨⟨hbyRows, hbyColumns⟩, hbyForced⟩ := hunchanged
  obtain ⟨rfl, hminimal⟩ := hrowsKept hbyRows
  obtain ⟨rfl, hunbeaten⟩ := hcolumnsKept hbyColumns
  exact ⟨hminimal, hunbeaten, hnone hbyForced⟩

/-- As many rounds as there are active lines, and one more, lead to a table to which no rule applies. -/
theorem exists_reaches_reduceWithin (h : matrix.Linked) (hsettled : matrix.Settled) (config : Config)
    {rounds : Nat} (hrounds : matrix.extent < rounds) :
    ∃ change reduction next, Reaches (reduceWithin config rounds) matrix change reduction next ∧
      next.Irreducible config ∧ Shrinks matrix reduction.selected reduction.changed.toNat next ∧
      (reduction.changed = false → next = matrix) := by
  induction rounds generalizing matrix with
  | zero => exact absurd hrounds (Nat.not_lt_zero _)
  | succ rounds ih =>
    obtain ⟨change, first, next, hfirst, hirreducible⟩ := exists_reaches_reduceOnce h hsettled config
    cases hchanged : first.changed with
    | false =>
      have hidles := idles_reduceWithin (hirreducible hchanged) h hsettled rounds
      exact ⟨id, ⟨false, []⟩, matrix, hidles.reaches, hirreducible hchanged, .refl, fun _ ↦ rfl⟩
    | true =>
      have hshrinks := hfirst.of_ends
        (@ends_reduceOnce _ _ _ (fun _ _ ↦ False) h hsettled config)
      rw [hchanged] at hshrinks
      have hfewer : 1 + next.extent ≤ matrix.extent := hshrinks.extent_le
      obtain ⟨further, later, last, hlater, hlast, hlaterShrinks, -⟩ :=
        ih (hshrinks.linked h hsettled) (hshrinks.settled h hsettled) (by omega)
      have hrun : Reaches (reduceWithin config (rounds + 1)) matrix (further ∘ change)
          ⟨true, first.selected ++ later.selected⟩ last := by
        refine hfirst.bind ?_
        rw [if_pos hchanged]
        exact hlater.map fun later ↦ (⟨true, first.selected ++ later.selected⟩ : Reduction)
      exact ⟨_, _, last, hrun, hlast, (hshrinks.trans hlaterShrinks).weaken (Nat.le_add_right 1 _),
        by simp⟩

/-- On every reachable table and with every setting, a reduction comes to an end.  Then no row has the
columns of another one if rows are compared, no column has its rows in another one that is no dearer if
columns are compared, and every row has at least two columns if single ones are chosen.  The reduction
reports a change if the active lines have changed and only then, every row has columns left, and a
second reduction does nothing. -/
theorem reduce_of_reachable (h : matrix.Reachable) (config : Config) : ∃ change reduction next,
    Reaches (reduce config) matrix change reduction next ∧
      (config.rowDominance = true → ∀ row other, next.isActive (.row row) = true →
        next.isActive (.row other) = true → row ≠ other →
        ¬next.columnsOf row ⊆ next.columnsOf other) ∧
      (config.columnDominance = true → ∀ column other, next.isActive (.column column) = true →
        next.isActive (.column other) = true → column ≠ other →
        next.rowsOf column ⊆ next.rowsOf other → ¬next.costOf other ≤ next.costOf column) ∧
      (config.essentialColumns = true → ∀ row, next.isActive (.row row) = true →
        2 ≤ (next.columnsOf row).length) ∧
      (reduction.changed = true ↔
        next.activeRows ≠ matrix.activeRows ∨ next.activeColumns ≠ matrix.activeColumns) ∧
      (∀ row, next.isActive (.row row) = true → next.columnsOf row ≠ []) ∧
      Idles (reduce config) next ⟨false, []⟩ := by
  obtain ⟨hlinked, hsettled⟩ : matrix.Linked ∧ matrix.Settled := ⟨h.intact.linked, h.intact.settled⟩
  obtain ⟨change, reduction, next, hrun, hirreducible, hshrinks, hkept⟩ :=
    exists_reaches_reduceWithin hlinked hsettled config (Nat.lt_succ_self matrix.extent)
  have hnext := hshrinks.linked hlinked hsettled
  have hleft := hshrinks.settled hlinked hsettled
  have hfilled (row : Nat) (hrow : next.isActive (.row row) = true) : next.columnsOf row ≠ [] :=
    List.ne_nil_of_mem (hnext.exists_mem_columnsOf hleft hrow).choose_spec
  refine ⟨change, reduction, next, Reaches.table hrun, fun hon row other hrow hother hne hsubset ↦ ?_,
    fun hon column other hcolumn hother hne hsubset hcost ↦ ?_, fun hon row hrow ↦ ?_, ?_, hfilled,
    idles_reduce hirreducible hnext hleft⟩
  · rcases hnext.outranks_or_outranks hrow hother hne hsubset with hless | hless
    · exact hirreducible.rows hon row hrow other hother hless
    · exact hirreducible.rows hon other hother row hrow hless
  · rcases hnext.undercuts_or_undercuts hcolumn hother hne hsubset hcost with hless | hless
    · exact hirreducible.columns hon other hother column hcolumn hless
    · exact hirreducible.columns hon column hcolumn other hother hless
  · have hpos := List.length_pos_of_ne_nil (hfilled row hrow)
    have hsingle := hirreducible.singles hon row hrow
    omega
  · cases hchanged : reduction.changed with
    | false => simp [hkept hchanged]
    | true =>
      have hfewer := hshrinks.extent_le
      rw [hchanged, Bool.toNat_true] at hfewer
      refine iff_of_true rfl (not_and_or.mp fun hsame ↦ ?_)
      rw [extent, extent, hsame.1, hsame.2] at hfewer
      omega

/-- The first round deletes a row that contains another one and a column that is undercut, and then
chooses the only column that a row has left; with the rows of this column a further column becomes
undercut, in the second round.  A cycle of three rows is left; the last row is deleted behind a marker. -/
theorem reduce_of_reachable_cycle :
    let bench := Operation.afterAll [.insert 0 0, .insert 0 1, .insert 0 5, .insert 1 1, .insert 1 2,
      .insert 2 0, .insert 2 2, .insert 3 0, .insert 3 1, .insert 3 5, .insert 4 3, .insert 4 5,
      .insert 5 3, .insert 5 4, .insert 6 0, .backup, .delete (.row 6)]
      (Workbench.blank SingleCost 7 6 false)
    ∃ change reduction next, Reaches (reduce .full) bench.matrix change reduction next ∧
      (∀ row other, next.isActive (.row row) = true → next.isActive (.row other) = true → row ≠ other →
        ¬next.columnsOf row ⊆ next.columnsOf other) ∧
      (∀ column other, next.isActive (.column column) = true → next.isActive (.column other) = true →
        column ≠ other → next.rowsOf column ⊆ next.rowsOf other →
        ¬next.costOf other ≤ next.costOf column) ∧
      (∀ row, next.isActive (.row row) = true → 2 ≤ (next.columnsOf row).length) ∧
      (reduction.changed = true ↔
        next.activeRows ≠ [0, 1, 2, 3, 4, 5] ∨ next.activeColumns ≠ [0, 1, 2, 3, 4, 5]) ∧
      Idles (reduce .full) next ⟨false, []⟩ := by
  intro bench
  have hreachable : bench.matrix.Reachable := reachable_afterAll_blank 7 6 false _
  obtain ⟨hactiveRows, hactiveColumns⟩ : bench.matrix.activeRows = [0, 1, 2, 3, 4, 5] ∧
      bench.matrix.activeColumns = [0, 1, 2, 3, 4, 5] := by
    decide +kernel
  obtain ⟨change, reduction, next, hrun, hrows, hcolumns, hsingles, hchanged, -, hidles⟩ :=
    reduce_of_reachable hreachable .full
  rw [hactiveRows, hactiveColumns] at hchanged
  exact ⟨change, reduction, next, hrun, hrows rfl, hcolumns rfl, hsingles rfl, hchanged, hidles⟩

end Workbench

end SetCover

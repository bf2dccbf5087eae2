import SetCover.Proofs.Search.Optimality

/-!
# Rules in any order

The rules of a reduction can be applied on their own, in any order and as often as one likes.  None of
them takes the last cell from a row, so what is left can be solved whenever the whole could be; and the
columns that the rules had to choose, with a cheapest cover of what is left, are a cheapest cover of the
whole.
-/

namespace SetCover

/-- The rules that can be applied to a table on their own, and the reduction by all rules that are
switched on. -/
inductive Rule where
  | rowDominance
  | columnDominance
  | essentialColumns
  | reduce (config : Config)

namespace Rule

variable {κ : Type} [Cost κ]

/-- Applies a rule and answers the columns that it had to choose. -/
def apply : Rule → Work κ (List Nat)
  | rowDominance => do
    discard Workbench.rowDominance
    return []
  | columnDominance => do
    discard Workbench.columnDominance
    return []
  | essentialColumns => return (← Workbench.essentialColumns).selected
  | reduce config => return (← Workbench.reduce config).selected

/-- Applies rules one after the other and answers the columns that they had to choose. -/
def applyAll (rules : List Rule) : Work κ (List Nat) :=
  rules.foldlM (fun chosen rule ↦ return chosen ++ (← rule.apply)) []

end Rule

namespace Matrix

variable {κ : Type} {start matrix next : Matrix κ} {chosen : List Nat}

/-! ## Rows with cells -/

/-- Every row has cells, whether it is active or not. -/
def Supplied (matrix : Matrix κ) : Prop :=
  ∀ row < matrix.rowSize, 0 < matrix.count (.row row)

theorem uncoverable?_eq_none_iff : matrix.uncoverable? = none ↔ matrix.Supplied := by
  simp [uncoverable?, Supplied, Nat.pos_iff_ne_zero]

/-- The row without cells that is reported is the first one. -/
theorem uncoverable?_eq_some_iff {row : Nat} : matrix.uncoverable? = some row ↔
    row < matrix.rowSize ∧ matrix.count (.row row) = 0 ∧
      ∀ other < row, 0 < matrix.count (.row other) := by
  simp [uncoverable?, List.find?_range_eq_some, Nat.pos_iff_ne_zero, and_left_comm]

/-- The rows that are active have cells anyway, and the others kept theirs. -/
theorem Supplied.of_removes (h : matrix.Supplied) (hmatrix : matrix.Linked)
    (hremoves : Removes matrix next) (hsettled : next.Settled)
    (hkept : ∀ row, matrix.InRange (.row row) → next.isActive (.row row) = false →
      next.crossing (.row row) = matrix.crossing (.row row)) : next.Supplied := by
  intro row hrow
  have hnext : next.InRange (.row row) := hrow
  have hrange := hremoves.inRange_iff.mp hnext
  cases hactive : next.isActive (.row row) with
  | true => exact hsettled _ hactive
  | false =>
    calc 0 < matrix.count (.row row) := h row hrange
      _ = (matrix.crossing (.row row)).length := (hmatrix.length_crossing hrange).symm
      _ = (next.crossing (.row row)).length := by rw [hkept row hrange hactive]
      _ = next.count (.row row) := (hremoves.linked hmatrix).length_crossing hnext

theorem Supplied.deletedRow {row : Nat} (h : matrix.Supplied) (hmatrix : matrix.Linked)
    (hsettled : matrix.Settled) (hactive : matrix.isActive (.row row) = true) :
    (matrix.deleted (.row row)).Supplied :=
  h.of_removes hmatrix (removes_deleted hmatrix hactive).1 (settled_deleted hmatrix hsettled hactive)
    fun _ hrange _ ↦ crossing_deleted hmatrix hactive hrange rfl

theorem Supplied.deletedColumn {column : Nat} (h : matrix.Supplied) (hmatrix : matrix.Linked)
    (hsettled : matrix.Settled) (hactive : matrix.isActive (.column column) = true)
    (hspare : matrix.Spare column) : (matrix.deleted (.column column)).Supplied := by
  have hremoves := (removes_deleted hmatrix hactive).1
  apply h.of_removes hmatrix hremoves (settled_deleted hmatrix hsettled hactive)
  intro row hrange hgone
  -- No row goes with the column, so this one had gone before.
  apply hremoves.crossing_eq hmatrix hrange
  rw [Bool.eq_false_iff] at hgone ⊢
  exact fun hrow ↦
    hgone ((isActive_row_deletedColumn hmatrix hsettled hactive hspare).mpr hrow)

theorem Supplied.selected {column : Nat} (h : matrix.Supplied) (hmatrix : matrix.Linked)
    (hsettled : matrix.Settled) (hactive : matrix.isActive (.column column) = true) :
    (matrix.selected column).Supplied :=
  h.of_removes hmatrix (removes_selected hmatrix hsettled hactive)
    (settled_selected hmatrix hsettled hactive)
    fun row hrange _ ↦ (allDeleted_selected hmatrix hsettled hactive).2.kept row hrange

/-- A reduction takes the last cell from no row. -/
theorem Reduces.supplied [Cost κ] (h : Reduces start chosen matrix) (hstart : start.Linked)
    (hsettled : start.Settled) (hsupplied : start.Supplied) : matrix.Supplied := by
  induction h with
  | refl => exact hsupplied
  | row hprior hactive _ _ _ ih =>
    exact ih.deletedRow (hprior.linked hstart hsettled) (hprior.settled hstart hsettled) hactive
  | column hprior hactive hdominator hne hsubset _ ih =>
    have hlinked := hprior.linked hstart hsettled
    exact ih.deletedColumn hlinked (hprior.settled hstart hsettled) hactive
      (hlinked.spare_of_dominator hactive hdominator hne hsubset)
  | essential hprior hactive honly ih =>
    have hlinked := hprior.linked hstart hsettled
    exact ih.selected hlinked (hprior.settled hstart hsettled)
      (hlinked.isActive_of_columnsOf hactive honly)

end Matrix

variable {κ : Type} [Cost κ]

/-! ## What was spent before -/

/-- What is cheapest from the start is so after something has been spent. -/
theorem Cheapest.spend [LawfulCost κ] {amountOf : Nat → Amount κ} {eligible : Finset Nat → Prop}
    {cover : Cover κ} {cost : κ} {base : Amount κ} (h : Cheapest amountOf 0 eligible cover)
    (hspent : Stands cost base)
    (hfits : Amount.Fits (base + Amount.total amountOf cover.columns.toFinset)) :
    Cheapest amountOf base eligible ⟨cost + cover.cost, cover.columns⟩ where
  nodup := h.nodup
  isEligible := h.isEligible
  stands := by
    have hstands := h.stands
    rw [zero_add] at hstands
    exact hspent.add hstands hfits
  least columns hcolumns := by
    exact price_le_price_iff.mpr (price_le_price_iff.mp (h.least columns hcolumns))

namespace Workbench

open SetCover.Matrix

variable {matrix : Matrix κ} {refused : Fault → Matrix κ → Prop}

/-! ## Applying rules -/

theorem ends_apply (h : matrix.Linked) (hsettled : matrix.Settled) (rule : Rule) :
    Ends rule.apply matrix (fun chosen next ↦ Reduces matrix chosen next) refused := by
  cases rule with
  | rowDominance =>
    exact Ends.bind (Ends.discard ((ends_rowDominance h hsettled).mono
      fun _ _ hdone ↦ Ends.pure hdone.reduces))
  | columnDominance =>
    exact Ends.bind (Ends.discard ((ends_columnDominance h hsettled).mono
      fun _ _ hdone ↦ Ends.pure hdone.reduces))
  | essentialColumns =>
    exact (ends_essentialColumns h hsettled).andThen fun _ _ hdone ↦ Ends.pure hdone.reduces
  | reduce config =>
    exact (ends_reduce h hsettled config).andThen fun _ _ hdone ↦ Ends.pure hdone

/-- Rules one after the other are a reduction. -/
theorem ends_applyAll (h : matrix.Linked) (hsettled : matrix.Settled) (rules : List Rule) :
    Ends (Rule.applyAll rules) matrix (fun chosen next ↦ Reduces matrix chosen next) refused := by
  apply Ends.foldlM (fun _ chosen next ↦ Reduces matrix chosen next) _ .refl
  intro rule others chosen next hreduces
  exact (ends_apply (hreduces.linked h hsettled) (hreduces.settled h hsettled) rule).andThen
    fun _ _ hnext ↦ Ends.pure (hreduces.trans hnext)

end Workbench

namespace Matrix

variable {matrix next : Matrix κ} {chosen : List Nat} {amountOf : Nat → Amount κ} {rest : Cover κ}

theorem Reduces.intact (h : Reduces matrix chosen next) (hmatrix : matrix.Intact) : next.Intact :=
  (Descends.of_deletes hmatrix (h.deletes hmatrix.linked hmatrix.settled)).intact hmatrix

/-- The chosen columns with a cheapest cover of what is left are a cheapest cover of the whole. -/
theorem Reduces.optimal [LawfulCost κ] (h : Reduces matrix chosen next) (hmatrix : matrix.Linked)
    (hsettled : matrix.Settled) (hpriced : matrix.Priced amountOf)
    (hrest : Cheapest amountOf 0 next.Covers rest) :
    matrix.Optimal ⟨matrix.totalCost chosen + rest.cost, chosen ++ rest.columns⟩ := by
  have hnode := hpriced.node hmatrix hsettled
  have hreduced := hnode.reduced h
  have hspent := hreduced.spent
  rw [h.costOf_eq hmatrix hsettled] at hspent
  have hsubset : rest.columns.toFinset ⊆ next.columnSet := fun column hcolumn ↦
    hreduced.linked.mem_columnSet.mpr (hrest.isEligible.active column hcolumn)
  have hfits := hreduced.fits.of_le fun index ↦
    Nat.add_le_add_left (Amount.total_le_of_subset hsubset index) _
  have hcheapest := hrest.spend hspent hfits
  have hfound : Finds amountOf (0 + (chosen.map amountOf).sum) ⊤ next.Covers
      (some ⟨matrix.totalCost chosen + rest.cost, rest.columns⟩) :=
    ⟨hcheapest, WithTop.coe_lt_top _⟩
  exact hpriced.optimal hmatrix (hnode.finds_reduced h hfound).1

end Matrix

namespace Workbench

open SetCover.Matrix

variable [LawfulCost κ] {matrix : Matrix κ} {amountOf : Nat → Amount κ}

/-- If a table can be solved and its costs add up exactly, then rules in any order leave cells in every
row, what is left can be solved by every setting, and the columns that were chosen on the way make a
cheapest cover with those that are found. -/
theorem optimal_of_applyAll (h : matrix.Reachable) (hpriced : matrix.Priced amountOf)
    {config : Config} {stats : Stats} {journal : Journal κ} {cover : Cover κ}
    (hsolve : Calls.answer (solve config) ⟨matrix, stats, journal⟩ = .ok (.cover cover))
    (rules : List Rule) (counted : Stats) (reported : Journal κ) : ∃ chosen next,
      Rule.applyAll rules ⟨matrix, counted, reported⟩ = .ok chosen next ∧ next.matrix.Supplied ∧
        ∀ (other : Config) (stats : Stats) (journal : Journal κ), ∃ rest,
          Calls.answer (solve other) ⟨next.matrix, stats, journal⟩ = .ok (.cover rest) ∧
            matrix.Optimal ⟨matrix.totalCost chosen + rest.cost, chosen ++ rest.columns⟩ := by
  have hintact := h.intact
  obtain ⟨hlinked, hsettled⟩ : matrix.Linked ∧ matrix.Settled := ⟨hintact.linked, hintact.settled⟩
  have hrules := @ends_applyAll _ _ _ (fun _ _ ↦ False) hlinked hsettled rules
    counted reported
  obtain ⟨chosen, next, happly, hreduces⟩ := hrules.exists_ok
  have hsupplied := hreduces.supplied hlinked hsettled
    (uncoverable?_eq_none_iff.mp (uncoverable?_of_solve hintact hsolve))
  refine ⟨chosen, next, happly, hsupplied, fun other stats journal ↦ ?_⟩
  have hnext := hreduces.intact hintact
  obtain ⟨rest, hrest⟩ :=
    exists_solve other hnext (uncoverable?_eq_none_iff.mpr hsupplied) stats journal
  have hpricedNext := ((hpriced.node hlinked hsettled).reduced hreduces).priced
  exact ⟨rest, hrest,
    hreduces.optimal hlinked hsettled hpriced (cheapest_of_solve hnext hpricedNext hrest)⟩

/-- A row contains another one, a column is dominated, another one becomes essential, and a cycle of
three rows is left to be solved; the last row is deleted behind a marker. -/
theorem optimal_of_applyAll_cycle :
    let bench := Operation.afterAll [.insert 0 0, .insert 0 1, .insert 1 1, .insert 1 2, .insert 2 0,
      .insert 2 2, .insert 3 0, .insert 3 1, .insert 3 3, .insert 4 3, .insert 4 4, .insert 5 0,
      .setCost 1 0 2.0, .setCost 4 0 3.0, .backup, .delete (.row 5)]
      (Workbench.blank SingleCost 6 5 false)
    ∃ chosen next,
      Rule.applyAll [.rowDominance, .columnDominance, .essentialColumns, .reduce .full] bench =
          .ok chosen next ∧ next.matrix.Supplied ∧
        ∃ rest, Calls.answer (solve .full) next = .ok (.cover rest) ∧
          bench.matrix.Optimal ⟨bench.matrix.totalCost chosen + rest.cost, chosen ++ rest.columns⟩ := by
  intro bench
  have hreachable : bench.matrix.Reachable := reachable_afterAll_blank 6 5 false _
  obtain ⟨hactive, hcosts, hsolve⟩ : bench.matrix.activeColumns = [0, 1, 2, 3, 4] ∧
      (∀ column ∈ [0, 1, 2, 3, 4], Cost.components (bench.matrix.costOf column) =
        [Float.ofNat ([1, 2, 1, 1, 3].getD column 0)]) ∧
      Calls.answer (solve .exhaustive) bench = .ok (.cover ⟨⟨3.0⟩, [0, 2, 3]⟩) := by
    decide +kernel
  clear_value bench
  have hpriced : bench.matrix.Priced fun column _ ↦ [1, 2, 1, 1, 3].getD column 0 := by
    refine hreachable.intact.linked.priced_of_activeColumns hactive
      (fun column hcolumn ↦ hcosts column hcolumn) ?_
    unfold Amount.Fits
    decide +kernel
  obtain ⟨chosen, next, hrules, hsupplied, hrest⟩ := optimal_of_applyAll hreachable hpriced hsolve
    [.rowDominance, .columnDominance, .essentialColumns, .reduce .full] bench.stats bench.journal
  exact ⟨chosen, next, hrules, hsupplied, hrest .full next.stats next.journal⟩

end Workbench

end SetCover

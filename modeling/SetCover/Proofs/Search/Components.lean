import Mathlib.Combinatorics.SimpleGraph.Clique
import Mathlib.Combinatorics.SimpleGraph.Connectivity.Represents
import SetCover.Proofs.Reachable
import SetCover.Proofs.Search.Abreast
import SetCover.Proofs.Search.Bound

/-!
# What the lower bound is

Merging the rows of every column joins the rows that a chain of common columns links, and no others, so
the groups are the connected components of the graph of rows with common columns.  The greedy clique has
one of the heaviest rows of every component, a row weighing what its cheapest column costs.  No set of
rows of different components weighs more.
-/

namespace SetCover

namespace Matrix

variable {κ : Type} {matrix : Matrix κ}

/-! ## Groups are components -/

/-- The active rows. -/
abbrev ActiveRow (matrix : Matrix κ) := {row // row ∈ matrix.activeRows}

/-- The graph of the active rows in which two rows are adjacent if they have an active column in
common. -/
def rowGraph (matrix : Matrix κ) : SimpleGraph matrix.ActiveRow where
  Adj row other := row ≠ other ∧ ∃ column ∈ matrix.columnsOf row,
    column ∈ matrix.columnsOf other ∧ matrix.isActive (.column column) = true
  symm := ⟨fun _ _ ⟨hne, column, hrow, hother, hactive⟩ ↦ ⟨hne.symm, column, hother, hrow, hactive⟩⟩
  loopless := ⟨fun _ hadjacent ↦ hadjacent.1 rfl⟩

instance : DecidableRel matrix.rowGraph.Adj := fun row other ↦
  inferInstanceAs (Decidable (row ≠ other ∧ ∃ column ∈ matrix.columnsOf row,
    column ∈ matrix.columnsOf other ∧ matrix.isActive (.column column) = true))

/-- Rows that a chain of common columns links. -/
abbrev Component (matrix : Matrix κ) := matrix.rowGraph.ConnectedComponent

/-- The component of a row. -/
abbrev componentOf (matrix : Matrix κ) : matrix.ActiveRow → matrix.Component :=
  matrix.rowGraph.connectedComponentMk

/-- The rows are the same or of one component. -/
def Connected (matrix : Matrix κ) (row other : Nat) : Prop :=
  row = other ∨ ∃ first second : matrix.ActiveRow, first.val = row ∧ second.val = other ∧
    matrix.rowGraph.Reachable first second

theorem equivalence_connected : Equivalence matrix.Connected where
  refl _ := .inl rfl
  symm := by
    rintro row other (rfl | ⟨first, second, hrow, hother, hreachable⟩)
    · exact .inl rfl
    · exact .inr ⟨second, first, hother, hrow, hreachable.symm⟩
  trans := by
    rintro row other third (rfl | ⟨first, second, hrow, hother, hreachable⟩) hthird
    · exact hthird
    · rcases hthird with rfl | ⟨middle, last, hmiddle, hlast, hfurther⟩
      · exact .inr ⟨first, second, hrow, hother, hreachable⟩
      · obtain rfl : second = middle := Subtype.ext (hother.trans hmiddle.symm)
        exact .inr ⟨first, last, hrow, hlast, hreachable.trans hfurther⟩

/-- Merging the rows of columns joins rows only that are related when they have a column in common. -/
theorem within_groups {related : Nat → Nat → Prop} {columns : List Nat} {partition : Partition}
    (h : partition.Ranked) (hrelated : Equivalence related) (hwithin : partition.Within related)
    (hrows : ∀ column ∈ columns, ∀ row ∈ matrix.rowsOf column, row < partition.size)
    (hmerged : ∀ column ∈ columns, ∀ row ∈ matrix.rowsOf column, ∀ other ∈ matrix.rowsOf column,
      related row other) :
    (columns.foldl (fun partition column ↦ partition.uniteAll (matrix.rowsOf column))
      partition).Within related := by
  induction columns generalizing partition with
  | nil => exact hwithin
  | cons first rest ih =>
    have hfirst := hrows first List.mem_cons_self
    obtain ⟨hunited, -⟩ := h.coarser_uniteAll hfirst
    apply ih hunited.ranked
    · exact h.within_uniteAll hfirst hrelated hwithin (hmerged first List.mem_cons_self)
    · exact fun column hcolumn row hrow ↦
        hunited.size_eq ▸ hrows column (List.mem_cons_of_mem first hcolumn) row hrow
    · exact fun column hcolumn ↦ hmerged column (List.mem_cons_of_mem first hcolumn)

/-- Active rows of one group are in one component. -/
theorem Linked.within_groups_connected (h : matrix.Linked) : matrix.groups.Within matrix.Connected := by
  apply within_groups (Partition.ranked_singletons matrix.rowSize) equivalence_connected
    (Partition.within_singletons equivalence_connected matrix.rowSize) h.lt_size_of_mem_rowsOf
  intro column hcolumn row hrow other hother
  by_cases heq : row = other
  · exact .inl heq
  · have hactive : matrix.isActive (.column column) = true := h.mem_active.mpr hcolumn
    have hcrosses := (h.mem_rowsOf_iff hactive).mp hrow
    have hotherCrosses := (h.mem_rowsOf_iff hactive).mp hother
    have hadjacent : matrix.rowGraph.Adj ⟨row, h.mem_active.mp hcrosses.2⟩
        ⟨other, h.mem_active.mp hotherCrosses.2⟩ := by
      refine ⟨fun hsame ↦ heq (congrArg Subtype.val hsame), column, ?_, ?_, hactive⟩
      · exact (h.mem_columnsOf_iff hcrosses.2).mpr ⟨hcrosses.1, hactive⟩
      · exact (h.mem_columnsOf_iff hotherCrosses.2).mpr ⟨hotherCrosses.1, hactive⟩
    exact .inr ⟨_, _, rfl, rfl, hadjacent.reachable⟩

/-- Active rows are in one group if and only if they are in one component. -/
theorem Linked.root_groups_eq_iff (h : matrix.Linked) {row other : matrix.ActiveRow} :
    matrix.groups.root row = matrix.groups.root other ↔
      matrix.componentOf row = matrix.componentOf other := by
  have hactive (row : matrix.ActiveRow) : matrix.isActive (.row row) = true :=
    h.mem_active.mpr row.property
  have hlt (row : matrix.ActiveRow) : row.val < matrix.groups.size := by
    rw [h.size_groups]
    exact h.inRange_of_isActive (hactive row)
  rw [SimpleGraph.ConnectedComponent.eq]
  constructor
  · intro hroot
    rcases h.within_groups_connected row (hlt row) other (hlt other) hroot with
      heq | ⟨first, second, hrow, hother, hreachable⟩
    · rw [Subtype.ext heq]
    · rwa [Subtype.ext hrow, Subtype.ext hother] at hreachable
  · rintro ⟨walk⟩
    induction walk with
    | nil => rfl
    | cons hadjacent _ ih =>
      obtain ⟨-, column, hfirst, hsecond, hcolumn⟩ := hadjacent
      refine Eq.trans ?_ ih
      exact h.root_groups_eq hcolumn ((h.mem_crossing_comm (hactive _) hcolumn).mpr hfirst)
        ((h.mem_crossing_comm (hactive _) hcolumn).mpr hsecond)

/-! ## The heaviest rows -/

/-- The graph of the active rows in which rows of different components are adjacent. -/
def apartGraph (matrix : Matrix κ) : SimpleGraph matrix.ActiveRow :=
  SimpleGraph.comap matrix.componentOf ⊤

section Weights

variable [Cost κ] {weightOf : Nat → Amount κ}

/-- What the heaviest row of a component weighs, amounts being compared lexicographically. -/
noncomputable def heaviestOf (matrix : Matrix κ) (weightOf : Nat → Amount κ)
    (component : matrix.Component) : Amount κ :=
  ofLex ((Finset.univ.filter (· ∈ component.supp)).sup fun row ↦ toLex (weightOf row))

theorem toLex_le_heaviestOf (row : matrix.ActiveRow) :
    toLex (weightOf row) ≤ toLex (matrix.heaviestOf weightOf (matrix.componentOf row)) := by
  have hmem : row ∈ Finset.univ.filter (· ∈ (matrix.componentOf row).supp) :=
    Finset.mem_filter.mpr ⟨Finset.mem_univ row, rfl⟩
  exact Finset.le_sup (f := fun row : matrix.ActiveRow ↦ toLex (weightOf row)) hmem

/-- A row that none of its component outweighs is one of the heaviest. -/
theorem heaviestOf_eq {row : matrix.ActiveRow}
    (hheaviest : ∀ other, matrix.componentOf other = matrix.componentOf row →
      toLex (weightOf other) ≤ toLex (weightOf row)) :
    matrix.heaviestOf weightOf (matrix.componentOf row) = weightOf row := by
  have hle : toLex (matrix.heaviestOf weightOf (matrix.componentOf row)) ≤ toLex (weightOf row) := by
    rw [heaviestOf, toLex_ofLex]
    exact Finset.sup_le fun other hother ↦ hheaviest other (Finset.mem_filter.mp hother).2
  exact toLex_inj.mp (le_antisymm hle (toLex_le_heaviestOf row))

/-- Rows of different components weigh no more than the heaviest ones of all components. -/
theorem toLex_sum_le_of_isClique {rows : Finset matrix.ActiveRow}
    (hclique : matrix.apartGraph.IsClique rows) :
    toLex (∑ row ∈ rows, weightOf row) ≤
      toLex (∑ component, matrix.heaviestOf weightOf component) := by
  classical
  have hinjective : Set.InjOn matrix.componentOf rows := by
    intro row hrow other hother heq
    by_contra hne
    exact hclique hrow hother hne heq
  have hheaviest : toLex (∑ row ∈ rows, weightOf row) ≤
      toLex (∑ row ∈ rows, matrix.heaviestOf weightOf (matrix.componentOf row)) :=
    Finset.sum_le_sum fun row _ ↦ toLex_le_heaviestOf row
  have hcomponents : ∑ component ∈ rows.image matrix.componentOf, matrix.heaviestOf weightOf component ≤
      ∑ component, matrix.heaviestOf weightOf component := by
    intro index
    rw [Finset.sum_apply, Finset.sum_apply]
    exact Finset.sum_le_sum_of_subset (Finset.subset_univ _)
  rw [Finset.sum_image hinjective] at hcomponents
  exact hheaviest.trans (Amount.toLex_le hcomponents)

/-- Every active row weighs what the cheapest of its columns costs, in whole numbers, and the weights
add up without rounding. -/
structure RowsWeigh (matrix : Matrix κ) (weightOf : Nat → Amount κ) : Prop where
  cheapest : ∀ row, matrix.isActive (.row row) = true → ∃ column ∈ matrix.columnsOf row,
    Cost.components (matrix.costOf column) =
      List.ofFn (fun index ↦ Float.ofNat (weightOf row index)) ∧
    ∀ other ∈ matrix.columnsOf row, matrix.costOf column ≤ matrix.costOf other
  fits : (Amount.total weightOf matrix.activeRows.toFinset).Fits

variable [LawfulCost κ]

theorem RowsWeigh.stands (h : matrix.RowsWeigh weightOf) (hmatrix : matrix.Linked) {row column : Nat}
    (hrow : matrix.isActive (.row row) = true) (hcolumn : column ∈ matrix.columnsOf row)
    (hleast : ∀ other ∈ matrix.columnsOf row, matrix.costOf column ≤ matrix.costOf other) :
    Stands (matrix.costOf column) (weightOf row) where
  components := by
    obtain ⟨cheapest, hcheapest, hcomponents, hcheaper⟩ := h.cheapest row hrow
    have hcosts : matrix.costOf column = matrix.costOf cheapest :=
      LawfulCost.le_antisymm (hleast cheapest hcheapest) (hcheaper column hcolumn)
    rw [hcosts, hcomponents]
  fits := by
    apply h.fits.of_le
    rw [← Finset.sum_singleton weightOf row, ← Amount.total]
    exact Amount.total_le_of_subset (Finset.singleton_subset_iff.mpr
      (List.mem_toFinset.mpr (hmatrix.mem_active.mp hrow)))

/-- The clique is made of one of the heaviest rows of every component. -/
theorem RowsWeigh.exists_picked (h : matrix.RowsWeigh weightOf) (hmatrix : matrix.Linked)
    (hsettled : matrix.Settled) : ∃ (clique : Clique κ) (picked : List matrix.ActiveRow),
      matrix.disjointRows = .ok clique ∧
      clique.picks.map (fun pick ↦ matrix.activeRows[pick.node]?) =
        picked.map (fun row ↦ some row.val) ∧
      (picked.map matrix.componentOf).Nodup ∧
      (∀ component, component ∈ picked.map matrix.componentOf) ∧
      (∀ row ∈ picked, matrix.heaviestOf weightOf (matrix.componentOf row) = weightOf row) ∧
      Stands clique.cost (picked.map fun row ↦ weightOf row.val).sum := by
  obtain ⟨cheapestOf, hcheapest, hclique⟩ := hmatrix.exists_disjointRows hsettled
  have hstands (row : Nat) (hrow : row ∈ matrix.activeRows) :
      Stands (matrix.costOf (cheapestOf row)) (weightOf row) :=
    h.stands hmatrix (hmatrix.mem_active.mpr hrow) (hcheapest row hrow).1 (hcheapest row hrow).2
  have hfits : Amount.Fits (matrix.activeRows.map weightOf).sum := by
    have hnodup : matrix.activeRows.Nodup := (hmatrix.lines .row).nodup_active
    rw [← Amount.total_toFinset hnodup]
    exact h.fits
  obtain ⟨rows, hpicks, hpairs, hgroups, hcost⟩ := Graph.exists_picked matrix.activeRows
    (fun row ↦ matrix.costOf (cheapestOf row)) matrix.groups.root
  have hheaviest := Graph.le_of_picked hpicks hstands hfits
  have hsubset := Graph.subset_of_picked hpicks
  have hnodup : rows.Nodup := hpairs.imp fun hne heq ↦ hne (congrArg matrix.groups.root heq)
  have hweight : Stands (Cost.sumFrom Cost.zero (rows.map fun row ↦ matrix.costOf (cheapestOf row)))
      (rows.map weightOf).sum := by
    apply stands_sum fun row hrow ↦ (hstands row (hsubset hrow)).adds
    rw [← Amount.total_toFinset hnodup]
    refine h.fits.of_le (Amount.total_le_of_subset fun row hrow ↦ ?_)
    exact List.mem_toFinset.mpr (hsubset (List.mem_toFinset.mp hrow))
  lift rows to List matrix.ActiveRow using fun row hrow ↦ hsubset hrow
  refine ⟨_, rows, hclique, ?_, ?_, fun component ↦ ?_, fun row hrow ↦ ?_, ?_⟩
  · rw [hpicks, List.map_map]
    rfl
  · rw [List.pairwise_map] at hpairs
    exact List.pairwise_map.mpr (hpairs.imp fun hne ↦ mt hmatrix.root_groups_eq_iff.mpr hne)
  · induction component using SimpleGraph.ConnectedComponent.ind with
    | h row =>
      obtain ⟨picked, hpicked, hroot⟩ := hgroups row row.property
      obtain ⟨pickedRow, hmem, rfl⟩ := List.mem_map.mp hpicked
      exact List.mem_map.mpr ⟨pickedRow, hmem, hmatrix.root_groups_eq_iff.mp hroot⟩
  · apply heaviestOf_eq
    intro other hother
    exact hheaviest row (List.mem_map_of_mem hrow) other other.property
      (hmatrix.root_groups_eq_iff.mpr hother)
  · rwa [← hcost, List.map_map] at hweight

end Weights

end Matrix

namespace Workbench

open SetCover.Matrix

variable {κ : Type} [Cost κ] {matrix : Matrix κ}

theorem reaches_lowerBound (h : matrix.Linked) {clique : Clique κ}
    (hclique : matrix.disjointRows = .ok clique) :
    Reaches lowerBound matrix id clique.cost matrix := by
  apply Reaches.table
  split
  · rename_i hempty
    have hzero : matrix.disjointRows = .ok ⟨[], Cost.zero⟩ := by
      rw [disjointRows, h.isEmpty_iff.mp hempty]
      rfl
    rw [hclique] at hzero
    rw [Except.ok.inj hzero]
    exact .pure Cost.zero
  · rw [hclique]
    exact (Reaches.report _).map fun _ ↦ clique.cost

/-- On every reachable table whose rows weigh whole numbers that add up without rounding, the lower
bound is the sum over all components of what the heaviest row weighs in the lexicographic order, and zero
if there is no row.  The greedy clique has exactly one row of every component, and no clique of rows of
different components weighs more. -/
theorem lowerBound_of_reachable [LawfulCost κ] (h : matrix.Reachable) {weightOf : Nat → Amount κ}
    (hweights : matrix.RowsWeigh weightOf) :
    ∃ (clique : Clique κ) (picked : List matrix.ActiveRow),
      Reaches lowerBound matrix id clique.cost matrix ∧
      Stands clique.cost (∑ component, matrix.heaviestOf weightOf component) ∧
      (matrix.activeRows = [] → clique.cost = Cost.zero) ∧
      matrix.disjointRows = .ok clique ∧
      clique.picks.map (fun pick ↦ matrix.activeRows[pick.node]?) =
        picked.map (fun row ↦ some row.val) ∧
      picked.Nodup ∧
      SimpleGraph.ConnectedComponent.Represents {row | row ∈ picked}
        (Set.univ : Set matrix.Component) ∧
      (matrix.apartGraph.IsClique {row | row ∈ picked} ∧
        ∀ rows : Finset matrix.ActiveRow, matrix.apartGraph.IsClique rows →
          toLex (∑ row ∈ rows, weightOf row) ≤ toLex (∑ row ∈ picked.toFinset, weightOf row)) := by
  classical
  obtain ⟨hlinked, hsettled⟩ : matrix.Linked ∧ matrix.Settled := ⟨h.intact.linked, h.intact.settled⟩
  obtain ⟨clique, picked, hclique, hpicks, hnodup, hall, hheaviest, hstands⟩ :=
    hweights.exists_picked hlinked hsettled
  have hpicked : picked.Nodup := hnodup.of_map matrix.componentOf
  have hcomponents : (picked.map matrix.componentOf).toFinset = Finset.univ :=
    Finset.eq_univ_of_forall fun component ↦ List.mem_toFinset.mpr (hall component)
  have hsum : ∑ component, matrix.heaviestOf weightOf component =
      (picked.map fun row ↦ weightOf row.val).sum := by
    rw [← hcomponents, List.sum_toFinset _ hnodup, List.map_map]
    exact congrArg List.sum (List.map_congr_left hheaviest)
  have hrepresents : SimpleGraph.ConnectedComponent.Represents {row | row ∈ picked}
      (Set.univ : Set matrix.Component) := by
    refine ⟨fun _ _ ↦ trivial, fun row hrow other hother heq ↦ ?_, fun component _ ↦ ?_⟩
    · exact List.inj_on_of_nodup_map hnodup hrow hother heq
    · exact List.mem_map.mp (hall component)
  refine ⟨clique, picked, reaches_lowerBound hlinked hclique, hsum ▸ hstands, fun hnone ↦ ?_, hclique,
    hpicks, hpicked, hrepresents, fun row hrow other hother hne heq ↦ ?_, fun rows hrows ↦ ?_⟩
  · have hempty : picked = [] := by
      apply List.eq_nil_iff_forall_not_mem.mpr
      rintro ⟨row, hrow⟩ -
      rw [hnone] at hrow
      cases hrow
    rw [hempty] at hstands
    exact hstands.unique stands_zero
  · exact hne (hrepresents.injOn hrow hother heq)
  · rw [List.sum_toFinset _ hpicked, ← hsum]
    exact toLex_sum_le_of_isClique hrows

/-- A cycle of three rows is one component, and two rows with a common column are the other one; the row
that joined them is deleted behind a marker.  In the cycle the first row weighs most, in the pair the row
that lacks the cheaper column does. -/
theorem lowerBound_of_reachable_pairs :
    let bench := Operation.afterAll [.insert 0 0, .insert 0 1, .insert 1 1, .insert 1 2, .insert 2 0,
      .insert 2 2, .insert 3 3, .insert 3 4, .insert 4 3, .insert 4 0, .insert 5 3, .setCost 0 1 2.0,
      .setCost 1 0 2.0, .setCost 2 1 1.0, .setCost 3 0 0.0, .setCost 4 0 0.0, .setCost 3 1 5.0,
      .setCost 4 1 3.0, .backup, .delete (.row 4)] (Workbench.blank PairCost 6 5 false)
    let weightOf : Nat → Amount PairCost := fun row (index : Fin 2) ↦
      ([[1, 1, 1, 0, 0, 0], [2, 1, 1, 3, 0, 5]].getD index []).getD row 0
    bench.matrix.activeRows = [0, 1, 2, 3, 5] ∧
      ∃ (clique : Clique PairCost) (picked : List bench.matrix.ActiveRow),
        Reaches lowerBound bench.matrix id clique.cost bench.matrix ∧
        Stands clique.cost (∑ component, bench.matrix.heaviestOf weightOf component) ∧
        clique.picks.map (fun pick ↦ bench.matrix.activeRows[pick.node]?) =
          picked.map (fun row ↦ some row.val) ∧
        SimpleGraph.ConnectedComponent.Represents {row | row ∈ picked}
          (Set.univ : Set bench.matrix.Component) := by
  intro bench weightOf
  have hreachable : bench.matrix.Reachable := reachable_afterAll_blank 6 5 false _
  have hactive : bench.matrix.activeRows = [0, 1, 2, 3, 5] := by
    decide +kernel
  have hweights : bench.matrix.RowsWeigh weightOf := by
    have hcheapest : ∀ row ∈ [0, 1, 2, 3, 5], ∃ column ∈ bench.matrix.columnsOf row,
        Cost.components (bench.matrix.costOf column) =
          [Float.ofNat ([1, 1, 1, 0, 0, 0].getD row 0), Float.ofNat ([2, 1, 1, 3, 0, 5].getD row 0)] ∧
        ∀ other ∈ bench.matrix.columnsOf row,
          bench.matrix.costOf column ≤ bench.matrix.costOf other := by
      decide +kernel
    clear_value bench
    refine ⟨fun row hrow ↦ hcheapest row ?_, ?_⟩
    · rw [← hactive]
      exact hreachable.intact.linked.mem_active.mp hrow
    · rw [hactive]
      unfold Amount.Fits
      decide +kernel
  obtain ⟨clique, picked, hreaches, hstands, -, -, hpicks, -, hrepresents, -⟩ :=
    lowerBound_of_reachable hreachable hweights
  exact ⟨hactive, clique, picked, hreaches, hstands, hpicks, hrepresents⟩

end Workbench

end SetCover

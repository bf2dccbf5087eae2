import SetCover.Proofs.Graph.Assembly
import SetCover.Proofs.Partition
import SetCover.Proofs.Search.Completion

/-!
# The lower bound holds

Rows with a common column are in one group, so rows of different groups need different columns.  Every
cover contains a column of each of them, none twice, and none of these columns is cheaper than the
cheapest one of its row.
-/

namespace SetCover

variable {κ : Type}

namespace Matrix

variable {matrix : Matrix κ} {row other column : Nat}

/-! ## Groups -/

theorem coarser_groups {columns : List Nat} {partition : Partition} (h : partition.Ranked)
    (hrows : ∀ column ∈ columns, ∀ row ∈ matrix.rowsOf column, row < partition.size) :
    let merged := columns.foldl (fun partition column ↦ partition.uniteAll (matrix.rowsOf column))
      partition
    partition.Coarser merged ∧ ∀ column ∈ columns, ∀ row ∈ matrix.rowsOf column,
      ∀ other ∈ matrix.rowsOf column, merged.root row = merged.root other := by
  induction columns generalizing partition with
  | nil => exact ⟨h.coarser, by simp⟩
  | cons first rest ih =>
    have hfirst := hrows first (by simp)
    obtain ⟨hunited, hjoined⟩ := h.coarser_uniteAll hfirst
    obtain ⟨hcoarser, hrest⟩ := ih hunited.ranked fun column hcolumn row hrow ↦
      hunited.size_eq ▸ hrows column (by simp [hcolumn]) row hrow
    refine ⟨hunited.trans hcoarser, fun column hcolumn row hrow other hother ↦ ?_⟩
    rcases List.mem_cons.mp hcolumn with rfl | hcolumn
    · apply hcoarser.root_eq
      · exact hunited.size_eq ▸ hfirst row hrow
      · exact hunited.size_eq ▸ hfirst other hother
      · exact hjoined row hrow other hother
    · exact hrest column hcolumn row hrow other hother

/-- The rows of active columns are elements of the partition from which the groups are made. -/
theorem Linked.lt_size_of_mem_rowsOf (h : matrix.Linked) :
    ∀ column ∈ matrix.activeColumns, ∀ row ∈ matrix.rowsOf column,
      row < (Partition.singletons matrix.rowSize).size := by
  intro column hcolumn row hrow
  rw [Partition.size_singletons]
  exact h.inRange_of_isActive ((h.mem_rowsOf_iff (h.mem_active.mpr hcolumn)).mp hrow).2

theorem Linked.size_groups (h : matrix.Linked) : matrix.groups.size = matrix.rowSize := by
  have hranked := Partition.ranked_singletons matrix.rowSize
  exact (coarser_groups hranked h.lt_size_of_mem_rowsOf).1.size_eq.trans
    (Partition.size_singletons matrix.rowSize)

/-- Rows with a common column are in one group. -/
theorem Linked.root_groups_eq (h : matrix.Linked)
    (hcolumn : matrix.isActive (.column column) = true) (hrow : row ∈ matrix.rowsOf column)
    (hother : other ∈ matrix.rowsOf column) : matrix.groups.root row = matrix.groups.root other := by
  have hranked := Partition.ranked_singletons matrix.rowSize
  exact (coarser_groups hranked h.lt_size_of_mem_rowsOf).2 column (h.mem_active.mp hcolumn) row hrow
    other hother

/-! ## Rows of different groups -/

section Cheapest

variable [Cost κ]

/-- Active rows of different groups, each with one of its cheapest columns. -/
structure Apart (matrix : Matrix κ) (rows : List Nat) (cheapestOf : Nat → Nat) : Prop where
  active : ∀ row ∈ rows, matrix.isActive (.row row) = true
  pairwise : rows.Pairwise fun row other ↦ matrix.groups.root row ≠ matrix.groups.root other
  mem_columnsOf : ∀ row ∈ rows, cheapestOf row ∈ matrix.columnsOf row
  least : ∀ row ∈ rows, ∀ column ∈ matrix.columnsOf row,
    matrix.costOf (cheapestOf row) ≤ matrix.costOf column

/-- The bound is the cost of the cheapest columns of rows of different groups. -/
theorem Linked.exists_apart (h : matrix.Linked) (hsettled : matrix.Settled) :
    ∃ clique rows cheapestOf, matrix.disjointRows = .ok clique ∧ matrix.Apart rows cheapestOf ∧
      clique.cost = Cost.sumFrom Cost.zero (rows.map fun row ↦ matrix.costOf (cheapestOf row)) := by
  obtain ⟨cheapestOf, hcheapest, hclique⟩ := h.exists_disjointRows hsettled
  obtain ⟨rows, hpicks, hpairs, -, hcost⟩ := Graph.exists_picked matrix.activeRows
    (fun row ↦ matrix.costOf (cheapestOf row)) matrix.groups.root
  have hsubset := Graph.subset_of_picked hpicks
  refine ⟨_, rows, cheapestOf, hclique, ⟨fun row hrow ↦ ?_, hpairs, fun row hrow ↦ ?_,
    fun row hrow ↦ ?_⟩, hcost⟩
  · exact h.mem_active.mpr (hsubset hrow)
  · exact (hcheapest row (hsubset hrow)).1
  · exact (hcheapest row (hsubset hrow)).2

/-- The graph of the bound is assembled without a refusal, and its clique grows to the end, with a row
of every group. -/
theorem Linked.exists_pick (h : matrix.Linked) (hsettled : matrix.Settled) :
    ∃ costs graph, matrix.activeRows.mapM matrix.cheapest = .ok costs ∧
      Graph.assemble costs (matrix.activeRows.map matrix.groups.root) = .ok graph ∧
      matrix.disjointRows = .ok graph.solve.1 ∧ graph.Grown graph.solve.1 ∧
      ∀ row ∈ matrix.activeRows, ∃ pick ∈ graph.solve.1.picks, ∃ picked,
        matrix.activeRows[pick.node]? = some picked ∧
          matrix.groups.root picked = matrix.groups.root row := by
  obtain ⟨cheapestOf, -, hcosts⟩ := h.exists_cheapestOf hsettled
  obtain ⟨rows, hpicks, -, hgroups, -⟩ := Graph.exists_picked matrix.activeRows
    (fun row ↦ matrix.costOf (cheapestOf row)) matrix.groups.root
  have hlength : (matrix.activeRows.map fun row ↦ matrix.costOf (cheapestOf row)).length =
      (matrix.activeRows.map matrix.groups.root).length := by
    rw [List.length_map, List.length_map]
  obtain ⟨graph, hgraph, hsolve, hgrown⟩ := Graph.exists_assemble hlength
  refine ⟨_, graph, hcosts, hgraph, ?_, hgrown, fun row hrow ↦ ?_⟩
  · rw [disjointRows, hcosts, hsolve]
    rfl
  · obtain ⟨picked, hpicked, hgroup⟩ := hgroups row hrow
    obtain ⟨pick, hpick, hplace⟩ := Graph.exists_pick_of_picked hpicks hpicked
    rw [hsolve]
    exact ⟨pick, hpick, picked, hplace, hgroup⟩

/-! ## Bounding covers -/

section Covers

variable {amountOf : Nat → Amount κ} {rows : List Nat} {columnOf cheapestOf : Nat → Nat}

omit [Cost κ] in
/-- Rows of different groups have different columns. -/
theorem Linked.nodup_of_groups (h : matrix.Linked)
    (hactive : ∀ row ∈ rows, matrix.isActive (.row row) = true)
    (hpairs : rows.Pairwise fun row other ↦ matrix.groups.root row ≠ matrix.groups.root other)
    (hcolumns : ∀ row ∈ rows, columnOf row ∈ matrix.columnsOf row) : (rows.map columnOf).Nodup := by
  rw [List.Nodup, List.pairwise_map]
  refine hpairs.imp_of_mem fun {row other} hrow hother hne heq ↦ hne ?_
  have hcolumn := (h.mem_columnsOf_iff (hactive row hrow)).mp (hcolumns row hrow)
  have hsame := (h.mem_columnsOf_iff (hactive other hother)).mp (heq ▸ hcolumns other hother)
  exact h.root_groups_eq hcolumn.2 ((h.mem_rowsOf_iff hcolumn.2).mpr ⟨hcolumn.1, hactive row hrow⟩)
    ((h.mem_rowsOf_iff hcolumn.2).mpr ⟨hsame.1, hactive other hother⟩)

/-- The costs of the active columns stand for amounts that fit together. -/
structure Priced (matrix : Matrix κ) (amountOf : Nat → Amount κ) : Prop where
  stands : ∀ column, matrix.isActive (.column column) = true →
    Stands (matrix.costOf column) (amountOf column)
  fits : (Amount.total amountOf matrix.columnSet).Fits

/-- The costs may be looked up in a list of the active columns. -/
theorem Linked.priced_of_activeColumns (h : matrix.Linked) {columns : List Nat}
    (hactive : matrix.activeColumns = columns)
    (hcosts : ∀ column ∈ columns, Cost.components (matrix.costOf column) =
      List.ofFn fun index ↦ Float.ofNat (amountOf column index))
    (hfits : (Amount.total amountOf columns.toFinset).Fits) : matrix.Priced amountOf := by
  have hset : matrix.columnSet = columns.toFinset := by rw [columnSet, hactive]
  refine ⟨fun column hcolumn ↦ ⟨hcosts column ?_, hfits.of_le ?_⟩, hset ▸ hfits⟩
  · rw [← hactive]
    exact h.mem_active.mp hcolumn
  · rw [← hset, ← Finset.sum_singleton amountOf column, ← Amount.total]
    exact Amount.total_le_of_subset (Finset.singleton_subset_iff.mpr (h.mem_columnSet.mpr hcolumn))

/-- The cost stands for an amount that no cover stays below. -/
def Bounds (matrix : Matrix κ) (amountOf : Nat → Amount κ) (bound : κ) : Prop :=
  ∃ amount, Stands bound amount ∧ amount ≤ Amount.total amountOf matrix.columnSet ∧
    ∀ columns, matrix.Covers columns → toLex amount ≤ toLex (Amount.total amountOf columns)

theorem bounds_zero [LawfulCost κ] : matrix.Bounds amountOf Cost.zero :=
  ⟨0, stands_zero, fun _ ↦ Nat.zero_le _, fun _ _ ↦ Amount.toLex_le fun _ ↦ Nat.zero_le _⟩

theorem Apart.bounds [LawfulCost κ] (hapart : matrix.Apart rows cheapestOf) (h : matrix.Linked)
    (hadds : ∀ column, matrix.isActive (.column column) = true →
      Adds (matrix.costOf column) (amountOf column))
    (hordered : matrix.Ordered amountOf)
    (hfits : (Amount.total amountOf matrix.columnSet).Fits) : matrix.Bounds amountOf
      (Cost.sumFrom Cost.zero (rows.map fun row ↦ matrix.costOf (cheapestOf row))) := by
  have hactive : ∀ row ∈ rows, matrix.isActive (.column (cheapestOf row)) = true := fun row hrow ↦
    ((h.mem_columnsOf_iff (hapart.active row hrow)).mp (hapart.mem_columnsOf row hrow)).2
  have hnodup := h.nodup_of_groups hapart.active hapart.pairwise hapart.mem_columnsOf
  have htotal : (rows.map fun row ↦ amountOf (cheapestOf row)).sum =
      Amount.total amountOf (rows.map cheapestOf).toFinset := by
    rw [Amount.total_toFinset hnodup, List.map_map]
    rfl
  have hsubset : (rows.map cheapestOf).toFinset ⊆ matrix.columnSet := fun column hcolumn ↦ by
    obtain ⟨row, hrow, rfl⟩ := List.mem_map.mp (List.mem_toFinset.mp hcolumn)
    exact h.mem_columnSet.mpr (hactive row hrow)
  have hle := @Amount.total_le_of_subset _ _ amountOf _ _ hsubset
  refine ⟨Amount.total amountOf (rows.map cheapestOf).toFinset, ?_, hle, fun columns hcovers ↦ ?_⟩
  · rw [← htotal] at hle ⊢
    exact stands_sum (fun row hrow ↦ hadds _ (hactive row hrow)) (hfits.of_le hle)
  · choose! columnOf hmem hcrosses using hcovers.covered
    have hcolumns : ∀ row ∈ rows, columnOf row ∈ matrix.columnsOf row := fun row hrow ↦
      (h.mem_columnsOf_iff (hapart.active row hrow)).mpr ⟨hcrosses row (hapart.active row hrow),
        hcovers.active _ (hmem row (hapart.active row hrow))⟩
    have hcovering := h.nodup_of_groups hapart.active hapart.pairwise hcolumns
    have hcheaper : toLex (rows.map fun row ↦ amountOf (cheapestOf row)).sum ≤
        toLex (rows.map fun row ↦ amountOf (columnOf row)).sum := by
      apply Amount.toLex_sum_le
      intro row hrow
      have hcovering := ((h.mem_columnsOf_iff (hapart.active row hrow)).mp (hcolumns row hrow)).2
      exact hordered _ _ (hactive row hrow) hcovering (hapart.least row hrow _ (hcolumns row hrow))
    calc toLex (Amount.total amountOf (rows.map cheapestOf).toFinset)
        = toLex (rows.map fun row ↦ amountOf (cheapestOf row)).sum := by rw [htotal]
      _ ≤ toLex (rows.map fun row ↦ amountOf (columnOf row)).sum := hcheaper
      _ = toLex (Amount.total amountOf (rows.map columnOf).toFinset) := by
        rw [Amount.total_toFinset hcovering, List.map_map]
        rfl
      _ ≤ toLex (Amount.total amountOf columns) := by
        apply Amount.toLex_le
        apply Amount.total_le_of_subset
        intro column hcolumn
        obtain ⟨row, hrow, rfl⟩ := List.mem_map.mp (List.mem_toFinset.mp hcolumn)
        exact hmem row (hapart.active row hrow)

end Covers

end Cheapest

end Matrix

namespace Workbench

open SetCover.Matrix

variable [Cost κ] [LawfulCost κ] {matrix : Matrix κ} {amountOf : Nat → Amount κ}

theorem bounds_lowerBound_of_ordered (h : matrix.Linked) (hsettled : matrix.Settled)
    (hadds : ∀ column, matrix.isActive (.column column) = true →
      Adds (matrix.costOf column) (amountOf column))
    (hordered : matrix.Ordered amountOf)
    (hfits : (Amount.total amountOf matrix.columnSet).Fits) :
    Completes lowerBound matrix (matrix.Bounds amountOf) := by
  apply Yields.table
  split
  · exact Yields.pure bounds_zero
  · obtain ⟨clique, rows, cheapestOf, hclique, hapart, hcost⟩ := h.exists_apart hsettled
    rw [hclique]
    apply Yields.report
    apply Yields.pure
    rw [hcost]
    exact hapart.bounds h hadds hordered hfits

/-- No cover is cheaper than the lower bound. -/
theorem bounds_lowerBound (h : matrix.Linked) (hsettled : matrix.Settled)
    (hpriced : matrix.Priced amountOf) :
    Completes lowerBound matrix (matrix.Bounds amountOf) :=
  bounds_lowerBound_of_ordered h hsettled (fun column hcolumn ↦ (hpriced.stands column hcolumn).adds)
    (ordered_of_stands hpriced.stands) hpriced.fits

end Workbench

end SetCover

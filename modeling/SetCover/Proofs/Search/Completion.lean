import SetCover.Proofs.Search.Branching

/-!
# Searches come to an end and leave the table as it is

Every node of a search works between a marker and its restoration, and all that it does in between is
to delete lines.  So the table comes back as it was.  No active line has lost all its cells, so every
active row has a cheapest column, a node with rows has a column to branch on, and every branch takes a
column away, so the levels suffice.  A search without an incumbent finds a cover.
-/

namespace SetCover

namespace Matrix

variable {κ : Type} {matrix : Matrix κ}

/-! ## Cheapest columns -/

theorem mapM_ok {α β : Type} {entry : α → Except Fault β} {valueOf : α → β} {elements : List α}
    (h : ∀ element ∈ elements, entry element = .ok (valueOf element)) :
    elements.mapM entry = .ok (elements.map valueOf) := by
  induction elements with
  | nil => rfl
  | cons first rest ih =>
    rw [List.mapM_cons, h first (by simp), ih fun element hmem ↦ h element (by simp [hmem])]
    rfl

/-- A row with columns has a cheapest one. -/
theorem exists_cheapest [Cost κ] {row : Nat} (hcolumns : ∃ column, column ∈ matrix.columnsOf row) :
    ∃ column ∈ matrix.columnsOf row, matrix.cheapest row = .ok (matrix.costOf column) ∧
      ∀ other ∈ matrix.columnsOf row, matrix.costOf column ≤ matrix.costOf other := by
  have hpreorder : Std.IsLinearPreorder κ := .of_ord
  obtain ⟨first, hfirst⟩ := hcolumns
  have hsome : (matrix.cheapest? row).isSome :=
    List.isSome_minOn?_of_mem (List.mem_map_of_mem hfirst)
  obtain ⟨cost, hcost⟩ := Option.isSome_iff_exists.mp hsome
  obtain ⟨column, hcolumn, rfl⟩ := List.mem_map.mp (List.minOn?_mem hcost)
  refine ⟨column, hcolumn, by rw [cheapest, hcost], fun other hother ↦ ?_⟩
  have hmem : matrix.costOf other ∈ (matrix.columnsOf row).map matrix.costOf :=
    List.mem_map_of_mem hother
  have hle := @List.apply_get_minOn?_le_of_mem κ κ _ _ _ id _ _ hmem
  rw [cheapest?] at hcost
  simpa only [hcost, Option.get_some, id] using hle

/-- Every active row has a cheapest column. -/
theorem Linked.exists_cheapestOf [Cost κ] (h : matrix.Linked) (hsettled : matrix.Settled) :
    ∃ cheapestOf : Nat → Nat, (∀ row ∈ matrix.activeRows, cheapestOf row ∈ matrix.columnsOf row ∧
        ∀ column ∈ matrix.columnsOf row, matrix.costOf (cheapestOf row) ≤ matrix.costOf column) ∧
      matrix.activeRows.mapM matrix.cheapest =
        .ok (matrix.activeRows.map fun row ↦ matrix.costOf (cheapestOf row)) := by
  have hexists : ∀ row ∈ matrix.activeRows, ∃ column ∈ matrix.columnsOf row,
      matrix.cheapest row = .ok (matrix.costOf column) ∧
        ∀ other ∈ matrix.columnsOf row, matrix.costOf column ≤ matrix.costOf other :=
    fun row hrow ↦ exists_cheapest (h.exists_mem_columnsOf hsettled (h.mem_active.mpr hrow))
  choose! cheapestOf hmem hcost hleast using hexists
  exact ⟨cheapestOf, fun row hrow ↦ ⟨hmem row hrow, hleast row hrow⟩, mapM_ok hcost⟩

/-- The bound is computed from a cheapest column of every active row. -/
theorem Linked.exists_disjointRows [Cost κ] (h : matrix.Linked) (hsettled : matrix.Settled) :
    ∃ cheapestOf : Nat → Nat, (∀ row ∈ matrix.activeRows, cheapestOf row ∈ matrix.columnsOf row ∧
        ∀ column ∈ matrix.columnsOf row, matrix.costOf (cheapestOf row) ≤ matrix.costOf column) ∧
      matrix.disjointRows =
        .ok (Graph.multipartite (matrix.activeRows.map fun row ↦ matrix.costOf (cheapestOf row))
          (matrix.activeRows.map matrix.groups.root)).clique := by
  obtain ⟨cheapestOf, hcheapest, hcosts⟩ := h.exists_cheapestOf hsettled
  refine ⟨cheapestOf, hcheapest, ?_⟩
  rw [disjointRows, hcosts]
  rfl

end Matrix

namespace Workbench

open SetCover.Matrix

variable {κ : Type} [Cost κ] {matrix : Matrix κ}

theorem completes_lowerBound (h : matrix.Linked) (hsettled : matrix.Settled) :
    Completes lowerBound matrix fun _ ↦ True := by
  apply Yields.table
  split
  · exact Yields.pure trivial
  · split
    · rename_i fault hfault
      obtain ⟨_, -, hclique⟩ := h.exists_disjointRows hsettled
      cases hfault.symm.trans hclique
    · exact Yields.report (Yields.pure trivial)

/-- Without an incumbent nothing is cut off. -/
theorem completes_isCutOff (config : Config) (h : matrix.Linked) (hsettled : matrix.Settled) (cost : κ)
    (best : Option κ) (depth : Nat) :
    Completes (isCutOff config cost best depth) matrix fun cut ↦ best = none → cut = false := by
  unfold isCutOff
  split
  · apply (completes_lowerBound h hsettled).bind
    intro bound _
    dsimp only
    split
    · exact Yields.pure fun _ ↦ rfl
    · rename_i himproves
      refine Yields.note (Yields.count (Yields.pure fun hbest ↦ absurd ?_ himproves))
      rw [hbest]
      rfl
  · exact Yields.pure fun _ ↦ rfl

theorem completes_closeLeaf (cost : κ) (chosen : List Nat) (best : Option κ) (depth : Nat) :
    Completes (closeLeaf cost chosen best depth) matrix fun found ↦ best = none → found.isSome := by
  apply Yields.count
  split
  · exact Yields.note (Yields.pure fun _ ↦ rfl)
  · rename_i himproves
    refine Yields.pure fun hbest ↦ absurd ?_ himproves
    rw [hbest]
    rfl

theorem completes_branch {explore : κ → Option κ → Work κ (Option (Cover κ))} (h : matrix.Linked)
    (hsettled : matrix.Settled) (hempty : ¬matrix.isEmpty = true)
    (hexplore : ∀ (next : Matrix κ) cost best, next.Linked → next.Settled →
      next.activeColumns.length < matrix.activeColumns.length →
      Completes (explore cost best) next fun found ↦ best = none → found.isSome)
    (cost : κ) (chosen : List Nat) (best : Option κ) (depth : Nat) :
    Completes (branch explore cost chosen best depth) matrix fun found ↦
      best = none → found.isSome := by
  obtain ⟨column, hfirst⟩ := h.exists_first? hsettled hempty
  have hactive := h.isActive_of_first? hfirst
  have hexplored {later : Matrix κ} (hdeletes : Deletes matrix.backup later)
      (hgone : later.isActive (.column column) = false) (cost : κ) (best : Option κ) :
      Completes (explore cost best) later fun found ↦ best = none → found.isSome := by
    obtain ⟨hremoves, hlater⟩ := hdeletes.removes h.backup hsettled
    exact hexplore later cost best (hremoves.linked h.backup) hlater
      (hremoves.length_active_lt h.backup hactive hgone)
  refine Yields.branch h hsettled hfirst
    (hexplored (allDeleted_selected h.backup hsettled hactive).2.deletes
      (isActive_column_selected h.backup hsettled hactive) _ _)
    (fun _ found hfound hbest ↦ ?_) fun _ found hfound ↦ ?_
  · rw [Option.isSome_map]
    exact hfound hbest
  · refine (hexplored (.delete .refl hactive) (isActive_deleted_self h.backup hsettled hactive)
      _ _).imp fun deleted _ hbest ↦ ?_
    obtain ⟨cover, rfl⟩ := Option.isSome_iff_exists.mp (hfound hbest)
    cases deleted <;> rfl

theorem completes_searchWithin (config : Config) {levels : Nat} (h : matrix.Linked)
    (hsettled : matrix.Settled) (hlevels : matrix.activeColumns.length < levels) (base : κ)
    (best : Option κ) (depth : Nat) :
    Completes (searchWithin config levels base best depth) matrix fun found ↦
      best = none → found.isSome := by
  induction levels generalizing matrix base best depth with
  | zero => exact absurd hlevels (Nat.not_lt_zero _)
  | succ levels ih =>
    have hnext {chosen : List Nat} {next : Matrix κ} (hreduces : Reduces matrix.backup chosen next) :
        next.Linked ∧ next.Settled :=
      ⟨hreduces.linked h.backup hsettled, hreduces.settled h.backup hsettled⟩
    refine Yields.searchWithin h (ends_reduce_removes config h.backup hsettled)
      (fun _ _ _ _ ↦ completes_closeLeaf _ _ _ _) (fun _ _ hreduces _ ↦ ?_)
      fun chosen next hreduces hempty ↦ ?_
    · apply (completes_isCutOff config (hnext hreduces).1 (hnext hreduces).2 _ best depth).imp
      intro cut hcut htrue hbest
      exact absurd htrue (by simp [hcut hbest])
    · have hfewer : next.activeColumns.length ≤ matrix.activeColumns.length :=
        ((hreduces.deletes h.backup hsettled).removes h.backup hsettled).1.length_active_le
          h.backup .column
      exact completes_branch (hnext hreduces).1 (hnext hreduces).2 hempty
        (fun later cost best hlater hsettled hless ↦ ih hlater hsettled (by omega) cost best _) _ _ _ _

theorem completes_search (config : Config) (h : matrix.Linked) (hsettled : matrix.Settled) (base : κ)
    (best : Option κ) (depth : Nat) :
    Completes (search config base best depth) matrix fun found ↦ best = none → found.isSome :=
  Yields.table (completes_searchWithin config h hsettled (Nat.lt_succ_self _) base best depth)

/-- Solving answers with the first row without cells or, if there is none, with a cover. -/
theorem completes_solve (config : Config) (h : matrix.Linked) (hsettled : matrix.Settled) :
    Completes (solve config) matrix fun answer ↦
      (∀ row, matrix.uncoverable? = some row → answer = .uncoverable row) ∧
        (matrix.uncoverable? = none → ∃ cover, answer = .cover cover) := by
  have hsearch := completes_search config h hsettled (Cost.zero : κ) none 0
  apply (Yields.solve hsearch fun hnone ↦ absurd (hnone rfl) (by simp)).imp
  intro answer hanswer
  refine ⟨fun row ↦ (hanswer.1 row).mp, fun hcovered ↦ ?_⟩
  cases answer with
  | cover cover => exact ⟨cover, rfl⟩
  | uncoverable row => cases hcovered.symm.trans ((hanswer.1 row).mpr rfl)

end Workbench

end SetCover

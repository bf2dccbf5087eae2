import SetCover.Proofs.Search.Determined
import SetCover.Proofs.Search.Optimality

/-!
# Bounds hide nothing

No cover of a table is cheaper than its lower bound.  So a node that is cut off would have found
nothing cheaper than the incumbent.  A search with bounds and one without them thus answer the same at
every node and go on with the same incumbent, and both find the same cover, column by column.
-/

namespace SetCover.Workbench

open SetCover.Matrix

variable {κ α : Type} [Cost κ] [LawfulCost κ] {matrix : Matrix κ} {amountOf : Nat → Amount κ} {cost : κ}
  {base : Amount κ} {best : Option κ} {limit : Limit κ} {selected : List Nat}
  {found : Option (Cover κ)}

/-! ## The bound of a table -/

/-- On a table with exact costs, the lower bound is at most the total cost of any columns that cover
the active rows. -/
theorem lowerBound_le_totalCost (h : matrix.Reachable) (hpriced : matrix.Priced amountOf)
    (stats : Stats) (journal : Journal κ) :
    ∃ bound, Calls.answer lowerBound ⟨matrix, stats, journal⟩ = .ok bound ∧
      ∀ columns : List Nat, columns.Nodup → matrix.Covers columns.toFinset →
        bound ≤ matrix.totalCost columns := by
  have hlinked := h.intact.linked
  obtain ⟨bound, hanswer, amount, hstands, -, hbounds⟩ :=
    (bounds_lowerBound hlinked h.intact.settled hpriced).exists_answer stats journal
  refine ⟨bound, hanswer, fun columns hnodup hcovers ↦ ?_⟩
  apply (hstands.le_iff (hpriced.stands_totalCost hlinked hnodup hcovers)).mpr
  exact hbounds columns.toFinset hcovers

/-- Three rows on a cycle are in one group and two more in another; the row that is deleted behind a
marker would have joined the groups. -/
theorem lowerBound_le_totalCost_pairs :
    let bench := Operation.afterAll [.insert 0 0, .insert 0 1, .insert 1 1, .insert 1 2, .insert 2 0,
      .insert 2 2, .insert 3 3, .insert 3 4, .insert 4 3, .insert 4 0, .insert 5 4, .setCost 0 1 2.0,
      .setCost 1 0 2.0, .setCost 2 1 1.0, .setCost 3 0 0.0, .setCost 4 0 0.0, .setCost 3 1 5.0,
      .setCost 4 1 3.0, .backup, .delete (.row 4)] (Workbench.blank PairCost 6 5 false)
    bench.matrix.Covers [0, 2, 4].toFinset ∧
      ∃ bound, Calls.answer lowerBound bench = .ok bound ∧ bound ≤ ⟨2.0, 6.0⟩ := by
  intro bench
  have hreachable : bench.matrix.Reachable := reachable_afterAll_blank 6 5 false _
  obtain ⟨hactive, hrows, hcosts, htotal, hcrossing⟩ :
      bench.matrix.activeColumns = [0, 1, 2, 3, 4] ∧ bench.matrix.activeRows = [0, 1, 2, 3, 5] ∧
      (∀ column ∈ [0, 1, 2, 3, 4], Cost.components (bench.matrix.costOf column) =
        [Float.ofNat ([1, 2, 1, 0, 0].getD column 0),
          Float.ofNat ([2, 0, 1, 5, 3].getD column 0)]) ∧
      bench.matrix.totalCost [0, 2, 4] = ⟨2.0, 6.0⟩ ∧
      ∀ row ∈ [0, 1, 2, 3, 5], ∃ column ∈ [0, 2, 4], column ∈ bench.matrix.columnsOf row := by
    decide +kernel
  clear_value bench
  have hlinked := hreachable.intact.linked
  have hpriced : bench.matrix.Priced fun column (index : Fin 2) ↦
      ([[1, 2, 1, 0, 0], [2, 0, 1, 5, 3]].getD index []).getD column 0 := by
    refine hlinked.priced_of_activeColumns hactive (fun column hcolumn ↦ hcosts column hcolumn) ?_
    unfold Amount.Fits
    decide +kernel
  have hcovers : bench.matrix.Covers [0, 2, 4].toFinset := by
    refine ⟨fun column hcolumn ↦ ?_, fun row hrow ↦ ?_⟩
    · apply hlinked.mem_columnSet.mp
      rw [columnSet, hactive]
      revert column
      decide
    · obtain ⟨column, hcolumn, hmem⟩ := hcrossing row (hrows ▸ hlinked.mem_active.mp hrow)
      exact ⟨column, List.mem_toFinset.mpr hcolumn, ((hlinked.mem_columnsOf_iff hrow).mp hmem).1⟩
  obtain ⟨bound, hbound, hleast⟩ :=
    lowerBound_le_totalCost hreachable hpriced bench.stats bench.journal
  exact ⟨hcovers, bound, hbound, htotal ▸ hleast [0, 2, 4] (by decide) hcovers⟩

/-! ## Searching with and without bounds -/

/-- With and without bounds, the call hands the table back and answers the same. -/
def Indifferent (explore : Bool → Work κ α) (matrix : Matrix κ) : Prop :=
  ∃ result, ∀ bounded, Completes (explore bounded) matrix (· = result)

omit [LawfulCost κ] in
theorem indifferent_closeLeaf (cost : κ) (selected : List Nat) (best : Option κ) (depth : Nat) :
    Indifferent (fun _ ↦ closeLeaf cost selected best depth) matrix := by
  refine ⟨if improves cost best then some ⟨cost, selected⟩ else none, fun _ ↦ Yields.count ?_⟩
  split
  · exact Yields.note (Yields.pure rfl)
  · exact Yields.pure rfl

omit [LawfulCost κ] in
/-- A node that finds something is not cut off. -/
theorem FindsAfter.eq_none (h : FindsAfter matrix amountOf base limit selected found)
    (hcut : Finds amountOf base limit matrix.Covers none) : none = found := by
  obtain ⟨rest, rfl, hrest⟩ := h
  cases rest with
  | none => rfl
  | some cover =>
    obtain ⟨hcheapest, hbelow⟩ := hrest
    exact absurd hbelow (hcut _ hcheapest.isEligible).not_gt

theorem completes_isCutOff_of_findsAfter (config : Config) (h : matrix.Node amountOf cost base)
    (hlimit : IsLimit best limit) (hfound : FindsAfter matrix amountOf base limit selected found)
    (depth : Nat) : Completes (isCutOff config cost best depth) matrix
      fun cut ↦ cut = true → none = found := by
  have hcut := (completes_isCutOff config h.linked h.settled cost best depth).and
    (yields_isCutOff (h.compared config) hlimit depth)
  apply hcut.imp
  intro cut hcut htrue
  exact hfound.eq_none (hcut.2 htrue)

/-- If the two subtrees answer the same with and without bounds, then so does the branch: the second
one starts with the same incumbent. -/
theorem indifferent_branch {config : Config}
    {explore : Bool → κ → Option κ → Work κ (Option (Cover κ))}
    (hexplores : ∀ bounded, Explores { config with lowerBound := bounded } (explore bounded) amountOf)
    (h : matrix.Node amountOf cost base) (hempty : ¬matrix.isEmpty = true)
    (hlimit : IsLimit best limit)
    (hsame : ∀ {next : Matrix κ} {cost base best limit}, next.Node amountOf cost base →
      IsLimit best limit → next.activeColumns.length < matrix.activeColumns.length →
        Indifferent (fun bounded ↦ explore bounded cost best) next) (depth : Nat) :
    Indifferent (fun bounded ↦ branch (explore bounded) cost selected best depth) matrix := by
  obtain ⟨column, hfirst⟩ := h.linked.exists_first? h.settled hempty
  have hactive := h.linked.isActive_of_first? hfirst
  have hbackup := h.backup
  have hfewer {next : Matrix κ} (hremoves : Removes matrix.backup next)
      (hgone : next.isActive (.column column) = false) :
      next.activeColumns.length < matrix.activeColumns.length :=
    hremoves.length_active_lt hbackup.linked hactive hgone
  have hchosen := hbackup.selected hactive
  obtain ⟨first, hanswer⟩ := hsame hchosen hlimit
    (hfewer (removes_selected hbackup.linked hbackup.settled hactive)
      (isActive_column_selected hbackup.linked hbackup.settled hactive))
  have hfinds := (hanswer true).answers_of_yields (hexplores true (hchosen.compared _) hlimit)
  by_cases hforces : matrix.forces column = true
  · refine ⟨first.map (Cover.prepend (selected ++ [column])), fun bounded ↦
      Yields.branch h.linked h.settled hfirst (hanswer bounded) (fun _ chosen heq ↦ ?_)
        fun hnot ↦ absurd hforces hnot⟩
    rw [heq]
  · obtain ⟨later, hlater, -, -⟩ := hfinds.exists_later hlimit
    obtain ⟨second, hother⟩ := hsame (hbackup.deleted hactive) hlater
      (hfewer (removes_deleted hbackup.linked hactive).1
        (isActive_deleted_self hbackup.linked hbackup.settled hactive))
    refine ⟨second.map (Cover.prepend selected) <|> first.map (Cover.prepend (selected ++ [column])),
      fun bounded ↦ Yields.branch h.linked h.settled hfirst (hanswer bounded)
        (fun hforced ↦ absurd hforced hforces) fun _ chosen heq ↦ ?_⟩
    rw [heq]
    apply (hother bounded).imp
    intro deleted heq
    rw [heq]

theorem indifferent_searchWithin (config : Config) {levels : Nat} (h : matrix.Node amountOf cost base)
    (hlimit : IsLimit best limit) (hlevels : matrix.activeColumns.length < levels) (depth : Nat) :
    Indifferent (fun bounded ↦
      searchWithin { config with lowerBound := bounded } levels cost best depth) matrix := by
  induction levels generalizing matrix cost base best limit depth with
  | zero => exact absurd hlevels (Nat.not_lt_zero _)
  | succ levels ih =>
    have hbackup := h.backup
    obtain ⟨chosen, next, hreduces, hreduce⟩ := exists_reduce hbackup.linked hbackup.settled config
    have hnext := hbackup.reduced hreduces
    have hremoves := hreduces.removes hbackup.linked hbackup.settled
    by_cases hempty : next.isEmpty = true
    · obtain ⟨found, hfound⟩ := @indifferent_closeLeaf _ _ next
        (Cost.sumFrom cost (chosen.map next.costOf)) chosen best depth
      exact ⟨found, fun bounded ↦ Yields.searchWithin_of_reduce h.linked hremoves (hreduce bounded)
        (fun _ ↦ hfound bounded) (fun hrows ↦ absurd hempty hrows) fun hrows ↦ absurd hempty hrows⟩
    · have hexplores (bounded : Bool) : Explores { config with lowerBound := bounded }
          (fun cost best ↦ searchWithin { config with lowerBound := bounded } levels cost best
            (depth + 1)) amountOf :=
        explores_searchWithin _ levels (depth + 1)
      have hless : next.activeColumns.length ≤ matrix.activeColumns.length :=
        hremoves.length_active_le hbackup.linked .column
      obtain ⟨found, hfound⟩ := @indifferent_branch _ _ _ _ _ _ _ _ _ chosen _ _ hexplores hnext hempty
        hlimit (fun hnode hlimit hfewer ↦ ih hnode hlimit (by omega) (depth + 1)) depth
      have hfinds := (hfound true).answers_of_yields
        (yields_branch (hexplores true) (hnext.compared _) hempty hlimit depth)
      exact ⟨found, fun bounded ↦ Yields.searchWithin_of_reduce h.linked hremoves (hreduce bounded)
        (fun hrows ↦ absurd hrows hempty)
        (fun _ ↦ completes_isCutOff_of_findsAfter _ hnext hlimit hfinds depth)
        fun _ ↦ hfound bounded⟩

theorem indifferent_search (config : Config) (h : matrix.Node amountOf cost base)
    (hlimit : IsLimit best limit) (depth : Nat) : Indifferent (fun bounded ↦
      search { config with lowerBound := bounded } cost best depth) matrix := by
  obtain ⟨found, hfound⟩ := indifferent_searchWithin config h hlimit (Nat.lt_succ_self _) depth
  exact ⟨found, fun bounded ↦ Yields.table (hfound bounded)⟩

theorem indifferent_solve (config : Config) (h : matrix.Node amountOf (Cost.zero : κ) 0) :
    Indifferent (fun bounded ↦ solve { config with lowerBound := bounded }) matrix := by
  have hlimit : IsLimit (none : Option κ) ⊤ := rfl
  obtain ⟨found, hfound⟩ := indifferent_search config h hlimit 0
  have hsome := (hfound true).answers_of_yields
    (completes_search { config with lowerBound := true } h.linked h.settled Cost.zero none 0)
  obtain ⟨cover, rfl⟩ := Option.isSome_iff_exists.mp (hsome rfl)
  have hsolve (bounded : Bool) := Yields.solve (hfound bounded) fun hnone ↦ nomatch hnone
  cases huncoverable : matrix.uncoverable? with
  | some row =>
    exact ⟨.uncoverable row, fun bounded ↦ (hsolve bounded).imp fun answer hanswer ↦
      (hanswer.1 row).mp huncoverable⟩
  | none =>
    refine ⟨.cover cover, fun bounded ↦ (hsolve bounded).imp fun answer hanswer ↦ ?_⟩
    cases answer with
    | cover other => rw [Option.some.inj (hanswer.2 other rfl)]
    | uncoverable row => cases huncoverable.symm.trans ((hanswer.1 row).mpr rfl)

/-- On a table with exact costs, solving answers the same with and without bounds: the same row without
cells, or the same cover with its columns in the same order. -/
theorem exists_answer_of_lowerBound (h : matrix.Reachable) (hpriced : matrix.Priced amountOf)
    (config : Config) : ∃ answer, ∀ (bounded : Bool) (stats : Stats) (journal : Journal κ),
      Calls.answer (solve { config with lowerBound := bounded }) ⟨matrix, stats, journal⟩ =
        .ok answer := by
  have hintact := h.intact
  obtain ⟨answer, hanswer⟩ :=
    indifferent_solve config (hpriced.node hintact.linked hintact.settled)
  refine ⟨answer, fun bounded stats journal ↦ ?_⟩
  obtain ⟨other, hother, rfl⟩ := (hanswer bounded).exists_answer stats journal
  exact hother

/-- Two nodes are cut off when there are bounds; one column costs nothing, and a row is deleted behind
a marker. -/
theorem exists_answer_of_lowerBound_cycle :
    let bench := Operation.afterAll [.insert 0 0, .insert 0 1, .insert 1 1, .insert 1 2, .insert 2 0,
      .insert 2 2, .insert 3 1, .insert 3 3, .insert 4 0, .setCost 0 0 0.0, .setCost 2 0 2.0,
      .setCost 3 0 2.0, .backup, .delete (.row 4)] (Workbench.blank SingleCost 5 4 false)
    Calls.answer (solve { Config.exhaustive with lowerBound := false }) bench =
        .ok (.cover ⟨⟨1.0⟩, [0, 1]⟩) ∧
      Calls.answer (solve { Config.exhaustive with lowerBound := true }) bench =
        .ok (.cover ⟨⟨1.0⟩, [0, 1]⟩) := by
  intro bench
  have hreachable : bench.matrix.Reachable := reachable_afterAll_blank 5 4 false _
  obtain ⟨hactive, hcosts, hsolve⟩ : bench.matrix.activeColumns = [0, 1, 2, 3] ∧
      (∀ column ∈ [0, 1, 2, 3], Cost.components (bench.matrix.costOf column) =
        [Float.ofNat ([0, 1, 2, 2].getD column 0)]) ∧
      Calls.answer (solve { Config.exhaustive with lowerBound := false }) bench =
        .ok (.cover ⟨⟨1.0⟩, [0, 1]⟩) := by
    decide +kernel
  clear_value bench
  have hpriced : bench.matrix.Priced fun column _ ↦ [0, 1, 2, 2].getD column 0 := by
    refine hreachable.intact.linked.priced_of_activeColumns hactive
      (fun column hcolumn ↦ hcosts column hcolumn) ?_
    unfold Amount.Fits
    decide +kernel
  obtain ⟨answer, hsame⟩ := exists_answer_of_lowerBound hreachable hpriced .exhaustive
  have hplain := hsame false bench.stats bench.journal
  obtain rfl := Except.ok.inj (hplain.symm.trans hsolve)
  exact ⟨hsolve, hsame true bench.stats bench.journal⟩

end SetCover.Workbench

import SetCover.Proofs.Search.Optimality
import SetCover.Proofs.Search.SearchTree

/-!
# What a search counts

Every node leads from its table back to the same table, and changes the numbers as befits the tree that
is explored below it.  So the numbers that stand beside a cover are those of one tree, whatever was
counted before.  Without an incumbent nothing is cut off before a leaf has been reached.
-/

namespace SetCover.Workbench

open SetCover.Matrix SearchTree

variable {κ α : Type} [Cost κ] {matrix : Matrix κ} {config : Config}
  (explore : κ → Option κ → Work κ (Option (Cover κ))) {change further : Stats → Stats}
  {column : Nat} {found other : Option (Cover κ)} {best : Option κ} {cost : κ}

/-! ## Nodes -/

theorem exists_reaches_closeLeaf (cost : κ) (selected : List Nat) (best : Option κ) (depth : Nat) :
    ∃ found, Reaches (closeLeaf cost selected best depth) matrix
      (fun stats ↦ { stats with leaves := stats.leaves + 1 }) found matrix := by
  unfold closeLeaf
  split
  · exact ⟨some ⟨cost, selected⟩,
      (Reaches.count _).bind_silent ((Reaches.report _).silent_bind (.pure _))⟩
  · exact ⟨none, (Reaches.count _).bind_silent (.pure none)⟩

/-- With an incumbent, a node may be cut off. -/
theorem reaches_isCutOff (h : matrix.Linked) (hsettled : matrix.Settled) (cost : κ)
    (best : Option κ) (depth : Nat) :
    Reaches (isCutOff config cost best depth) matrix id false matrix ∨
      config.lowerBound = true ∧ best ≠ none ∧ Reaches (isCutOff config cost best depth) matrix
        (fun stats ↦ { stats with pruned := stats.pruned + 1 }) true matrix := by
  unfold isCutOff
  split
  · rename_i hon
    obtain ⟨bound, hbound⟩ : ∃ bound, Reaches lowerBound matrix id bound matrix := by
      obtain ⟨_, -, hclique⟩ := h.exists_disjointRows hsettled
      exact ⟨_, reaches_lowerBound h hclique⟩
    by_cases himproves : improves (bound + cost) best = true
    · refine .inl (hbound.silent_bind ?_)
      dsimp only
      rw [if_pos himproves]
      exact .pure false
    · refine .inr ⟨hon, fun hnone ↦ himproves (hnone ▸ rfl), hbound.silent_bind ?_⟩
      dsimp only
      rw [if_neg himproves]
      exact (Reaches.report _).silent_bind ((Reaches.count _).bind_silent (.pure true))
  · exact .inl (.pure false)

omit [Cost κ] in
theorem Reaches.undoingSelect {work : Work κ α} {result : α} (h : matrix.Linked)
    (hsettled : matrix.Settled) (hactive : matrix.isActive (.column column) = true)
    (hwork : Reaches work (matrix.backup.selected column) change result
      (matrix.backup.selected column)) :
    Reaches (Workbench.undoing (Workbench.select column >>= fun _ ↦ work)) matrix change result
      matrix :=
  undoing (bind (.select h.backup hsettled hactive) hwork) h
    (removes_selected h.backup hsettled hactive)

omit [Cost κ] in
theorem Reaches.undoingDelete {work : Work κ α} {result : α} {line : Line} (h : matrix.Linked)
    (hactive : matrix.isActive line = true)
    (hwork : Reaches work (matrix.backup.deleted line) change result (matrix.backup.deleted line)) :
    Reaches (Workbench.undoing (Workbench.delete line >>= fun _ ↦ work)) matrix change result matrix :=
  undoing (bind (.delete h.backup hactive) hwork) h (removes_deleted h.backup hactive).1

/-- What is explored with a column chosen is all that is done below a node if some row has no other
column. -/
theorem Reaches.branchOnce (h : matrix.Linked) (hsettled : matrix.Settled)
    (hfirst : matrix.columns.first? = some column) (hforces : matrix.forces column = true)
    (hchosen : Reaches (explore (cost + matrix.costOf column) best) (matrix.backup.selected column)
      change found (matrix.backup.selected column)) (selected : List Nat) (depth : Nat) :
    ∃ answer, Reaches (branch explore cost selected best depth) matrix change answer matrix := by
  have hactive := h.isActive_of_first? hfirst
  have hundone := Reaches.undoingSelect h hsettled hactive hchosen
  let chosen := found.map fun cover ↦ (⟨cover.cost, selected ++ column :: cover.columns⟩ : Cover κ)
  refine ⟨chosen, Reaches.table ?_⟩
  rw [hfirst]
  refine (Reaches.report _).silent_bind (hundone.bind_silent ?_)
  rw [forces] at hforces
  dsimp only
  rw [if_pos hforces]
  exact .pure chosen

/-- Otherwise it is followed by what is explored with the column deleted, and with the better of the
incumbents. -/
theorem Reaches.branchTwice (h : matrix.Linked) (hsettled : matrix.Settled)
    (hfirst : matrix.columns.first? = some column) (hforces : ¬matrix.forces column = true)
    (hchosen : Reaches (explore (cost + matrix.costOf column) best) (matrix.backup.selected column)
      change found (matrix.backup.selected column))
    (hdeleted : Reaches (explore cost (found.map Cover.cost <|> best))
      (matrix.backup.deleted (.column column)) further other (matrix.backup.deleted (.column column)))
    (selected : List Nat) (depth : Nat) :
    ∃ answer, Reaches (branch explore cost selected best depth) matrix (further ∘ change) answer
      matrix := by
  have hactive := h.isActive_of_first? hfirst
  have hundone := Reaches.undoingSelect h hsettled hactive hchosen
  have hlater := Reaches.undoingDelete h hactive hdeleted
  let chosen := found.map fun cover ↦ (⟨cover.cost, selected ++ column :: cover.columns⟩ : Cover κ)
  let deleted := other.map fun cover ↦ (⟨cover.cost, selected ++ cover.columns⟩ : Cover κ)
  refine ⟨deleted <|> chosen, Reaches.table ?_⟩
  rw [hfirst]
  refine (Reaches.report _).silent_bind (hundone.bind ?_)
  rw [forces] at hforces
  dsimp only
  rw [if_neg hforces, Option.map_map]
  exact hlater.bind_silent (.pure _)

/-! ## Searches -/

/-- A node visits and reduces its table; the rest is done on the reduced one. -/
theorem Reaches.node {levels depth : Nat} {base : κ} {counted : Stats → Stats} {reduction : Reduction}
    {next : Matrix κ} (h : matrix.Linked) (hremoves : Removes matrix.backup next)
    (hreduce : Reaches (reduce config) matrix.backup counted reduction next)
    (hrest : Reaches (if next.isEmpty then
          closeLeaf (Cost.sumFrom base (reduction.selected.map next.costOf)) reduction.selected best
            depth
        else isCutOff config (Cost.sumFrom base (reduction.selected.map next.costOf)) best depth >>=
          fun cut ↦ if cut then Pure.pure none else
            branch (fun cost best ↦ searchWithin config levels cost best (depth + 1))
              (Cost.sumFrom base (reduction.selected.map next.costOf)) reduction.selected best depth)
      next change found next) :
    Reaches (searchWithin config (levels + 1) base best depth) matrix (change ∘ counted ∘ fun stats ↦
      { stats with nodes := stats.nodes + 1, maxDepth := Nat.max stats.maxDepth depth }) found
      matrix := by
  rw [← Function.comp_assoc]
  exact (Reaches.count _).bind (.undoing (hreduce.bind (.table hrest)) h hremoves)

variable [LawfulCost κ]

/-- A search explores a tree and counts what is in it.  Without an incumbent it comes to a leaf. -/
theorem exists_reaches_searchWithin {levels : Nat} (h : matrix.Linked) (hsettled : matrix.Settled)
    (hlevels : matrix.activeColumns.length < levels) (base : κ) (best : Option κ) (depth : Nat) :
    ∃ tree change found, Reaches (searchWithin config levels base best depth) matrix change found
      matrix ∧ Unfolds config matrix tree ∧ Counts tree depth change ∧
      (best = none → 0 < tree.leaves) := by
  induction levels generalizing matrix base best depth with
  | zero => exact absurd hlevels (Nat.not_lt_zero _)
  | succ levels ih =>
    obtain ⟨counted, reduction, next, hreduce, hbranches⟩ := exists_reaches_reduce h hsettled config
    have hopens : Opens depth _ :=
      opens_visit (hreduce.sameTally (KeepsTally.inherited.reduce config))
    let cost := Cost.sumFrom base (reduction.selected.map next.costOf)
    let explore (cost : κ) (best : Option κ) := searchWithin config levels cost best (depth + 1)
    by_cases hempty : next.isEmpty = true
    · obtain ⟨found, hleaf⟩ := exists_reaches_closeLeaf cost reduction.selected best depth
      refine ⟨.leaf, _, found, .node h hbranches.removes hreduce ?_, .leaf hreduce hempty, hopens.leaf,
        fun _ ↦ Nat.one_pos⟩
      rw [if_pos hempty]
      exact hleaf
    rcases reaches_isCutOff hbranches.linked hbranches.settled cost best depth with
      hgoes | ⟨hon, hbest, hcut⟩
    · obtain ⟨column, hfirst⟩ := hbranches.linked.exists_first? hbranches.settled hempty
      obtain ⟨htaken, htakenSettled, hfewer⟩ :=
        hbranches.chosen h hfirst (hbranches.select_eq hfirst)
      obtain ⟨tree, change, found, hchosen, hunfolds, hcounts, hleaves⟩ :=
        ih htaken htakenSettled (by omega) (cost + next.costOf column) best (depth + 1)
      by_cases hforces : next.forces column = true
      · obtain ⟨answer, hbranch⟩ := Reaches.branchOnce explore hbranches.linked hbranches.settled
          hfirst hforces hchosen reduction.selected depth
        refine ⟨.once tree, _, answer, .node h hbranches.removes hreduce ?_,
          .once hreduce hfirst hforces (hbranches.select_eq hfirst) hunfolds, hopens.once hcounts,
          hleaves⟩
        rw [if_neg hempty]
        exact hgoes.silent_bind hbranch
      · obtain ⟨hleft, hleftSettled, hless⟩ :=
          hbranches.deleted h hfirst (hbranches.delete_eq hfirst)
        obtain ⟨other, further, deleted, hdeleted, hunfoldsOther, hcountsOther, -⟩ :=
          ih hleft hleftSettled (by omega) cost (found.map Cover.cost <|> best) (depth + 1)
        obtain ⟨answer, hbranch⟩ := Reaches.branchTwice explore hbranches.linked hbranches.settled
          hfirst hforces hchosen hdeleted reduction.selected depth
        refine ⟨.twice tree other, (further ∘ change) ∘ counted ∘ _, answer,
          .node h hbranches.removes hreduce ?_,
          .twice hreduce hfirst hforces (hbranches.select_eq hfirst) hunfolds
            (hbranches.delete_eq hfirst) hunfoldsOther, hopens.twice hcounts hcountsOther,
          fun hbest ↦ Nat.add_pos_left (hleaves hbest) _⟩
        rw [if_neg hempty]
        exact hgoes.silent_bind hbranch
    · refine ⟨.cut, _, none, .node h hbranches.removes hreduce ?_, .cut hreduce hempty hon, hopens.cut,
        fun hnone ↦ absurd hnone hbest⟩
      rw [if_neg hempty]
      exact hcut.bind_silent (.pure none)

omit [LawfulCost κ] in
/-- The numbers of a search that finds a cover are those of solving. -/
theorem Reaches.solves (huncoverable : matrix.uncoverable? = none) {cover : Cover κ}
    (h : Reaches (search config Cost.zero none 0) matrix change (some cover) matrix) :
    Reaches (Workbench.solve config) matrix (change ∘ fun _ ↦ Stats.zero) (.cover cover) matrix := by
  have hsolved : Reaches (do
      let stats := (← MonadState.get).stats
      note (.solved cover.cost cover.columns.length stats.nodes stats.pruned stats.maxDepth)
      return Answer.cover cover) matrix id (.cover cover) matrix :=
    .get fun _ _ ↦ .silent_bind (.report _) (.pure _)
  refine .bind (.count _) (.table ?_)
  rw [huncoverable]
  exact h.onCopy.bind_silent hsolved

/-- The numbers that solving a reachable table leaves beside a cover are those of a tree that the
search explores.  At least one leaf is reached, no node lies deeper than there are active columns, and
nothing is cut off without bounds.  There are at least as many nodes as in a tree with these ends in
which every other node has two children; if single columns are chosen, the tree that is explored is of
this kind. -/
theorem exists_tree_of_solve (h : matrix.Reachable) {stats : Stats} {journal : Journal κ}
    {cover : Cover κ} {bench : Workbench κ}
    (hsolve : solve config ⟨matrix, stats, journal⟩ = .ok (.cover cover) bench) :
    1 ≤ bench.stats.leaves ∧ bench.stats.maxDepth ≤ matrix.activeColumns.length ∧
      (config.lowerBound = false → bench.stats.pruned = 0) ∧
      2 * (bench.stats.leaves + bench.stats.pruned) - 1 ≤ bench.stats.nodes ∧
      (config.essentialColumns = true →
        bench.stats.nodes = 2 * (bench.stats.leaves + bench.stats.pruned) - 1) ∧
      ∃ tree, Unfolds config matrix tree ∧ bench.stats.nodes = tree.nodes ∧
        bench.stats.leaves = tree.leaves ∧ bench.stats.pruned = tree.cuts ∧
        bench.stats.maxDepth = tree.height ∧ (config.essentialColumns = true → tree.singles = 0) := by
  obtain ⟨hlinked, hsettled⟩ : matrix.Linked ∧ matrix.Settled := ⟨h.intact.linked, h.intact.settled⟩
  have huncoverable := uncoverable?_of_solve h.intact (Calls.answer_of_ok hsolve)
  obtain ⟨tree, change, found, hrun, hunfolds, hcounts, hleaves⟩ :=
    exists_reaches_searchWithin hlinked hsettled (Nat.lt_succ_self _) (Cost.zero : κ) none 0
  have hsearch : Reaches (search config Cost.zero none 0) matrix change found matrix := .table hrun
  have hcompletes := completes_search config hlinked hsettled (Cost.zero : κ) none 0
  unfold Completes Yields at hcompletes
  have hfound : found.isSome := (hsearch.of_ends hcompletes).2 rfl
  obtain ⟨best, rfl⟩ := Option.isSome_iff_exists.mp hfound
  have hstats : bench.stats = change Stats.zero := by
    obtain ⟨later, hcall⟩ := hsearch.solves huncoverable stats journal
    exact congrArg Workbench.stats (Calls.next_eq hsolve hcall)
  have hnodes : bench.stats.nodes = tree.nodes := by
    rw [hstats, hcounts.nodes, Stats.zero, Nat.zero_add]
  have hends : bench.stats.leaves = tree.leaves := by
    rw [hstats, hcounts.leaves, Stats.zero, Nat.zero_add]
  have hcuts : bench.stats.pruned = tree.cuts := by
    rw [hstats, hcounts.pruned, Stats.zero, Nat.zero_add]
  have hdepth : bench.stats.maxDepth = tree.height := by
    rw [hstats, hcounts.maxDepth, Stats.zero, Nat.zero_add, Nat.zero_max]
  have hlaw := tree.nodes_succ
  have hleaf : 0 < tree.leaves := hleaves rfl
  rw [hnodes, hends, hcuts, hdepth]
  refine ⟨hleaf, hunfolds.height_le hlinked hsettled, hunfolds.cuts_eq_zero, by omega, fun hon ↦ ?_,
    tree, hunfolds, rfl, rfl, rfl, rfl, hunfolds.singles_eq_zero hlinked hsettled⟩
  rw [hunfolds.singles_eq_zero hlinked hsettled hon] at hlaw
  omega

/-- On a cycle of five rows, of nine nodes three are leaves and two are cut off.  The numbers from
before are forgotten, and the row that is deleted behind a marker needs no column. -/
theorem exists_tree_of_solve_cycle :
    let bench := Operation.afterAll [.insert 0 0, .insert 0 1, .insert 1 1, .insert 1 2, .insert 2 2,
      .insert 2 3, .insert 3 3, .insert 3 4, .insert 4 4, .insert 4 0, .insert 5 0, .backup,
      .delete (.row 5)] (Workbench.blank SingleCost 6 5 false)
    let config : Config := ⟨false, false, true, true⟩
    bench.matrix.Reachable ∧ ∃ cover next,
      solve config ⟨bench.matrix, ⟨7, 7, 7, 7, 7, 7, 7⟩, bench.journal⟩ = .ok (.cover cover) next ∧
        next.stats = ⟨9, 3, 2, 4, 0, 0, 5⟩ ∧ ∃ tree, Unfolds config bench.matrix tree ∧
          tree.nodes = 9 ∧ tree.leaves = 3 ∧ tree.cuts = 2 ∧ tree.height = 4 ∧ tree.singles = 0 := by
  intro bench config
  have hreachable : bench.matrix.Reachable := reachable_afterAll_blank 6 5 false _
  obtain ⟨hanswer, hstats⟩ :
      Calls.answer (solve config) ⟨bench.matrix, ⟨7, 7, 7, 7, 7, 7, 7⟩, bench.journal⟩ =
        .ok (.cover ⟨⟨3.0⟩, [0, 1, 3]⟩) ∧
      (Calls.stateAfter (solve config) ⟨bench.matrix, ⟨7, 7, 7, 7, 7, 7, 7⟩, bench.journal⟩).stats =
        ⟨9, 3, 2, 4, 0, 0, 5⟩ := by
    decide +kernel
  clear_value bench
  have hsolve := Calls.ok_of_answer hanswer
  obtain ⟨-, -, -, -, -, tree, hunfolds, hnodes, hleaves, hcuts, hheight, hsingles⟩ :=
    exists_tree_of_solve hreachable hsolve
  rw [hstats] at hnodes hleaves hcuts hheight
  exact ⟨hreachable, _, _, hsolve, hstats, tree, hunfolds, hnodes.symm, hleaves.symm, hcuts.symm,
    hheight.symm, hsingles rfl⟩

end SetCover.Workbench

import SetCover.Proofs.Search.Course
import SetCover.Proofs.Search.Optimality

/-!
# The cost of a cover is that of its columns

What is spent on the way down to a node and the columns that are listed on the way up from it are two
accounts of the same choices.  At every node they agree: whatever is found below it costs what was spent
before together with its columns, added in the order in which they are listed.  Nothing is assumed of
the costs, so the sums may be rounded or overflow.
-/

namespace SetCover

variable {κ : Type} [Cost κ]

open SetCover.Matrix

/-- The cover lists active columns, each of them once, and its cost is what was spent before and the
costs of these columns, added from the left. -/
structure Accounts (matrix : Matrix κ) (spent : κ) (cover : Cover κ) : Prop where
  nodup : cover.columns.Nodup
  active : ∀ column ∈ cover.columns, matrix.isActive (.column column) = true
  cost_eq : cover.cost = Cost.sumFrom spent (cover.columns.map matrix.costOf)

namespace Accounts

variable {matrix next : Matrix κ} {spent : κ} {cover : Cover κ} {chosen : List Nat} {column : Nat}

theorem nil (matrix : Matrix κ) (spent : κ) : Accounts matrix spent ⟨spent, []⟩ :=
  ⟨List.nodup_nil, by simp, rfl⟩

theorem of_backup (h : Accounts matrix.backup spent cover) : Accounts matrix spent cover :=
  ⟨h.nodup, h.active, h.cost_eq⟩

/-- The columns that were chosen on the way to a table are paid for before those found below it. -/
theorem prepend (h : Accounts next (Cost.sumFrom spent (chosen.map matrix.costOf)) cover)
    (hmatrix : matrix.Linked) (hremoves : Removes matrix next) (hchosen : Chosen matrix next chosen) :
    Accounts matrix spent (cover.prepend chosen) where
  nodup := by
    refine List.nodup_append'.mpr ⟨hchosen.nodup, h.nodup, fun column hbefore hafter ↦ ?_⟩
    exact ne_true_of_eq_false (hchosen.gone column hbefore) (h.active column hafter)
  active column hcolumn := by
    rcases List.mem_append.mp hcolumn with hbefore | hafter
    · exact hchosen.active column hbefore
    · exact hremoves.isActive_of hmatrix (h.active column hafter)
  cost_eq := by
    calc cover.cost
        = Cost.sumFrom (Cost.sumFrom spent (chosen.map matrix.costOf))
            (cover.columns.map matrix.costOf) := by rw [h.cost_eq, hremoves.costOf_eq]
      _ = Cost.sumFrom spent ((chosen ++ cover.columns).map matrix.costOf) := by
        rw [List.map_append, Cost.sumFrom_append]

theorem selected (h : Accounts (matrix.selected column) (spent + matrix.costOf column) cover)
    (hmatrix : matrix.Linked) (hsettled : matrix.Settled)
    (hactive : matrix.isActive (.column column) = true) :
    Accounts matrix spent (cover.prepend [column]) :=
  prepend h hmatrix (removes_selected hmatrix hsettled hactive)
    (chosen_selected hmatrix hsettled hactive)

theorem deleted (h : Accounts (matrix.deleted (.column column)) spent cover)
    (hmatrix : matrix.Linked) (hactive : matrix.isActive (.column column) = true) :
    Accounts matrix spent cover :=
  @prepend _ _ _ _ _ _ [] h hmatrix (removes_deleted hmatrix hactive).1 (.nil matrix _)

variable {config : Config}

theorem reached (h : Accounts next (Cost.sumFrom spent (chosen.map next.costOf)) cover)
    (hreached : Reached config matrix chosen next) (hmatrix : matrix.Linked)
    (hsettled : matrix.Settled) : Accounts matrix spent (cover.prepend chosen) := by
  have hreduces := hreached.reduces hmatrix hsettled
  rw [hreduces.costOf_eq hmatrix.backup hsettled] at h
  exact of_backup (prepend h hmatrix.backup (hreduces.removes hmatrix.backup hsettled)
    (hreduces.chosen_gone hmatrix.backup hsettled))

/-- A node pays for what its reduction had to choose, then for the column that it branches on. -/
theorem branched (h : Accounts (next.backup.selected column)
      (Cost.sumFrom spent (chosen.map next.costOf) + next.costOf column) cover)
    (hreached : Reached config matrix chosen next) (hmatrix : matrix.Linked)
    (hsettled : matrix.Settled) (hactive : next.backup.isActive (.column column) = true) :
    Accounts matrix spent (cover.prepend (chosen ++ [column])) := by
  obtain ⟨hnext, hnextSettled⟩ := hreached.branches hmatrix hsettled
  rw [Cover.prepend_append]
  exact reached (of_backup (selected h hnext hnextSettled hactive)) hreached hmatrix hsettled

end Accounts

/-- At every node of a search, what is found accounts for what was spent before and for its columns. -/
theorem Course.accounts {config : Config} {matrix : Matrix κ} {spent : κ} {best : Option κ}
    {found : Option (Cover κ)} (h : Course config matrix spent best found) (hmatrix : matrix.Linked)
    (hsettled : matrix.Settled) : ∀ cover ∈ found, Accounts matrix spent cover := by
  induction h with
  | @leaf matrix next spent best chosen cost hreached hcost hempty =>
    subst hcost
    intro cover hcover
    split at hcover
    · obtain rfl := Option.some.inj hcover
      have hleaf : Accounts matrix spent (Cover.prepend chosen ⟨_, []⟩) :=
        (Accounts.nil next _).reached hreached hmatrix hsettled
      rwa [Cover.prepend, List.append_nil] at hleaf
    · cases hcover
  | cut => simp
  | @forced matrix next taken spent cost best chosen column found hreached hcost hfirst _ hselect _ ih =>
    subst hcost
    obtain ⟨hnext, hnextSettled⟩ := hreached.branches hmatrix hsettled
    obtain ⟨hactive, rfl⟩ := hreached.taken_eq hmatrix hsettled hfirst hselect
    intro cover hcover
    obtain ⟨later, hlater, rfl⟩ := Option.mem_map.mp hcover
    have htaken := ih ((removes_selected hnext hnextSettled hactive).linked hnext)
      (settled_selected hnext hnextSettled hactive) later hlater
    exact htaken.branched hreached hmatrix hsettled hactive
  | @both matrix next taken left spent cost best chosen column found other hreached hcost hfirst _
      hselect _ hdelete _ ih ihother =>
    subst hcost
    obtain ⟨hnext, hnextSettled⟩ := hreached.branches hmatrix hsettled
    obtain ⟨hactive, rfl⟩ := hreached.taken_eq hmatrix hsettled hfirst hselect
    obtain rfl := hreached.left_eq hmatrix hsettled hfirst hdelete
    intro cover hcover
    cases other with
    | none =>
      obtain ⟨later, hlater, rfl⟩ := Option.mem_map.mp hcover
      have htaken := ih ((removes_selected hnext hnextSettled hactive).linked hnext)
        (settled_selected hnext hnextSettled hactive) later hlater
      exact htaken.branched hreached hmatrix hsettled hactive
    | some later =>
      obtain rfl := Option.some.inj hcover
      have hleft := ihother ((removes_deleted hnext hactive).1.linked hnext)
        (settled_deleted hnext hnextSettled hactive) later rfl
      exact (hleft.deleted hnext hactive).of_backup.reached hreached hmatrix hsettled

namespace Workbench

variable {matrix : Matrix κ} {config : Config}

/-- In every setting and whatever the costs are, the cover that solving a reachable table answers with
has exactly the cost that its columns add up to in the order in which they are listed; all of them are
active, and none is listed twice. -/
theorem cost_eq_totalCost_of_solve [LawfulCost κ] (h : matrix.Reachable) {stats : Stats}
    {journal : Journal κ} {cover : Cover κ}
    (hsolve : Calls.answer (solve config) ⟨matrix, stats, journal⟩ = .ok (.cover cover)) :
    cover.cost = matrix.totalCost cover.columns ∧ cover.columns.Nodup ∧
      ∀ column ∈ cover.columns, matrix.isActive (.column column) = true := by
  have hintact := h.intact
  have hcourse := course_of_solve hintact hsolve
  have haccounts := hcourse.accounts hintact.linked hintact.settled cover rfl
  exact ⟨haccounts.cost_eq, haccounts.nodup, haccounts.active⟩

/-- The dear column is essential, and its cost swallows costs of one that are added to it one by one.
So a search that chooses essential columns first and one that does not list the same columns at
different costs. -/
theorem cost_eq_totalCost_of_solve_rounded :
    let bench := Operation.afterAll [.insert 0 1, .insert 0 2, .insert 1 2, .insert 1 3, .insert 2 1,
      .insert 2 3, .insert 3 4, .insert 4 0, .setCost 4 0 9007199254740992.0, .backup,
      .delete (.row 4)] (Workbench.blank SingleCost 5 5 false)
    let essential := { Config.exhaustive with essentialColumns := true }
    Calls.answer (solve essential) bench = .ok (.cover ⟨⟨9007199254740992.0⟩, [4, 1, 2]⟩) ∧
      Calls.answer (solve .exhaustive) bench = .ok (.cover ⟨⟨9007199254740994.0⟩, [1, 2, 4]⟩) ∧
      bench.matrix.totalCost [4, 1, 2] = ⟨9007199254740992.0⟩ ∧
      bench.matrix.totalCost [1, 2, 4] = ⟨9007199254740994.0⟩ := by
  intro bench essential
  have hreachable : bench.matrix.Reachable := reachable_afterAll_blank 5 5 false _
  obtain ⟨hfirst, hsecond⟩ :
      Calls.answer (solve essential) bench = .ok (.cover ⟨⟨9007199254740992.0⟩, [4, 1, 2]⟩) ∧
      Calls.answer (solve .exhaustive) bench = .ok (.cover ⟨⟨9007199254740994.0⟩, [1, 2, 4]⟩) := by
    decide +kernel
  clear_value bench
  obtain ⟨hcost, -⟩ := cost_eq_totalCost_of_solve hreachable hfirst
  obtain ⟨hother, -⟩ := cost_eq_totalCost_of_solve hreachable hsecond
  exact ⟨hfirst, hsecond, hcost.symm, hother.symm⟩

end Workbench

end SetCover

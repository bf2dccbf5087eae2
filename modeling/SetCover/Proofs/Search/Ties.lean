import SetCover.Proofs.Search.Course
import SetCover.Proofs.Search.Narrowing
import SetCover.Proofs.Search.Precedence

/-!
# Which of the cheapest covers is found

Without column dominance a search loses none of the cheapest covers, and it branches on the least column:
the covers with this column come before those without it.  If no column is free, the columns that are
found are therefore those of one and the same cover in every such setting, the first of the cheapest
ones.  Along the course of the search this is carried from every node to the one above.
-/

namespace SetCover

variable {κ : Type} [Cost κ]

namespace Matrix

variable {matrix next : Matrix κ} {amountOf : Nat → Amount κ} {cost : κ} {base : Amount κ}
  {chosen : List Nat} {column : Nat} {limit : Limit κ} {best : Option κ} {found : Option (Cover κ)}

/-! ## Nodes without free columns -/

/-- A node none of whose columns is free. -/
structure Costly (matrix : Matrix κ) (amountOf : Nat → Amount κ) (cost : κ) (base : Amount κ) :
    Prop where
  node : matrix.Node amountOf cost base
  positive : ∀ column, matrix.isActive (.column column) = true → amountOf column ≠ 0

namespace Costly

theorem positive_of_covers (h : matrix.Costly amountOf cost base) (columns : Finset Nat)
    (hcovers : matrix.Covers columns) : ∀ column ∈ columns, amountOf column ≠ 0 :=
  fun column hcolumn ↦ h.positive column (hcovers.active column hcolumn)

theorem backup (h : matrix.Costly amountOf cost base) : matrix.backup.Costly amountOf cost base :=
  ⟨h.node.backup, h.positive⟩

theorem descend {further : κ} {amount : Amount κ} (h : matrix.Costly amountOf cost base)
    (hremoves : Removes matrix next) (hnext : next.Node amountOf further amount) :
    next.Costly amountOf further amount where
  node := hnext
  positive column hcolumn := h.positive column (hremoves.isActive_of h.node.linked hcolumn)

theorem selected [LawfulCost κ] (h : matrix.Costly amountOf cost base)
    (hactive : matrix.isActive (.column column) = true) :
    (matrix.selected column).Costly amountOf (cost + matrix.costOf column) (base + amountOf column) :=
  h.descend (removes_selected h.node.linked h.node.settled hactive) (h.node.selected hactive)

theorem deleted [LawfulCost κ] (h : matrix.Costly amountOf cost base)
    (hactive : matrix.isActive (.column column) = true) :
    (matrix.deleted (.column column)).Costly amountOf cost base :=
  h.descend (removes_deleted h.node.linked hactive).1 (h.node.deleted hactive)

theorem reduced [LawfulCost κ] (h : matrix.Costly amountOf cost base)
    (hreduces : Reduces matrix chosen next) :
    next.Costly amountOf (Cost.sumFrom cost (chosen.map next.costOf))
      (base + (chosen.map amountOf).sum) :=
  h.descend (hreduces.removes h.node.linked h.node.settled) (h.node.reduced hreduces)

theorem findsFirst_leaf [LawfulCost κ] (h : matrix.Costly amountOf cost base)
    (hempty : matrix.isEmpty = true) (hlimit : IsLimit best limit) :
    FindsFirst amountOf base limit matrix.Covers
      (if Workbench.improves cost best then some ⟨cost, []⟩ else none) := by
  refine ⟨h.node.weighed.finds_leaf hempty hlimit, fun cover hcover ↦ ?_⟩
  split at hcover
  · obtain rfl := Option.some.inj hcover
    exact foremost_empty h.positive_of_covers
  · cases hcover

theorem findsFirst_selected (h : matrix.Costly amountOf cost base)
    (hactive : matrix.isActive (.column column) = true)
    (hfound : FindsFirst amountOf (base + amountOf column) limit (matrix.selected column).Covers found) :
    FindsFirst amountOf base limit (fun columns ↦ matrix.Covers columns ∧ column ∈ columns)
      (found.map (Cover.prepend [column])) := by
  have hsum : ([column].map amountOf).sum = amountOf column := List.sum_singleton
  rw [← hsum] at hfound
  refine hfound.prepend (h.node.linked.completing_selected h.node.settled hactive)
    (fun columns hcolumns ↦ ?_) fun columns hcolumns ↦ h.positive_of_covers columns hcolumns.1
  exact hcolumns.1.exists_selected h.node.linked h.node.settled hactive hcolumns.2

/-- If some row has no other column, every cover has the chosen one. -/
theorem findsFirst_forced (h : matrix.Costly amountOf cost base)
    (hactive : matrix.isActive (.column column) = true) (hforces : matrix.forces column = true)
    (hfound : FindsFirst amountOf (base + amountOf column) limit (matrix.selected column).Covers found) :
    FindsFirst amountOf base limit matrix.Covers (found.map (Cover.prepend [column])) :=
  (h.findsFirst_selected hactive hfound).congr fun _ ↦
    and_iff_left_of_imp (h.node.linked.mem_of_forces hactive hforces)

/-- The covers with the least column come before those without it. -/
theorem exists_later [LawfulCost κ] (h : matrix.Costly amountOf cost base)
    (hactive : matrix.isActive (.column column) = true)
    (hleast : ∀ other, matrix.isActive (.column other) = true → column ≤ other)
    (hforces : ¬matrix.forces column = true) (hlimit : IsLimit best limit)
    (hfound : FindsFirst amountOf (base + amountOf column) limit (matrix.selected column).Covers found) :
    ∃ later, IsLimit (found.map Cover.cost <|> best) later ∧ ∀ deleted,
      FindsFirst amountOf base later (matrix.deleted (.column column)).Covers deleted →
        FindsFirst amountOf base limit matrix.Covers
          (deleted <|> found.map (Cover.prepend [column])) := by
  obtain ⟨later, hlater, hboth⟩ := (h.findsFirst_selected hactive hfound).exists_later hlimit
  rw [Cover.map_cost_prepend] at hlater
  refine ⟨later, hlater, fun deleted hdeleted ↦ ?_⟩
  have hspare := h.node.linked.spare_of_not_forces hactive hforces
  have hwithout := hdeleted.congr
    (h.node.linked.covers_deletedColumn_iff h.node.settled hactive hspare)
  refine (hboth (fun columns others hcolumns hothers ↦ ?_) hwithout).congr fun columns ↦ ?_
  · exact .of_least hcolumns.2 hothers.2
      (fun other hother ↦ hleast other (hcolumns.1.active other hother))
      fun other hother ↦ hleast other (hothers.1.active other hother)
  · rw [← and_or_left]
    exact and_iff_left (em _)

theorem findsFirst_reduced (h : matrix.Costly amountOf cost base)
    (hreduces : Reduces matrix chosen next) (hnarrows : Narrows matrix chosen next)
    (hfound : FindsFirst amountOf (base + (chosen.map amountOf).sum) limit next.Covers found) :
    FindsFirst amountOf base limit matrix.Covers (found.map (Cover.prepend chosen)) :=
  hfound.prepend (hreduces.completing h.node.linked h.node.settled) hnarrows.exists_covers
    h.positive_of_covers

end Costly

end Matrix

open SetCover.Matrix

/-! ## The course of a search -/

section Course

variable {config : Config} {matrix next taken : Matrix κ} {chosen : List Nat} {cost : κ}
  {best : Option κ} {found : Option (Cover κ)}

theorem Reached.costly [LawfulCost κ] {amountOf : Nat → Amount κ} {base : Amount κ}
    (h : Reached config matrix chosen next) (hnode : matrix.Costly amountOf cost base) :
    next.Costly amountOf (Cost.sumFrom cost (chosen.map next.costOf))
      (base + (chosen.map amountOf).sum) :=
  hnode.backup.reduced (h.reduces hnode.node.linked hnode.node.settled)

/-- What is found after the reduction of a node, with the columns that it chose, is found at the node. -/
theorem Reached.findsFirst {amountOf : Nat → Amount κ} {base : Amount κ} {limit : Limit κ}
    (h : Reached config matrix chosen next) (hconfig : config.columnDominance = false)
    (hnode : matrix.Costly amountOf cost base)
    (hfound : FindsFirst amountOf (base + (chosen.map amountOf).sum) limit next.Covers found) :
    FindsFirst amountOf base limit matrix.Covers (found.map (Cover.prepend chosen)) := by
  have hbackup := hnode.backup
  have hreduces := h.reduces hnode.node.linked hnode.node.settled
  have hnarrows := h.of_ends
    (Workbench.narrows_reduce hconfig hbackup.node.linked hbackup.node.settled)
  exact (hbackup.findsFirst_reduced hreduces hnarrows hfound).congr fun _ ↦ covers_backup

/-- Without column dominance and free columns, a search finds the first of the cheapest covers. -/
theorem Course.findsFirst [LawfulCost κ] (h : Course config matrix cost best found)
    (hconfig : config.columnDominance = false) {amountOf : Nat → Amount κ} {base : Amount κ}
    {limit : Limit κ} (hnode : matrix.Costly amountOf cost base) (hlimit : IsLimit best limit) :
    FindsFirst amountOf base limit matrix.Covers found := by
  induction h generalizing base limit with
  | @leaf matrix next cost best chosen spent hreached hspent hempty =>
    have hleaf := (hreached.costly hnode).findsFirst_leaf hempty hlimit
    rw [← hspent] at hleaf
    have hmap : (if Workbench.improves spent best then some ⟨spent, chosen⟩ else none) =
        (if Workbench.improves spent best then some ⟨spent, []⟩ else none).map
          (Cover.prepend chosen) := by
      split <;> simp [Cover.prepend]
    rw [hmap]
    exact hreached.findsFirst hconfig hnode hleaf
  | @cut matrix next cost best chosen spent bound hreached hspent hempty hbounded hbound hworse =>
    obtain ⟨hreduced, -⟩ := hreached.costly hnode
    rw [hspent] at hworse
    have hbounds : next.Bounds amountOf bound := hbound.answers_of_yields
      (Workbench.bounds_lowerBound hreduced.linked hreduced.settled hreduced.priced)
    exact hreached.findsFirst hconfig hnode (.none (hreduced.weighed.finds_none hlimit hbounds hworse))
  | @forced matrix next taken cost spent best chosen column found hreached hspent hfirst hforces
      hselect _ ih =>
    have hnext := (hreached.costly hnode).backup
    subst hspent
    obtain ⟨hactive, rfl⟩ :=
      hreached.taken_eq hnode.node.linked hnode.node.settled hfirst hselect
    have hfound := hnext.findsFirst_forced hactive hforces (ih (hnext.selected hactive) hlimit)
    rw [Cover.map_prepend_append]
    exact hreached.findsFirst hconfig hnode (hfound.congr fun _ ↦ covers_backup)
  | @both matrix next taken left cost spent best chosen column found other hreached hspent hfirst
      hforces hselect _ hdelete _ ih ihother =>
    have hnext := (hreached.costly hnode).backup
    subst hspent
    obtain ⟨hactive, rfl⟩ :=
      hreached.taken_eq hnode.node.linked hnode.node.settled hfirst hselect
    obtain rfl := hreached.left_eq hnode.node.linked hnode.node.settled hfirst hdelete
    obtain ⟨later, hlater, hboth⟩ := hnext.exists_later hactive
      (fun _ ↦ hnext.node.linked.le_of_first? hfirst) hforces hlimit (ih (hnext.selected hactive) hlimit)
    have hfound := hboth other (ihother (hnext.deleted hactive) hlater)
    rw [Cover.map_prepend_append, ← Cover.map_prepend_orElse]
    exact hreached.findsFirst hconfig hnode (hfound.congr fun _ ↦ covers_backup)

end Course

/-! ## Columns in ascending order -/

namespace Matrix

variable {matrix next : Matrix κ} {columns : List Nat} {column : Nat}

/-- The columns are active and in ascending order. -/
structure Ascends (matrix : Matrix κ) (columns : List Nat) : Prop where
  active : ∀ column ∈ columns, matrix.isActive (.column column) = true
  pairwise : columns.Pairwise (· < ·)

namespace Ascends

omit [Cost κ]

theorem nil : matrix.Ascends [] := ⟨by simp, .nil⟩

theorem of_removes (h : next.Ascends columns) (hremoves : Removes matrix next)
    (hmatrix : matrix.Linked) : matrix.Ascends columns :=
  ⟨fun column hcolumn ↦ hremoves.isActive_of hmatrix (h.active column hcolumn), h.pairwise⟩

/-- What is found after the choice of the least column lies behind it. -/
theorem selected (h : (matrix.selected column).Ascends columns) (hmatrix : matrix.Linked)
    (hsettled : matrix.Settled) (hfirst : matrix.columns.first? = some column) :
    matrix.Ascends (column :: columns) := by
  have hactive := hmatrix.isActive_of_first? hfirst
  have hrest := h.of_removes (removes_selected hmatrix hsettled hactive) hmatrix
  refine ⟨List.forall_mem_cons.mpr ⟨hactive, hrest.active⟩,
    List.pairwise_cons.mpr ⟨fun other hother ↦ ?_, h.pairwise⟩⟩
  apply lt_of_le_of_ne (hmatrix.le_of_first? hfirst (hrest.active other hother))
  rintro rfl
  exact ne_true_of_eq_false (isActive_column_selected hmatrix hsettled hactive)
    (h.active column hother)

end Ascends

end Matrix

section Course

variable {config : Config} {matrix next : Matrix κ} {chosen columns : List Nat} {cost : κ}
  {best : Option κ} {found : Option (Cover κ)}

theorem Reached.eq_nil (h : Reached config matrix chosen next)
    (hconfig : config.essentialColumns = false) (hmatrix : matrix.Linked)
    (hsettled : matrix.Settled) : chosen = [] :=
  @Reached.of_ends _ _ _ _ _ _ (fun chosen _ ↦ chosen = []) h
    (Workbench.selected_reduce hconfig hmatrix.backup hsettled)

theorem Reached.ascends (h : Reached config matrix chosen next) (hmatrix : matrix.Linked)
    (hsettled : matrix.Settled) (hcolumns : next.backup.Ascends columns) : matrix.Ascends columns := by
  have hreduced : next.Ascends columns := ⟨hcolumns.active, hcolumns.pairwise⟩
  have hmarked := hreduced.of_removes
    ((h.reduces hmatrix hsettled).removes hmatrix.backup hsettled) hmatrix.backup
  exact ⟨hmarked.active, hmarked.pairwise⟩

/-- Without essential columns, a search lists what it finds in ascending order: a node chooses nothing
but the column that it branches on, which is its least one. -/
theorem Course.ascends (h : Course config matrix cost best found)
    (hconfig : config.essentialColumns = false) (hmatrix : matrix.Linked)
    (hsettled : matrix.Settled) : ∀ cover ∈ found, matrix.Ascends cover.columns := by
  induction h with
  | leaf hreached _ _ =>
    obtain rfl := hreached.eq_nil hconfig hmatrix hsettled
    intro cover hcover
    split at hcover
    · obtain rfl := Option.some.inj hcover
      exact .nil
    · cases hcover
  | cut => simp
  | @forced matrix next taken _ _ _ chosen column found hreached _ hfirst _ hselect _ ih =>
    obtain rfl := hreached.eq_nil hconfig hmatrix hsettled
    obtain ⟨hnext, hnextSettled⟩ := hreached.branches hmatrix hsettled
    obtain ⟨hactive, rfl⟩ := hreached.taken_eq hmatrix hsettled hfirst hselect
    have hremoves := removes_selected hnext hnextSettled hactive
    intro cover hcover
    obtain ⟨later, hlater, rfl⟩ := Option.mem_map.mp hcover
    exact hreached.ascends hmatrix hsettled ((ih (hremoves.linked hnext)
      (settled_selected hnext hnextSettled hactive) later hlater).selected hnext hnextSettled hfirst)
  | @both matrix next taken left _ _ _ chosen column found other hreached _ hfirst _ hselect _ hdelete _
      ih ihother =>
    obtain rfl := hreached.eq_nil hconfig hmatrix hsettled
    obtain ⟨hnext, hnextSettled⟩ := hreached.branches hmatrix hsettled
    obtain ⟨hactive, rfl⟩ := hreached.taken_eq hmatrix hsettled hfirst hselect
    obtain rfl := hreached.left_eq hmatrix hsettled hfirst hdelete
    have hremoves := removes_selected hnext hnextSettled hactive
    have hdeletes := (removes_deleted hnext hactive).1
    intro cover hcover
    cases other with
    | none =>
      obtain ⟨later, hlater, rfl⟩ := Option.mem_map.mp hcover
      exact hreached.ascends hmatrix hsettled ((ih (hremoves.linked hnext)
        (settled_selected hnext hnextSettled hactive) later hlater).selected hnext hnextSettled hfirst)
    | some later =>
      obtain rfl := Option.some.inj hcover
      exact hreached.ascends hmatrix hsettled ((ihother (hdeletes.linked hnext)
        (settled_deleted hnext hnextSettled hactive) later rfl).of_removes hdeletes hnext)

end Course

/-! ## Solving -/

namespace Matrix

variable [LawfulCost κ] {matrix : Matrix κ} {amountOf : Nat → Amount κ}

theorem Priced.costly (hpriced : matrix.Priced amountOf) (h : matrix.Linked)
    (hsettled : matrix.Settled)
    (hpositive : ∀ column, matrix.isActive (.column column) = true →
      Cost.zero < matrix.costOf column) : matrix.Costly amountOf (Cost.zero : κ) 0 where
  node := hpriced.node h hsettled
  positive column hcolumn hfree := by
    have hless := (stands_zero.lt_iff (hpriced.stands column hcolumn)).mp (hpositive column hcolumn)
    rw [hfree] at hless
    exact lt_irrefl _ hless

/-- Optimal covers amount to the same. -/
theorem Priced.total_eq {cover other : Cover κ} (hpriced : matrix.Priced amountOf) (h : matrix.Linked)
    (hcover : matrix.Optimal cover) (hother : matrix.Optimal other) :
    Amount.total amountOf cover.columns.toFinset = Amount.total amountOf other.columns.toFinset := by
  have hle {cover other : Cover κ} (hcover : matrix.Optimal cover) (hother : matrix.Optimal other) :
      toLex (Amount.total amountOf cover.columns.toFinset) ≤
        toLex (Amount.total amountOf other.columns.toFinset) := by
    have hleast := hcover.least other.columns hother.nodup hother.covers
    rw [hcover.cost_eq] at hleast
    exact ((hpriced.stands_totalCost h hcover.nodup hcover.covers).le_iff
      (hpriced.stands_totalCost h hother.nodup hother.covers)).mp hleast
  exact toLex_inj.mp (le_antisymm (hle hcover hother) (hle hother hcover))

end Matrix

namespace Workbench

variable [LawfulCost κ] {matrix : Matrix κ} {amountOf : Nat → Amount κ}

/-- If a table can be solved, its costs add up exactly and no active column is free, then one set of
columns is found in every setting without column dominance: that of the optimal cover that comes first.
Without essential columns, too, they are listed in ascending order. -/
theorem exists_first_of_solve (h : matrix.Reachable) (hpriced : matrix.Priced amountOf)
    (hpositive : ∀ column, matrix.isActive (.column column) = true →
      Cost.zero < matrix.costOf column)
    {config : Config} {stats : Stats} {journal : Journal κ} {cover : Cover κ}
    (hsolve : Calls.answer (solve config) ⟨matrix, stats, journal⟩ = .ok (.cover cover)) :
    ∃ first : Finset Nat,
      (∀ other, matrix.Optimal other → ComesFirst first other.columns.toFinset) ∧
      ∀ (other : Config) (counted : Stats) (reported : Journal κ), other.columnDominance = false →
        ∃ found, Calls.answer (solve other) ⟨matrix, counted, reported⟩ = .ok (.cover found) ∧
          matrix.Optimal found ∧ found.columns.toFinset = first ∧
          (other.essentialColumns = false → found.columns.Pairwise (· < ·)) := by
  have hintact := h.intact
  have hcovered := uncoverable?_of_solve hintact hsolve
  have hcostly := hpriced.costly hintact.linked hintact.settled hpositive
  have hforemost (config : Config) (stats : Stats) (journal : Journal κ)
      (hconfig : config.columnDominance = false) :
      ∃ found, Calls.answer (solve config) ⟨matrix, stats, journal⟩ = .ok (.cover found) ∧
        matrix.Optimal found ∧
        (∀ other, matrix.Optimal other → ComesFirst found.columns.toFinset other.columns.toFinset) ∧
        (config.essentialColumns = false → found.columns.Pairwise (· < ·)) := by
    obtain ⟨found, hfound⟩ := exists_solve config hintact hcovered stats journal
    have hcourse := course_of_solve hintact hfound
    have hfirst : FindsFirst amountOf 0 ⊤ matrix.Covers (some found) :=
      hcourse.findsFirst hconfig hcostly rfl
    have hoptimal := hpriced.optimal hintact.linked hfirst.finds.1
    refine ⟨found, hfound, hoptimal, fun other hother ↦ ?_, fun hessential ↦ ?_⟩
    · exact hfirst.foremost found rfl _ hother.covers (hpriced.total_eq hintact.linked hother hoptimal)
    · exact (hcourse.ascends hessential hintact.linked hintact.settled found rfl).pairwise
  obtain ⟨first, -, hoptimal, hleads, -⟩ := hforemost .exhaustive stats journal rfl
  refine ⟨first.columns.toFinset, hleads, fun other counted reported hother ↦ ?_⟩
  obtain ⟨found, hfound, hfoundOptimal, hfoundLeads, hascending⟩ :=
    hforemost other counted reported hother
  exact ⟨found, hfound, hfoundOptimal,
    (hfoundLeads first hoptimal).antisymm (hleads found hfoundOptimal), hascending⟩

/-- A cycle of three rows has three optimal covers.  A fourth row forces the last column and is contained
in a fifth one, the last row is deleted behind a marker, and three columns cost nothing in their first
component. -/
theorem exists_first_of_solve_cycle :
    let bench := Operation.afterAll [.insert 0 0, .insert 0 1, .insert 1 1, .insert 1 2, .insert 2 0,
      .insert 2 2, .insert 3 3, .insert 4 2, .insert 4 3, .insert 5 2, .setCost 0 0 0.0,
      .setCost 0 1 1.0, .setCost 1 0 0.0, .setCost 1 1 1.0, .setCost 2 0 0.0, .setCost 2 1 1.0,
      .backup, .delete (.row 5)] (Workbench.blank PairCost 6 4 false)
    Calls.answer (solve .exhaustive) bench = .ok (.cover ⟨⟨1.0, 2.0⟩, [0, 1, 3]⟩) ∧
      ∃ found, Calls.answer (solve ⟨true, false, true, true⟩) bench = .ok (.cover found) ∧
        found.columns.toFinset = {0, 1, 3} := by
  intro bench
  have hreachable : bench.matrix.Reachable := reachable_afterAll_blank 6 4 false _
  obtain ⟨hactive, hcosts, hpositive, hsolve⟩ : bench.matrix.activeColumns = [0, 1, 2, 3] ∧
      (∀ column ∈ [0, 1, 2, 3], Cost.components (bench.matrix.costOf column) =
        [Float.ofNat (if column = 3 then 1 else 0), Float.ofNat (if column = 3 then 0 else 1)]) ∧
      (∀ column ∈ [0, 1, 2, 3], Cost.zero < bench.matrix.costOf column) ∧
      Calls.answer (solve .exhaustive) bench = .ok (.cover ⟨⟨1.0, 2.0⟩, [0, 1, 3]⟩) := by
    decide +kernel
  clear_value bench
  have hlinked := hreachable.intact.linked
  have hpriced : bench.matrix.Priced fun column (index : Fin 2) ↦
      if column = 3 then 1 - index.val else index.val := by
    refine hlinked.priced_of_activeColumns hactive (fun column hcolumn ↦ ?_) ?_
    · rw [hcosts column hcolumn]
      split <;> rfl
    · unfold Amount.Fits
      decide +kernel
  obtain ⟨first, -, hfirst⟩ := exists_first_of_solve hreachable hpriced
    (fun column hcolumn ↦ hpositive column (hactive ▸ hlinked.mem_active.mp hcolumn)) hsolve
  obtain ⟨plain, hplain, -, hsame, -⟩ := hfirst .exhaustive bench.stats bench.journal rfl
  obtain ⟨found, hfound, -, hother, -⟩ :=
    hfirst ⟨true, false, true, true⟩ bench.stats bench.journal rfl
  obtain rfl : plain = ⟨⟨1.0, 2.0⟩, [0, 1, 3]⟩ :=
    Answer.cover.inj (Except.ok.inj (hplain.symm.trans hsolve))
  exact ⟨hsolve, found, hfound, hother.trans hsame.symm⟩

end Workbench

end SetCover

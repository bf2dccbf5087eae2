import SetCover.Proofs.Search.Bound
import SetCover.Proofs.Search.Finding
import SetCover.Proofs.Search.Narrowing

/-!
# Every setting finds an optimal cover

A node of a search knows what has been spent on the way to it.  Reducing the table, choosing a column
and deleting one lead to nodes again, and each of these steps says how the covers of what is left go
with the covers of the whole.  So a search finds a cheapest cover below its limit, and a cover that is
the answer to a table is a cheapest one, whichever rules are switched on.

Two of the rules compare the costs of columns.  Only they rely on the order of these costs: without them
it is enough that every cost adds up.
-/

namespace SetCover

variable {κ : Type} [Cost κ]

namespace Matrix

variable {matrix next : Matrix κ} {amountOf : Nat → Amount κ} {cost : κ} {base : Amount κ}
  {chosen : List Nat} {columns : Finset Nat} {row column : Nat} {config : Config}

/-! ## Nodes -/

/-- What a search has to know of the table that it works on and of what it has spent in order to add up
costs. -/
structure Weighed (matrix : Matrix κ) (amountOf : Nat → Amount κ) (cost : κ) (base : Amount κ) :
    Prop where
  linked : matrix.Linked
  settled : matrix.Settled
  adds : ∀ column, matrix.isActive (.column column) = true →
    Adds (matrix.costOf column) (amountOf column)
  spent : Stands cost base
  fits : Amount.Fits (base + Amount.total amountOf matrix.columnSet)

namespace Weighed

theorem backup (h : matrix.Weighed amountOf cost base) : matrix.backup.Weighed amountOf cost base where
  linked := h.linked.backup
  settled := h.settled
  adds := h.adds
  spent := h.spent
  fits := h.fits

/-- Lines were removed and the chosen columns paid for. -/
theorem descend (h : matrix.Weighed amountOf cost base) (hremoves : Removes matrix next)
    (hsettled : next.Settled) (hchosen : Chosen matrix next chosen) :
    next.Weighed amountOf (Cost.sumFrom cost (chosen.map matrix.costOf))
      (base + (chosen.map amountOf).sum) := by
  have hlinked := hremoves.linked h.linked
  have hdisjoint : Disjoint chosen.toFinset next.columnSet := by
    apply Finset.disjoint_left.mpr
    intro column hcolumn hleft
    have hgone := hchosen.gone column (List.mem_toFinset.mp hcolumn)
    exact ne_true_of_eq_false hgone (hlinked.mem_columnSet.mp hleft)
  have hsubset : chosen.toFinset ∪ next.columnSet ⊆ matrix.columnSet := by
    intro column hcolumn
    apply h.linked.mem_columnSet.mpr
    rcases Finset.mem_union.mp hcolumn with hcolumn | hcolumn
    · exact hchosen.active column (List.mem_toFinset.mp hcolumn)
    · exact hremoves.isActive_of h.linked (hlinked.mem_columnSet.mp hcolumn)
  have hle : base + (chosen.map amountOf).sum + Amount.total amountOf next.columnSet ≤
      base + Amount.total amountOf matrix.columnSet := by
    calc base + (chosen.map amountOf).sum + Amount.total amountOf next.columnSet
        = base + Amount.total amountOf (chosen.toFinset ∪ next.columnSet) := by
          rw [Amount.total_union hdisjoint, Amount.total_toFinset hchosen.nodup, add_assoc]
      _ ≤ base + Amount.total amountOf matrix.columnSet := fun index ↦
          Nat.add_le_add_left (Amount.total_le_of_subset hsubset index) (base index)
  have hfits := h.fits.of_le hle
  refine ⟨hlinked, hsettled, fun column hcolumn ↦ ?_, ?_, hfits⟩
  · rw [hremoves.costOf_eq]
    exact h.adds column (hremoves.isActive_of h.linked hcolumn)
  · apply h.spent.sumFrom
    · exact fun column hcolumn ↦ h.adds column (hchosen.active column hcolumn)
    · exact hfits.of_le fun _ ↦ Nat.le_add_right _ _

theorem selected (h : matrix.Weighed amountOf cost base)
    (hactive : matrix.isActive (.column column) = true) :
    (matrix.selected column).Weighed amountOf (cost + matrix.costOf column)
      (base + amountOf column) := by
  have hnode := h.descend (removes_selected h.linked h.settled hactive)
    (settled_selected h.linked h.settled hactive) (chosen_selected h.linked h.settled hactive)
  rwa [List.map_singleton, List.map_singleton, List.sum_singleton] at hnode

theorem reduced (h : matrix.Weighed amountOf cost base) (hreduces : Reduces matrix chosen next) :
    next.Weighed amountOf (Cost.sumFrom cost (chosen.map next.costOf))
      (base + (chosen.map amountOf).sum) := by
  rw [hreduces.costOf_eq h.linked h.settled]
  exact h.descend (hreduces.removes h.linked h.settled) (hreduces.settled h.linked h.settled)
    (hreduces.chosen_gone h.linked h.settled)

theorem deleted (h : matrix.Weighed amountOf cost base)
    (hactive : matrix.isActive (.column column) = true) :
    (matrix.deleted (.column column)).Weighed amountOf cost base :=
  h.descend (removes_deleted h.linked hactive).1 (settled_deleted h.linked h.settled hactive)
    (.nil matrix _)

end Weighed

/-- A node at which the order of costs may be relied on wherever the setting has it looked at: column
dominance and the lower bound compare the costs of columns. -/
structure Compared (matrix : Matrix κ) (config : Config) (amountOf : Nat → Amount κ) (cost : κ)
    (base : Amount κ) : Prop where
  weighed : matrix.Weighed amountOf cost base
  ordered : config.columnDominance = true ∨ config.lowerBound = true → matrix.Ordered amountOf

namespace Compared

theorem backup (h : matrix.Compared config amountOf cost base) :
    matrix.backup.Compared config amountOf cost base :=
  ⟨h.weighed.backup, h.ordered⟩

theorem descend {further : κ} {amount : Amount κ} (h : matrix.Compared config amountOf cost base)
    (hremoves : Removes matrix next) (hnext : next.Weighed amountOf further amount) :
    next.Compared config amountOf further amount :=
  ⟨hnext, fun hconfig ↦ (h.ordered hconfig).of_removes h.weighed.linked hremoves⟩

theorem selected (h : matrix.Compared config amountOf cost base)
    (hactive : matrix.isActive (.column column) = true) :
    (matrix.selected column).Compared config amountOf (cost + matrix.costOf column)
      (base + amountOf column) :=
  h.descend (removes_selected h.weighed.linked h.weighed.settled hactive) (h.weighed.selected hactive)

theorem reduced (h : matrix.Compared config amountOf cost base)
    (hreduces : Reduces matrix chosen next) :
    next.Compared config amountOf (Cost.sumFrom cost (chosen.map next.costOf))
      (base + (chosen.map amountOf).sum) :=
  h.descend (hreduces.removes h.weighed.linked h.weighed.settled) (h.weighed.reduced hreduces)

theorem deleted (h : matrix.Compared config amountOf cost base)
    (hactive : matrix.isActive (.column column) = true) :
    (matrix.deleted (.column column)).Compared config amountOf cost base :=
  h.descend (removes_deleted h.weighed.linked hactive).1 (h.weighed.deleted hactive)

end Compared

/-- What a search knows of the table that it works on and of what it has spent. -/
structure Node (matrix : Matrix κ) (amountOf : Nat → Amount κ) (cost : κ) (base : Amount κ) :
    Prop where
  linked : matrix.Linked
  settled : matrix.Settled
  stands : ∀ column, matrix.isActive (.column column) = true →
    Stands (matrix.costOf column) (amountOf column)
  spent : Stands cost base
  fits : Amount.Fits (base + Amount.total amountOf matrix.columnSet)

namespace Node

theorem priced (h : matrix.Node amountOf cost base) : matrix.Priced amountOf where
  stands := h.stands
  fits := h.fits.of_le fun _ ↦ Nat.le_add_left _ _

theorem backup (h : matrix.Node amountOf cost base) : matrix.backup.Node amountOf cost base where
  linked := h.linked.backup
  settled := h.settled
  stands := h.stands
  spent := h.spent
  fits := h.fits

/-- The costs stay what they were when lines are removed. -/
theorem descend {further : κ} {amount : Amount κ} (h : matrix.Node amountOf cost base)
    (hremoves : Removes matrix next) (hnext : next.Weighed amountOf further amount) :
    next.Node amountOf further amount where
  linked := hnext.linked
  settled := hnext.settled
  stands column hcolumn := by
    rw [hremoves.costOf_eq]
    exact h.stands column (hremoves.isActive_of h.linked hcolumn)
  spent := hnext.spent
  fits := hnext.fits

variable [LawfulCost κ]

theorem weighed (h : matrix.Node amountOf cost base) : matrix.Weighed amountOf cost base where
  linked := h.linked
  settled := h.settled
  adds column hcolumn := (h.stands column hcolumn).adds
  spent := h.spent
  fits := h.fits

/-- Costs that stand for amounts may be compared in every setting. -/
theorem compared (h : matrix.Node amountOf cost base) (config : Config) :
    matrix.Compared config amountOf cost base :=
  ⟨h.weighed, fun _ ↦ ordered_of_stands h.stands⟩

theorem selected (h : matrix.Node amountOf cost base)
    (hactive : matrix.isActive (.column column) = true) :
    (matrix.selected column).Node amountOf (cost + matrix.costOf column) (base + amountOf column) :=
  h.descend (removes_selected h.linked h.settled hactive) (h.weighed.selected hactive)

theorem reduced (h : matrix.Node amountOf cost base) (hreduces : Reduces matrix chosen next) :
    next.Node amountOf (Cost.sumFrom cost (chosen.map next.costOf))
      (base + (chosen.map amountOf).sum) :=
  h.descend (hreduces.removes h.linked h.settled) (h.weighed.reduced hreduces)

theorem deleted (h : matrix.Node amountOf cost base)
    (hactive : matrix.isActive (.column column) = true) :
    (matrix.deleted (.column column)).Node amountOf cost base :=
  h.descend (removes_deleted h.linked hactive).1 (h.weighed.deleted hactive)

end Node

/-! ## Branches -/

omit [Cost κ] in
theorem Linked.mem_of_forces (h : matrix.Linked)
    (hactive : matrix.isActive (.column column) = true) (hforces : matrix.forces column = true)
    (hcovers : matrix.Covers columns) : column ∈ columns := by
  obtain ⟨row, hrow, hcount⟩ := List.any_eq_true.mp hforces
  obtain ⟨hcrosses, hrowActive⟩ := (h.mem_rowsOf_iff hactive).mp hrow
  have hlength : (matrix.columnsOf row).length = 1 :=
    (h.length_crossing (h.inRange_of_isActive hrowActive)).trans (of_decide_eq_true hcount)
  obtain ⟨only, honly⟩ := List.length_eq_one_iff.mp hlength
  have hlisted := (h.mem_columnsOf_iff hrowActive).mpr ⟨hcrosses, hactive⟩
  rw [honly, List.mem_singleton] at hlisted
  rw [hlisted]
  exact hcovers.mem_of_only h hrowActive honly

omit [Cost κ] in
theorem Linked.completing_selected (h : matrix.Linked) (hsettled : matrix.Settled)
    (hactive : matrix.isActive (.column column) = true) :
    Completing [column] (matrix.selected column).Covers
      (fun columns ↦ matrix.Covers columns ∧ column ∈ columns) where
  nodup := List.nodup_singleton column
  disjoint columns hcovers := by
    rw [List.toFinset_cons, List.toFinset_nil, insert_empty_eq]
    exact Finset.disjoint_singleton_left.mpr (hcovers.of_selected h hsettled hactive).1
  union columns hcovers := by
    rw [List.toFinset_cons, List.toFinset_nil, insert_empty_eq]
    exact ⟨(hcovers.of_selected h hsettled hactive).2,
      Finset.mem_union_left _ (Finset.mem_singleton_self column)⟩

/-- What is found with the column chosen is found among the covers with this column. -/
theorem Weighed.finds_selected (h : matrix.Weighed amountOf cost base)
    (hactive : matrix.isActive (.column column) = true) {limit : Limit κ} {found : Option (Cover κ)}
    (hfound : Finds amountOf (base + amountOf column) limit (matrix.selected column).Covers found) :
    Finds amountOf base limit (fun columns ↦ matrix.Covers columns ∧ column ∈ columns)
      (found.map (Cover.prepend [column])) := by
  have hsum : ([column].map amountOf).sum = amountOf column := List.sum_singleton
  rw [← hsum] at hfound
  exact hfound.prepend_of_subset (h.linked.completing_selected h.settled hactive)
    fun _ hcolumns ↦ hcolumns.1.exists_selected h.linked h.settled hactive hcolumns.2

omit [Cost κ] in
theorem Linked.covers_deletedColumn_iff (h : matrix.Linked) (hsettled : matrix.Settled)
    (hactive : matrix.isActive (.column column) = true) (hspare : matrix.Spare column)
    (columns : Finset Nat) : (matrix.deleted (.column column)).Covers columns ↔
      matrix.Covers columns ∧ column ∉ columns := by
  refine ⟨fun hcovers ↦ ⟨hcovers.of_deletedColumn h hsettled hactive hspare, fun hmem ↦ ?_⟩,
    fun hcovers ↦ hcovers.1.deletedColumn h hsettled hactive hspare hcovers.2⟩
  exact ((isActive_column_deletedColumn h hsettled hactive).mp (hcovers.active column hmem)).2 rfl

/-- What is found with a spare column deleted is found among the covers without this column. -/
theorem Weighed.finds_deleted (h : matrix.Weighed amountOf cost base)
    (hactive : matrix.isActive (.column column) = true) (hspare : matrix.Spare column)
    {limit : Limit κ} {found : Option (Cover κ)}
    (hfound : Finds amountOf base limit (matrix.deleted (.column column)).Covers found) :
    Finds amountOf base limit (fun columns ↦ matrix.Covers columns ∧ column ∉ columns) found :=
  hfound.congr (h.linked.covers_deletedColumn_iff h.settled hactive hspare)

theorem Reduces.completing (h : Reduces matrix chosen next) (hmatrix : matrix.Linked)
    (hsettled : matrix.Settled) : Completing chosen next.Covers matrix.Covers where
  nodup := (h.chosen_gone hmatrix hsettled).nodup
  disjoint columns hcovers := by
    apply Finset.disjoint_left.mpr
    intro column hcolumn hmem
    have hgone := (h.chosen_gone hmatrix hsettled).gone column (List.mem_toFinset.mp hcolumn)
    exact ne_true_of_eq_false hgone (hcovers.active column hmem)
  union columns hcovers := h.covers hmatrix hsettled hcovers

/-- What is found after a reduction is found, with the columns that had to be chosen, among all
covers. -/
theorem Node.finds_reduced [LawfulCost κ] (h : matrix.Node amountOf cost base)
    (hreduces : Reduces matrix chosen next) {limit : Limit κ} {found : Option (Cover κ)}
    (hfound : Finds amountOf (base + (chosen.map amountOf).sum) limit next.Covers found) :
    Finds amountOf base limit matrix.Covers (found.map (Cover.prepend chosen)) :=
  hfound.prepend (hreduces.completing h.linked h.settled)
    fun _ hcovers ↦ hreduces.exists_covers h.linked h.settled (ordered_of_stands h.stands) hcovers

/-- What is known of a reduction in a setting: without column dominance it loses no cover. -/
structure ReducesIn (config : Config) (matrix : Matrix κ) (chosen : List Nat) (next : Matrix κ) :
    Prop where
  reduces : Reduces matrix chosen next
  narrows : config.columnDominance = false → Narrows matrix chosen next

/-- Where the order of costs may not be relied on, no cover is lost. -/
theorem Compared.finds_reduced (h : matrix.Compared config amountOf cost base)
    (hnext : ReducesIn config matrix chosen next) {limit : Limit κ} {found : Option (Cover κ)}
    (hfound : Finds amountOf (base + (chosen.map amountOf).sum) limit next.Covers found) :
    Finds amountOf base limit matrix.Covers (found.map (Cover.prepend chosen)) := by
  obtain ⟨⟨hlinked, hsettled, -, -, -⟩, hordered⟩ := h
  have hcompleting := hnext.reduces.completing hlinked hsettled
  cases hconfig : config.columnDominance with
  | true =>
    exact hfound.prepend hcompleting fun _ hcovers ↦
      hnext.reduces.exists_covers hlinked hsettled (hordered (.inl hconfig)) hcovers
  | false => exact hfound.prepend_of_subset hcompleting (hnext.narrows hconfig).exists_covers

/-! ## Leaves and cuts -/

/-- Without rows, what has been spent is the price of the only cover that is needed. -/
theorem Weighed.finds_leaf [LawfulCost κ] (h : matrix.Weighed amountOf cost base)
    (hempty : matrix.isEmpty = true) {best : Option κ} {limit : Limit κ} (hlimit : IsLimit best limit) :
    Finds amountOf base limit matrix.Covers
      (if Workbench.improves cost best then some ⟨cost, []⟩ else none) := by
  have hleast : ∀ columns, WithTop.some (toLex base) ≤ price amountOf base columns := fun columns ↦ by
    rw [← @price_empty _ _ amountOf, price_le_price_iff]
    exact Amount.toLex_le (Amount.total_le_of_subset (Finset.empty_subset columns))
  split
  · rename_i himproves
    refine ⟨⟨List.nodup_nil, ?_, ?_, ?_⟩, ?_⟩
    · rw [List.toFinset_nil]
      exact h.linked.covers_empty hempty
    · rw [List.toFinset_nil, Amount.total_empty, add_zero]
      exact h.spent
    · rw [List.toFinset_nil, price_empty]
      exact fun columns _ ↦ hleast columns
    · rw [List.toFinset_nil, price_empty]
      exact (improves_iff h.spent hlimit).mp himproves
  · rename_i himproves
    intro columns _
    rw [improves_iff h.spent hlimit, not_lt] at himproves
    calc limit ≤ WithTop.some (toLex base) := himproves
      _ ≤ price amountOf base columns := hleast columns

/-- If the bound is no improvement, then no cover is one. -/
theorem Weighed.finds_none [LawfulCost κ] (h : matrix.Weighed amountOf cost base) {best : Option κ}
    {limit : Limit κ} {bound : κ} (hlimit : IsLimit best limit) (hbound : matrix.Bounds amountOf bound)
    (hworse : ¬Workbench.improves (bound + cost) best = true) :
    Finds amountOf base limit matrix.Covers none := by
  obtain ⟨amount, hstands, hle, hbounds⟩ := hbound
  have hsum : Stands (bound + cost) (amount + base) := by
    apply hstands.add h.spent
    rw [add_comm]
    exact h.fits.of_le fun index ↦ Nat.add_le_add_left (hle index) (base index)
  rw [improves_iff hsum hlimit, not_lt, add_comm] at hworse
  intro columns hcovers
  calc limit ≤ WithTop.some (toLex (base + amount)) := hworse
    _ ≤ price amountOf base columns :=
      WithTop.coe_le_coe.mpr (Amount.toLex_add_le (hbounds columns hcovers))

end Matrix

namespace Workbench

open SetCover.Matrix

variable [LawfulCost κ] {matrix : Matrix κ} {amountOf : Nat → Amount κ} {cost : κ} {base : Amount κ}
  {best : Option κ} {limit : Limit κ} {selected : List Nat} {config : Config}

/-! ## Searching -/

/-- Together with the columns that were chosen before it, a cheapest cover was found. -/
def FindsAfter (matrix : Matrix κ) (amountOf : Nat → Amount κ) (base : Amount κ) (limit : Limit κ)
    (selected : List Nat) (found : Option (Cover κ)) : Prop :=
  ∃ rest, found = rest.map (Cover.prepend selected) ∧ Finds amountOf base limit matrix.Covers rest

theorem yields_closeLeaf (h : matrix.Weighed amountOf cost base) (hempty : matrix.isEmpty = true)
    (hlimit : IsLimit best limit) (depth : Nat) : Yields (closeLeaf cost selected best depth) matrix
      (FindsAfter matrix amountOf base limit selected) (fun _ ↦ True) := by
  have hfinds := h.finds_leaf hempty hlimit
  apply Yields.count
  split
  · rename_i himproves
    rw [if_pos himproves] at hfinds
    refine Yields.note (Yields.pure ⟨some ⟨cost, []⟩, ?_, hfinds⟩)
    rw [Option.map_some, Cover.prepend, List.append_nil]
  · rename_i himproves
    rw [if_neg himproves] at hfinds
    exact Yields.pure ⟨none, rfl, hfinds⟩

theorem yields_isCutOff (h : matrix.Compared config amountOf cost base)
    (hlimit : IsLimit best limit) (depth : Nat) : Yields (isCutOff config cost best depth) matrix
      (fun cut ↦ cut = true → Finds amountOf base limit matrix.Covers none) (fun _ ↦ True) := by
  obtain ⟨hweighed, hordered⟩ := h
  unfold isCutOff
  split
  · rename_i hbounded
    have hfits := hweighed.fits.of_le fun _ ↦ Nat.le_add_left _ _
    apply (bounds_lowerBound_of_ordered hweighed.linked hweighed.settled hweighed.adds
      (hordered (.inr hbounded)) hfits).yields.bind
    intro bound hbound
    dsimp only
    split
    · exact Yields.pure (fun hcut ↦ by cases hcut)
    · rename_i hworse
      exact Yields.note (Yields.count (Yields.pure fun _ ↦
        hweighed.finds_none hlimit hbound hworse))
  · exact Yields.pure (fun hcut ↦ by cases hcut)

/-- A search that finds the cheapest cover of every node at which the setting may compare costs. -/
def Explores (config : Config) (explore : κ → Option κ → Work κ (Option (Cover κ)))
    (amountOf : Nat → Amount κ) : Prop :=
  ∀ {matrix : Matrix κ} {cost base best limit}, matrix.Compared config amountOf cost base →
    IsLimit best limit →
      Yields (explore cost best) matrix (Finds amountOf base limit matrix.Covers) fun _ ↦ True

theorem yields_branch {explore : κ → Option κ → Work κ (Option (Cover κ))}
    (hexplore : Explores config explore amountOf) (h : matrix.Compared config amountOf cost base)
    (hempty : ¬matrix.isEmpty = true) (hlimit : IsLimit best limit) (depth : Nat) :
    Yields (branch explore cost selected best depth) matrix
      (FindsAfter matrix amountOf base limit selected) (fun _ ↦ True) := by
  have hbackup := h.backup
  obtain ⟨⟨hlinked, hsettled, -, -, -⟩, -⟩ := h
  obtain ⟨column, hfirst⟩ := hlinked.exists_first? hsettled hempty
  have hactive := hlinked.isActive_of_first? hfirst
  refine Yields.branch hlinked hsettled hfirst (hexplore (hbackup.selected hactive) hlimit)
    (fun hforced chosen hchosen ↦ ⟨_, Cover.map_prepend_append _ _ chosen, ?_⟩)
    fun hforced chosen hchosen ↦ ?_
  · apply (hbackup.weighed.finds_selected hactive hchosen).congr
    intro columns
    rw [covers_backup]
    exact and_iff_left_of_imp (hlinked.mem_of_forces hactive hforced)
  · have hspare := hlinked.backup.spare_of_not_forces hactive hforced
    obtain ⟨later, hlater, -, hboth⟩ :=
      (hbackup.weighed.finds_selected hactive hchosen).exists_later hlimit
    rw [Cover.map_cost_prepend] at hlater
    refine (hexplore (hbackup.deleted hactive) hlater).imp fun deleted hdeleted ↦ ⟨_, ?_,
      (hboth (hbackup.weighed.finds_deleted hactive hspare hdeleted)).congr fun columns ↦ ?_⟩
    · rw [Cover.map_prepend_append, Cover.map_prepend_orElse]
    · rw [covers_backup, ← and_or_left]
      exact and_iff_left (em _)

omit [LawfulCost κ] in
theorem ends_reduce_reducesIn (config : Config) (h : matrix.Linked) (hsettled : matrix.Settled) :
    Ends (reduce config) matrix (fun reduction next ↦ Removes matrix next ∧
      ReducesIn config matrix reduction.selected next) fun _ _ ↦ False := by
  have hremoves := ends_reduce_removes config h hsettled
  cases hconfig : config.columnDominance with
  | true =>
    refine hremoves.mono fun _ _ hdone ↦ ⟨hdone.1, hdone.2, fun hfalse ↦ ?_⟩
    cases hconfig.symm.trans hfalse
  | false =>
    exact (hremoves.and (narrows_reduce hconfig h hsettled)).imp
      (fun _ _ hdone ↦ ⟨hdone.1.1, hdone.1.2, fun _ ↦ hdone.2⟩) fun _ _ hrefused ↦ hrefused.1

theorem explores_searchWithin (config : Config) (levels depth : Nat) :
    Explores config (fun cost best ↦ searchWithin config levels cost best depth) amountOf := by
  induction levels generalizing depth with
  | zero => exact fun _ _ ↦ Yields.throw trivial
  | succ levels ih =>
    intro matrix cost base best limit h hlimit
    have hbackup := h.backup
    have hfound {chosen : List Nat} {next : Matrix κ}
        (hnext : ReducesIn config matrix.backup chosen next) {found : Option (Cover κ)}
        (hfound : FindsAfter next amountOf (base + (chosen.map amountOf).sum) limit chosen found) :
        Finds amountOf base limit matrix.Covers found := by
      obtain ⟨rest, rfl, hrest⟩ := hfound
      exact (hbackup.finds_reduced hnext hrest).congr fun _ ↦ covers_backup
    refine Yields.searchWithin h.weighed.linked
      (ends_reduce_reducesIn config hbackup.weighed.linked hbackup.weighed.settled)
      (fun chosen next hnext hempty ↦ ?_) (fun chosen next hnext hempty ↦ ?_)
      fun chosen next hnext hempty ↦ ?_
    all_goals have hnode := hbackup.reduced hnext.reduces
    · exact (yields_closeLeaf hnode.weighed hempty hlimit depth).imp fun _ ↦ hfound hnext
    · exact (yields_isCutOff hnode hlimit depth).imp
        fun _ hcut htrue ↦ hfound hnext ⟨none, rfl, hcut htrue⟩
    · exact (yields_branch (ih (depth + 1)) hnode hempty hlimit depth).imp fun _ ↦ hfound hnext

theorem yields_search (h : matrix.Compared config amountOf cost base)
    (hlimit : IsLimit best limit) (depth : Nat) :
    Yields (search config cost best depth) matrix (Finds amountOf base limit matrix.Covers)
      fun _ ↦ True :=
  Yields.table (explores_searchWithin config _ depth h hlimit)

/-- A cover that solving answers with is a cheapest one. -/
theorem yields_solve (h : matrix.Compared config amountOf (Cost.zero : κ) 0) :
    Yields (solve config) matrix (fun answer ↦
      ∀ cover, answer = .cover cover → Cheapest amountOf 0 matrix.Covers cover) fun _ ↦ True := by
  have hsearch := @yields_search _ _ _ _ _ _ _ none ⊤ _ h rfl 0
  apply (Yields.solve hsearch fun _ ↦ trivial).imp
  rintro answer hanswer cover rfl
  exact (hanswer.2 cover rfl).1

end Workbench

/-! ## Solving -/

namespace Matrix

variable {matrix : Matrix κ} {amountOf : Nat → Amount κ} {cover : Cover κ}

/-- The total cost of columns, added in the given order. -/
def totalCost (matrix : Matrix κ) (columns : List Nat) : κ :=
  Cost.sumFrom Cost.zero (columns.map matrix.costOf)

/-- The columns cover the active rows at the given cost, and no active columns that do so have a lower
total. -/
structure Optimal (matrix : Matrix κ) (cover : Cover κ) : Prop where
  nodup : cover.columns.Nodup
  covers : matrix.Covers cover.columns.toFinset
  cost_eq : cover.cost = matrix.totalCost cover.columns
  least : ∀ columns : List Nat, columns.Nodup → matrix.Covers columns.toFinset →
    cover.cost ≤ matrix.totalCost columns

variable [LawfulCost κ]

/-- A search starts with nothing spent. -/
theorem Priced.node (hpriced : matrix.Priced amountOf) (h : matrix.Linked)
    (hsettled : matrix.Settled) : matrix.Node amountOf (Cost.zero : κ) 0 where
  linked := h
  settled := hsettled
  stands := hpriced.stands
  spent := stands_zero
  fits := by
    rw [zero_add]
    exact hpriced.fits

/-- Costs that add up make a total that stands for what the columns amount to. -/
theorem Linked.stands_totalCost (h : matrix.Linked)
    (hadds : ∀ column, matrix.isActive (.column column) = true →
      Adds (matrix.costOf column) (amountOf column))
    (hfits : (Amount.total amountOf matrix.columnSet).Fits) {columns : List Nat}
    (hnodup : columns.Nodup)
    (hactive : ∀ column ∈ columns, matrix.isActive (.column column) = true) :
    Stands (matrix.totalCost columns) (Amount.total amountOf columns.toFinset) := by
  have hsubset : columns.toFinset ⊆ matrix.columnSet := fun column hcolumn ↦
    h.mem_columnSet.mpr (hactive column (List.mem_toFinset.mp hcolumn))
  have hless := hfits.of_le (Amount.total_le_of_subset hsubset)
  rw [Amount.total_toFinset hnodup] at hless ⊢
  exact stands_sum (fun column hcolumn ↦ hadds column (hactive column hcolumn)) hless

theorem Priced.stands_totalCost (hpriced : matrix.Priced amountOf) (h : matrix.Linked)
    {columns : List Nat} (hnodup : columns.Nodup) (hcovers : matrix.Covers columns.toFinset) :
    Stands (matrix.totalCost columns) (Amount.total amountOf columns.toFinset) :=
  h.stands_totalCost (fun column hcolumn ↦ (hpriced.stands column hcolumn).adds) hpriced.fits hnodup
    fun column hcolumn ↦ hcovers.active column (List.mem_toFinset.mpr hcolumn)

theorem Priced.optimal (hpriced : matrix.Priced amountOf) (h : matrix.Linked)
    (hcheapest : Cheapest amountOf 0 matrix.Covers cover) : matrix.Optimal cover := by
  have hstands := hcheapest.stands
  rw [zero_add] at hstands
  refine ⟨hcheapest.nodup, hcheapest.isEligible, ?_, fun columns hnodup hcovers ↦ ?_⟩
  · exact hstands.unique (hpriced.stands_totalCost h hcheapest.nodup hcheapest.isEligible)
  · have hle := WithTop.coe_le_coe.mp (hcheapest.least columns.toFinset hcovers)
    rw [zero_add, zero_add] at hle
    exact (hstands.le_iff (hpriced.stands_totalCost h hnodup hcovers)).mpr hle

end Matrix

namespace Workbench

open SetCover.Matrix

variable [LawfulCost κ] {matrix : Matrix κ} {amountOf : Nat → Amount κ}

omit [LawfulCost κ] in
/-- Solving answers with a cover unless some row has no cells. -/
theorem exists_solve (config : Config) (h : matrix.Intact) (hcovered : matrix.uncoverable? = none)
    (stats : Stats) (journal : Journal κ) :
    ∃ cover, Calls.answer (solve config) ⟨matrix, stats, journal⟩ = .ok (.cover cover) := by
  obtain ⟨answer, hanswer, -, hcover⟩ :=
    (completes_solve config h.linked h.settled).exists_answer stats journal
  obtain ⟨cover, rfl⟩ := hcover hcovered
  exact ⟨cover, hanswer⟩

omit [LawfulCost κ] in
theorem solve_eq_uncoverable {row : Nat} (h : matrix.Intact)
    (huncoverable : matrix.uncoverable? = some row) (config : Config) (stats : Stats)
    (journal : Journal κ) :
    Calls.answer (solve config) ⟨matrix, stats, journal⟩ = .ok (.uncoverable row) := by
  obtain ⟨answer, hanswer, hrow, -⟩ :=
    (completes_solve config h.linked h.settled).exists_answer stats journal
  rw [hanswer, hrow row huncoverable]

omit [LawfulCost κ] in
theorem uncoverable?_of_solve {config : Config} (h : matrix.Intact) {stats : Stats}
    {journal : Journal κ} {cover : Cover κ}
    (hsolve : Calls.answer (solve config) ⟨matrix, stats, journal⟩ = .ok (.cover cover)) :
    matrix.uncoverable? = none := by
  have hanswer := Yields.of_answer (completes_solve config h.linked h.settled) hsolve
  cases huncoverable : matrix.uncoverable? with
  | none => rfl
  | some row => cases hanswer.1 row huncoverable

theorem cheapest_of_solve {config : Config} (h : matrix.Intact) (hpriced : matrix.Priced amountOf)
    {stats : Stats} {journal : Journal κ} {cover : Cover κ}
    (hsolve : Calls.answer (solve config) ⟨matrix, stats, journal⟩ = .ok (.cover cover)) :
    Cheapest amountOf 0 matrix.Covers cover :=
  (yields_solve ((hpriced.node h.linked h.settled).compared config)).of_answer hsolve cover rfl

/-- If the costs of the active columns are whole and add up exactly, a cover that solving answers with
is a cheapest one, and every setting leads to a cover of the same cost. -/
theorem optimal_of_solve (h : matrix.Reachable) (hpriced : matrix.Priced amountOf) (config : Config)
    (stats : Stats) (journal : Journal κ) {cover : Cover κ}
    (hsolve : Calls.answer (solve config) ⟨matrix, stats, journal⟩ = .ok (.cover cover)) :
    matrix.Optimal cover ∧ ∀ (other : Config) (stats : Stats) (journal : Journal κ),
      ∃ found, Calls.answer (solve other) ⟨matrix, stats, journal⟩ = .ok (.cover found) ∧
        matrix.Optimal found ∧ found.cost = cover.cost := by
  have hintact := h.intact
  have hcheapest := cheapest_of_solve hintact hpriced hsolve
  refine ⟨hpriced.optimal hintact.linked hcheapest, fun other stats journal ↦ ?_⟩
  obtain ⟨found, hfound⟩ :=
    exists_solve other hintact (uncoverable?_of_solve hintact hsolve) stats journal
  have hother := cheapest_of_solve hintact hpriced hfound
  exact ⟨found, hfound, hpriced.optimal hintact.linked hother, hcheapest.cost_eq hother⟩

/-- Two columns of cost one are cheaper than one of cost three, and the row that is deleted behind a
marker needs no column. -/
theorem optimal_of_solve_pending :
    let bench := Operation.afterAll [.insert 0 0, .insert 1 1, .insert 0 2, .insert 1 2, .insert 2 0,
      .setCost 2 0 3.0, .backup, .delete (.row 2)] (Workbench.blank SingleCost 3 3 false)
    Calls.answer (solve .exhaustive) bench = .ok (.cover ⟨⟨2.0⟩, [0, 1]⟩) ∧
      bench.matrix.Optimal ⟨⟨2.0⟩, [0, 1]⟩ ∧
      ∃ found, Calls.answer (solve .full) bench = .ok (.cover found) ∧ found.cost = ⟨2.0⟩ := by
  intro bench
  have hreachable : bench.matrix.Reachable := reachable_afterAll_blank 3 3 false _
  obtain ⟨hactive, hcosts, hsolve⟩ : bench.matrix.activeColumns = [0, 1, 2] ∧
      (∀ column ∈ [0, 1, 2], Cost.components (bench.matrix.costOf column) =
        [Float.ofNat (if column = 2 then 3 else 1)]) ∧
      Calls.answer (solve .exhaustive) bench = .ok (.cover ⟨⟨2.0⟩, [0, 1]⟩) := by
    decide +kernel
  clear_value bench
  have hpriced : bench.matrix.Priced fun column _ ↦ if column = 2 then 3 else 1 := by
    refine ⟨fun column hcolumn ↦ ⟨?_, fun _ ↦ ?_⟩, ?_⟩
    · have hmem : column ∈ bench.matrix.activeColumns := hreachable.intact.linked.mem_active.mp hcolumn
      rw [hactive] at hmem
      exact hcosts column hmem
    · split <;> decide
    · rw [columnSet, hactive]
      unfold Amount.Fits
      decide +kernel
  obtain ⟨hoptimal, hothers⟩ :=
    optimal_of_solve hreachable hpriced .exhaustive bench.stats bench.journal hsolve
  obtain ⟨found, hfound, -, hcost⟩ := hothers .full bench.stats bench.journal
  exact ⟨hsolve, hoptimal, found, hfound, hcost⟩

end Workbench

end SetCover

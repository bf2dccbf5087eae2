import SetCover.Proofs.Search.Covers

/-!
# What covers amount to

A set of columns amounts to the sum of what its columns cost.  A reduction goes on with columns that
have not been chosen yet, every cover of what is left is one of the whole with the chosen columns, and
no cover of the whole is cheaper than the best one that comes about in this way.
-/

namespace SetCover

variable {κ : Type}

namespace Matrix

variable {start matrix : Matrix κ} {chosen : List Nat}

/-! ## Chosen columns -/

/-- The chosen columns are different active ones, and they are gone. -/
structure Chosen (start matrix : Matrix κ) (chosen : List Nat) : Prop where
  nodup : chosen.Nodup
  active : ∀ column ∈ chosen, start.isActive (.column column) = true
  gone : ∀ column ∈ chosen, matrix.isActive (.column column) = false

theorem Chosen.nil (start matrix : Matrix κ) : Chosen start matrix [] :=
  ⟨List.nodup_nil, by simp, by simp⟩

theorem Chosen.mono {next : Matrix κ} (h : Chosen start matrix chosen) (hmatrix : matrix.Linked)
    (hremoves : Removes matrix next) : Chosen start next chosen where
  nodup := h.nodup
  active := h.active
  gone column hcolumn := by
    have hgone := h.gone column hcolumn
    rw [Bool.eq_false_iff] at hgone ⊢
    exact fun hactive ↦ hgone (hremoves.isActive_of hmatrix hactive)

theorem Chosen.append {next : Matrix κ} {column : Nat} (h : Chosen start matrix chosen)
    (hmatrix : matrix.Linked) (hstart : start.isActive (.column column) = true)
    (hactive : matrix.isActive (.column column) = true) (hremoves : Removes matrix next)
    (hgone : next.isActive (.column column) = false) : Chosen start next (chosen ++ [column]) := by
  have hkept := h.mono hmatrix hremoves
  refine ⟨?_, fun other hother ↦ ?_, fun other hother ↦ ?_⟩
  · rw [List.nodup_append]
    refine ⟨h.nodup, List.nodup_singleton column, fun first hfirst second hsecond heq ↦ ?_⟩
    obtain rfl : first = column := heq.trans (List.mem_singleton.mp hsecond)
    exact ne_true_of_eq_false (h.gone first hfirst) hactive
  · rcases List.mem_append.mp hother with hother | hother
    · exact h.active other hother
    · rw [List.mem_singleton.mp hother]
      exact hstart
  · rcases List.mem_append.mp hother with hother | hother
    · exact hkept.gone other hother
    · rw [List.mem_singleton.mp hother]
      exact hgone

theorem chosen_selected {column : Nat} (h : matrix.Linked) (hsettled : matrix.Settled)
    (hactive : matrix.isActive (.column column) = true) :
    Chosen matrix (matrix.selected column) [column] where
  nodup := List.nodup_singleton column
  active other hother := by
    rwa [List.mem_singleton.mp hother]
  gone other hother := by
    rw [List.mem_singleton.mp hother]
    exact isActive_column_selected h hsettled hactive

theorem Linked.spare_of_dominator {column dominator : Nat} (h : matrix.Linked)
    (hactive : matrix.isActive (.column column) = true)
    (hdominator : matrix.isActive (.column dominator) = true) (hne : column ≠ dominator)
    (hsubset : ∀ row ∈ matrix.rowsOf column, row ∈ matrix.rowsOf dominator) :
    matrix.Spare column := by
  intro row hrow
  have hrowActive := ((h.mem_rowsOf_iff hactive).mp hrow).2
  have hcrosses := ((h.mem_rowsOf_iff hdominator).mp (hsubset row hrow)).1
  exact ⟨dominator, (h.mem_columnsOf_iff hrowActive).mpr ⟨hcrosses, hdominator⟩, hne.symm⟩

end Matrix

/-! ## Sums of amounts -/

variable [Cost κ]

namespace Amount

variable {amountOf : Nat → Amount κ} {first second third : Amount κ}
  {columns others : Finset Nat} {column : Nat}

/-- What a set of columns amounts to. -/
def total (amountOf : Nat → Amount κ) (columns : Finset Nat) : Amount κ :=
  ∑ column ∈ columns, amountOf column

@[simp]
theorem total_empty : total amountOf ∅ = 0 := Finset.sum_empty

theorem total_singleton_union (hcolumn : column ∉ columns) :
    total amountOf ({column} ∪ columns) = amountOf column + total amountOf columns := by
  rw [total, Finset.sum_union (Finset.disjoint_singleton_left.mpr hcolumn), Finset.sum_singleton,
    total]

theorem total_union (hdisjoint : Disjoint columns others) :
    total amountOf (columns ∪ others) = total amountOf columns + total amountOf others :=
  Finset.sum_union hdisjoint

theorem total_le_of_subset (hsubset : columns ⊆ others) :
    total amountOf columns ≤ total amountOf others := by
  intro index
  rw [total, total, Finset.sum_apply, Finset.sum_apply]
  exact Finset.sum_le_sum_of_subset hsubset

theorem total_toFinset {columns : List Nat} (hnodup : columns.Nodup) :
    total amountOf columns.toFinset = (columns.map amountOf).sum := by
  rw [total, List.sum_toFinset _ hnodup]

theorem toLex_add_le (h : toLex second ≤ toLex third) :
    toLex (first + second) ≤ toLex (first + third) :=
  add_le_add (le_refl (toLex first)) h

theorem toLex_le (h : first ≤ second) : toLex first ≤ toLex second := Pi.toLex_monotone h

theorem toLex_sum_le {elements : List Nat} {firstOf secondOf : Nat → Amount κ}
    (h : ∀ element ∈ elements, toLex (firstOf element) ≤ toLex (secondOf element)) :
    toLex (elements.map firstOf).sum ≤ toLex (elements.map secondOf).sum := by
  induction elements with
  | nil => exact le_refl _
  | cons first rest ih =>
    rw [List.map_cons, List.map_cons, List.sum_cons, List.sum_cons]
    exact add_le_add (h first (by simp)) (ih fun element hmem ↦ h element (by simp [hmem]))

theorem toLex_total_union_erase_le {dominator : Nat} (hcolumn : column ∈ columns)
    (hcheaper : toLex (amountOf dominator) ≤ toLex (amountOf column)) :
    toLex (total amountOf ({dominator} ∪ columns.erase column)) ≤ toLex (total amountOf columns) := by
  by_cases hmem : dominator ∈ columns.erase column
  · rw [Finset.union_eq_right.mpr (Finset.singleton_subset_iff.mpr hmem)]
    exact toLex_le (total_le_of_subset (Finset.erase_subset column columns))
  · calc toLex (total amountOf ({dominator} ∪ columns.erase column))
        = toLex (amountOf dominator + total amountOf (columns.erase column)) := by
          rw [total_singleton_union hmem]
      _ ≤ toLex (amountOf column + total amountOf (columns.erase column)) :=
          add_le_add hcheaper (le_refl (toLex (total amountOf (columns.erase column))))
      _ = toLex (total amountOf columns) :=
          congrArg toLex (Finset.add_sum_erase columns amountOf hcolumn)

end Amount

namespace Matrix

variable {start matrix : Matrix κ} {chosen : List Nat} {amountOf : Nat → Amount κ}
  {columns : Finset Nat}

/-! ## Reductions -/

/-- The order of the costs of active columns never goes against that of the amounts. -/
def Ordered (matrix : Matrix κ) (amountOf : Nat → Amount κ) : Prop :=
  ∀ column other, matrix.isActive (.column column) = true → matrix.isActive (.column other) = true →
    matrix.costOf column ≤ matrix.costOf other → toLex (amountOf column) ≤ toLex (amountOf other)

theorem ordered_of_stands [LawfulCost κ] (h : ∀ column, matrix.isActive (.column column) = true →
    Stands (matrix.costOf column) (amountOf column)) : matrix.Ordered amountOf :=
  fun column other hcolumn hother ↦ ((h column hcolumn).le_iff (h other hother)).mp

theorem Removes.costOf_eq (h : Removes start matrix) : matrix.costOf = start.costOf := by
  funext column
  rw [costOf, costOf, h.costs_eq]

theorem Ordered.of_removes (h : start.Ordered amountOf) (hstart : start.Linked)
    (hremoves : Removes start matrix) : matrix.Ordered amountOf := by
  intro column other hcolumn hother hle
  rw [hremoves.costOf_eq] at hle
  exact h column other (hremoves.isActive_of hstart hcolumn) (hremoves.isActive_of hstart hother) hle

namespace Reduces

theorem removes (h : Reduces start chosen matrix) (hstart : start.Linked) (hsettled : start.Settled) :
    Removes start matrix :=
  ((h.deletes hstart hsettled).removes hstart hsettled).1

theorem chosen_gone (h : Reduces start chosen matrix) (hstart : start.Linked) (hsettled : start.Settled) :
    Chosen start matrix chosen := by
  induction h with
  | refl => exact .nil start start
  | row hprior hactive _ _ _ ih =>
    have hlinked := hprior.linked hstart hsettled
    exact ih.mono hlinked (removes_deleted hlinked hactive).1
  | column hprior hactive _ _ _ _ ih =>
    have hlinked := hprior.linked hstart hsettled
    exact ih.mono hlinked (removes_deleted hlinked hactive).1
  | essential hprior hactive honly ih =>
    have hlinked := hprior.linked hstart hsettled
    have hsettledNow := hprior.settled hstart hsettled
    have hcolumn := hlinked.isActive_of_columnsOf hactive honly
    exact ih.append hlinked ((hprior.removes hstart hsettled).isActive_of hstart hcolumn) hcolumn
      (removes_selected hlinked hsettledNow hcolumn)
      (isActive_column_selected hlinked hsettledNow hcolumn)

/-- With the chosen columns, a cover of what is left is one of the whole. -/
theorem covers (h : Reduces start chosen matrix) (hstart : start.Linked) (hsettled : start.Settled)
    (hcovers : matrix.Covers columns) : start.Covers (chosen.toFinset ∪ columns) := by
  induction h generalizing columns with
  | refl => simpa using hcovers
  | row hprior hactive hcontained hne hsubset ih =>
    exact ih (hcovers.of_deletedRow (hprior.linked hstart hsettled)
      (hprior.settled hstart hsettled) hactive hcontained hne hsubset)
  | column hprior hactive hdominator hne hsubset _ ih =>
    have hlinked := hprior.linked hstart hsettled
    exact ih (hcovers.of_deletedColumn hlinked (hprior.settled hstart hsettled) hactive
      (hlinked.spare_of_dominator hactive hdominator hne hsubset))
  | essential hprior hactive honly ih =>
    have hlinked := hprior.linked hstart hsettled
    have hcolumn := hlinked.isActive_of_columnsOf hactive honly
    have hboth := ih (hcovers.of_selected hlinked (hprior.settled hstart hsettled) hcolumn).2
    rwa [List.toFinset_append, List.toFinset_cons, List.toFinset_nil, insert_empty_eq,
      Finset.union_assoc]

theorem costOf_eq (h : Reduces start chosen matrix) (hstart : start.Linked)
    (hsettled : start.Settled) : matrix.costOf = start.costOf :=
  (h.removes hstart hsettled).costOf_eq

/-- Every cover of the whole leads to a cover of what is left that, with the chosen columns, is no
dearer. -/
theorem exists_covers (h : Reduces start chosen matrix) (hstart : start.Linked)
    (hsettled : start.Settled) (hordered : start.Ordered amountOf) (hcovers : start.Covers columns) :
    ∃ rest, matrix.Covers rest ∧ toLex ((chosen.map amountOf).sum + Amount.total amountOf rest) ≤
      toLex (Amount.total amountOf columns) := by
  induction h with
  | refl => exact ⟨columns, hcovers, by simp⟩
  | @row chosen matrix row contained hprior hactive hcontained hne hsubset ih =>
    obtain ⟨rest, hrest, hle⟩ := ih
    refine ⟨_, hrest.deletedRow (hprior.linked hstart hsettled) (hprior.settled hstart hsettled)
      hactive, ?_⟩
    calc toLex ((chosen.map amountOf).sum + Amount.total amountOf
          (rest ∩ (matrix.deleted (.row row)).columnSet))
        ≤ toLex ((chosen.map amountOf).sum + Amount.total amountOf rest) :=
          Amount.toLex_add_le (Amount.toLex_le (Amount.total_le_of_subset Finset.inter_subset_left))
      _ ≤ toLex (Amount.total amountOf columns) := hle
  | @column chosen matrix column dominator hprior hactive hdominator hne hsubset hcheaper ih =>
    obtain ⟨rest, hrest, hle⟩ := ih
    have hlinked := hprior.linked hstart hsettled
    have hremoves := hprior.removes hstart hsettled
    have hspare := hlinked.spare_of_dominator hactive hdominator hne hsubset
    by_cases hmem : column ∈ rest
    · have hless : toLex (amountOf dominator) ≤ toLex (amountOf column) := by
        rw [hprior.costOf_eq hstart hsettled] at hcheaper
        exact hordered dominator column (hremoves.isActive_of hstart hdominator)
          (hremoves.isActive_of hstart hactive) hcheaper
      have hnew : column ∉ {dominator} ∪ rest.erase column := by simp [hne]
      refine ⟨{dominator} ∪ rest.erase column, (hrest.replace hlinked hactive hdominator
        hsubset).deletedColumn hlinked (hprior.settled hstart hsettled) hactive hspare hnew, ?_⟩
      calc toLex ((chosen.map amountOf).sum + Amount.total amountOf ({dominator} ∪ rest.erase column))
          ≤ toLex ((chosen.map amountOf).sum + Amount.total amountOf rest) :=
            Amount.toLex_add_le (Amount.toLex_total_union_erase_le hmem hless)
        _ ≤ toLex (Amount.total amountOf columns) := hle
    · exact ⟨rest, hrest.deletedColumn hlinked (hprior.settled hstart hsettled) hactive hspare hmem,
        hle⟩
  | @essential chosen matrix row column hprior hactive honly ih =>
    obtain ⟨rest, hrest, hle⟩ := ih
    have hlinked := hprior.linked hstart hsettled
    have hsettledNow := hprior.settled hstart hsettled
    have hcolumn := hlinked.isActive_of_columnsOf hactive honly
    have hmem := hrest.mem_of_only hlinked hactive honly
    obtain ⟨hnew, hsubset⟩ := union_inter_selected_subset hlinked hsettledNow hcolumn hmem
    refine ⟨_, hrest.selected hlinked hsettledNow hcolumn, ?_⟩
    calc toLex (((chosen ++ [column]).map amountOf).sum +
          Amount.total amountOf (rest ∩ (matrix.selected column).columnSet))
        = toLex ((chosen.map amountOf).sum + Amount.total amountOf
            ({column} ∪ rest ∩ (matrix.selected column).columnSet)) := by
          rw [List.map_append, List.sum_append, List.map_singleton, List.sum_singleton, add_assoc,
            Amount.total_singleton_union hnew]
      _ ≤ toLex ((chosen.map amountOf).sum + Amount.total amountOf rest) :=
          Amount.toLex_add_le (Amount.toLex_le (Amount.total_le_of_subset hsubset))
      _ ≤ toLex (Amount.total amountOf columns) := hle

end Reduces

end Matrix

end SetCover

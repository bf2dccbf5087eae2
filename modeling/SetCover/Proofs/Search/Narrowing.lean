import SetCover.Proofs.Reachable
import SetCover.Proofs.Search.Covers

/-!
# Reductions that keep every cover

Without column dominance a reduction takes no column away that a cover could use: rows are deleted, and
a column is chosen if it is the only one of a row.  So every cover of the whole contains the chosen
columns together with a cover of what is left.
-/

namespace SetCover

variable {κ : Type}

namespace Matrix

variable {start matrix next : Matrix κ} {first second chosen : List Nat} {columns : Finset Nat}
  {row column : Nat}

theorem Covers.exists_selected (h : matrix.Linked) (hsettled : matrix.Settled)
    (hactive : matrix.isActive (.column column) = true) (hcovers : matrix.Covers columns)
    (hmem : column ∈ columns) :
    ∃ rest, (matrix.selected column).Covers rest ∧ [column].toFinset ∪ rest ⊆ columns := by
  refine ⟨_, hcovers.selected h hsettled hactive, ?_⟩
  rw [List.toFinset_cons, List.toFinset_nil, insert_empty_eq]
  exact (union_inter_selected_subset h hsettled hactive hmem).2

/-- Lines were deleted, and every cover of the whole contains the chosen columns and a cover of what is
left. -/
structure Narrows (start : Matrix κ) (chosen : List Nat) (next : Matrix κ) : Prop where
  deletes : Deletes start next
  exists_covers : ∀ columns, start.Covers columns →
    ∃ rest, next.Covers rest ∧ chosen.toFinset ∪ rest ⊆ columns

namespace Narrows

theorem refl : Narrows start [] start where
  deletes := .refl
  exists_covers columns hcovers := ⟨columns, hcovers, by simp⟩

theorem trans (h : Narrows start first matrix) (hnext : Narrows matrix second next) :
    Narrows start (first ++ second) next where
  deletes := h.deletes.trans hnext.deletes
  exists_covers columns hcovers := by
    obtain ⟨others, hothers, hfirst⟩ := h.exists_covers columns hcovers
    obtain ⟨rest, hrest, hsecond⟩ := hnext.exists_covers others hothers
    refine ⟨rest, hrest, ?_⟩
    rw [List.toFinset_append, Finset.union_assoc]
    exact (Finset.union_subset_union_right hsecond).trans hfirst

theorem linked (h : Narrows start chosen next) (hstart : start.Linked) (hsettled : start.Settled) :
    next.Linked :=
  h.deletes.linked hstart hsettled

theorem settled (h : Narrows start chosen next) (hstart : start.Linked) (hsettled : start.Settled) :
    next.Settled :=
  h.deletes.settled hstart hsettled

theorem deletedRow (h : matrix.Linked) (hsettled : matrix.Settled)
    (hactive : matrix.isActive (.row row) = true) :
    Narrows matrix [] (matrix.deleted (.row row)) where
  deletes := .delete .refl hactive
  exists_covers columns hcovers := by
    refine ⟨_, hcovers.deletedRow h hsettled hactive, ?_⟩
    rw [List.toFinset_nil, Finset.empty_union]
    exact Finset.inter_subset_left

theorem essential (h : matrix.Linked) (hsettled : matrix.Settled)
    (hactive : matrix.isActive (.row row) = true) (honly : matrix.columnsOf row = [column]) :
    Narrows matrix [column] (matrix.selected column) where
  deletes := (allDeleted_selected h hsettled (h.isActive_of_columnsOf hactive honly)).2.deletes
  exists_covers _ hcovers :=
    hcovers.exists_selected h hsettled (h.isActive_of_columnsOf hactive honly)
      (hcovers.mem_of_only h hactive honly)

end Narrows

end Matrix

namespace Workbench

open SetCover.Matrix

variable {matrix : Matrix κ}

/-! ## The rules -/

/-- Deleted rows keep every cover, whether they contain another row or not. -/
theorem narrows_deleteRowsDominatedBy (h : matrix.Linked) (hsettled : matrix.Settled) (row : Nat) :
    Ends (deleteRowsDominatedBy row) matrix (fun _ next ↦ Narrows matrix [] next)
      fun _ _ ↦ True := by
  apply Ends.table
  split
  · refine (Ends.forM (fun _ next ↦ Narrows matrix [] next) (fun other others next hnext ↦ ?_)
      Narrows.refl).andThen fun _ next hnext ↦ Ends.pure hnext
    have hlinked := hnext.linked h hsettled
    refine Ends.bind (Ends.note (Ends.bind ?_))
    cases hactive : next.isActive (.row other) with
    | true =>
      exact ends_delete hlinked hactive (Ends.count
        (hnext.trans (.deletedRow hlinked (hnext.settled h hsettled) hactive)))
    | false =>
      exact ends_reportingDeletions (.of_error (delete_of_not_isActive hactive) trivial)
  · exact Ends.pure .refl

theorem narrows_rowDominance (h : matrix.Linked) (hsettled : matrix.Settled) :
    Ends rowDominance matrix (fun _ next ↦ Narrows matrix [] next) fun _ _ ↦ True := by
  refine Ends.table ((Ends.foldlM (fun _ _ next ↦ Narrows matrix [] next)
    (fun row others deleted next hnext ↦ ?_) Narrows.refl).andThen fun _ _ hdone ↦ Ends.pure hdone)
  exact (narrows_deleteRowsDominatedBy (hnext.linked h hsettled) (hnext.settled h hsettled)
    row).andThen fun _ _ hdone ↦ Ends.pure (hnext.trans hdone)

theorem narrows_essentialColumns (h : matrix.Linked) (hsettled : matrix.Settled) :
    Ends essentialColumns matrix (fun reduction next ↦ Narrows matrix reduction.selected next)
      fun _ _ ↦ True :=
  (ends_essentialColumns_of h hsettled .refl
    fun _ _ _ _ hdeletes hnext hactive honly ↦ hnext.trans
      (.essential (hdeletes.linked h hsettled) (hdeletes.settled h hsettled) hactive honly)).mono
    fun _ _ hdone ↦ hdone.2

/-! ## Rounds -/

section Rounds

variable [Cost κ] {config : Config}

/-- What every round does, and what two reductions in a row do if each of them does it, is done by the
whole reduction. -/
theorem ends_reduce_of {holds : Matrix κ → List Nat → Matrix κ → Prop}
    (hround : ∀ start : Matrix κ, start.Linked → start.Settled → Ends (reduceOnce config) start
      (fun reduction next ↦ holds start reduction.selected next) fun _ _ ↦ True)
    (htrans : ∀ {start middle last : Matrix κ} {first second : List Nat},
      holds start first middle → holds middle second last → holds start (first ++ second) last)
    (h : matrix.Linked) (hsettled : matrix.Settled) : Ends (reduce config) matrix
      (fun reduction next ↦ holds matrix reduction.selected next) fun _ _ ↦ True := by
  have hwithin (rounds : Nat) : Ends (reduceWithin config rounds) matrix
      (fun reduction next ↦ holds matrix reduction.selected next) fun _ _ ↦ True := by
    induction rounds generalizing matrix with
    | zero => exact Ends.throw trivial
    | succ rounds ih =>
      have hfirst := (@ends_reduceOnce _ _ _ (fun _ _ ↦ True) h hsettled config).and
        (hround matrix h hsettled)
      refine (hfirst.imp (fun _ _ hdone ↦ hdone) fun _ _ _ ↦ trivial).andThen
        fun first next hnext ↦ ?_
      obtain ⟨hshrinks, hholds⟩ := hnext
      split
      · exact (ih (hshrinks.linked h hsettled) (hshrinks.settled h hsettled)).andThen
          fun later last hlater ↦ Ends.pure (htrans hholds hlater)
      · exact Ends.pure hholds
  exact Ends.table (hwithin _)

theorem narrows_reduceOnce (hconfig : config.columnDominance = false) (h : matrix.Linked)
    (hsettled : matrix.Settled) : Ends (reduceOnce config) matrix
      (fun reduction next ↦ Narrows matrix reduction.selected next) fun _ _ ↦ True := by
  have hrows : Ends (if config.rowDominance then rowDominance else pure false) matrix
      (fun _ next ↦ Narrows matrix [] next) fun _ _ ↦ True := by
    split
    · exact narrows_rowDominance h hsettled
    · exact Ends.pure .refl
  rw [reduceOnce_eq, hconfig]
  refine hrows.andThen fun byRows next hnext ↦ ?_
  have hforced : Ends (if config.essentialColumns then essentialColumns else pure .unchanged) next
      (fun forced last ↦ Narrows next forced.selected last) fun _ _ ↦ True := by
    split
    · exact narrows_essentialColumns (hnext.linked h hsettled) (hnext.settled h hsettled)
    · exact Ends.pure .refl
  exact hforced.andThen fun _ _ hdone ↦ Ends.pure (hnext.trans hdone)

/-- A reduction without column dominance narrows every cover. -/
theorem narrows_reduce (hconfig : config.columnDominance = false) (h : matrix.Linked)
    (hsettled : matrix.Settled) : Ends (reduce config) matrix
      (fun reduction next ↦ Narrows matrix reduction.selected next) fun _ _ ↦ True :=
  ends_reduce_of (fun _ hlinked hsettled ↦ narrows_reduceOnce hconfig hlinked hsettled) Narrows.trans
    h hsettled

/-- A reduction without essential columns chooses none. -/
theorem selected_reduce (hconfig : config.essentialColumns = false) (h : matrix.Linked)
    (hsettled : matrix.Settled) : Ends (reduce config) matrix
      (fun reduction _ ↦ reduction.selected = []) fun _ _ ↦ True := by
  refine @ends_reduce_of _ _ _ _ (fun _ chosen _ ↦ chosen = []) (fun _ _ _ ↦ ?_)
    (fun hfirst hsecond ↦ ?_) h hsettled
  · rw [reduceOnce_eq, hconfig]
    exact (ends_true _ _).andThen fun _ _ _ ↦ (ends_true _ _).andThen fun _ _ _ ↦ Ends.pure rfl
  · rw [hfirst, hsecond, List.append_nil]

end Rounds

end Workbench

end SetCover

import Mathlib.Data.List.Permutation
import Mathlib.Order.Bounds.Defs
import SetCover.Proofs.Reachable
import SetCover.Proofs.Search.Covers
import SetCover.Proofs.Search.Sweep

/-!
# Essential columns are chosen once each

A column is essential if it is the only one of an active row.  The rows with a single column are listed
before any column is chosen.  A choice deletes the rows of a column and leaves the other rows their
columns, so a listed row is either still there with its single column, or its column has been chosen
for an earlier row.  So the essential columns are chosen, each for the first row that needs it, and no
further row is left with a single column.
-/

namespace SetCover

namespace Matrix

variable {κ : Type} {matrix next : Matrix κ} {passed chosen : List Nat} {row column : Nat}

/-- The column is the only one of the active row. -/
def Needs (matrix : Matrix κ) (row column : Nat) : Prop :=
  matrix.isActive (.row row) = true ∧ matrix.columnsOf row = [column]

instance : Decidable (matrix.Needs row column) :=
  inferInstanceAs (Decidable (matrix.isActive (.row row) = true ∧ matrix.columnsOf row = [column]))

theorem Needs.eq {other : Nat} (h : matrix.Needs row column) (hother : matrix.Needs row other) :
    column = other :=
  List.singleton_inj.mp (h.2.symm.trans hother.2)

theorem Linked.mem_singleRows_iff (h : matrix.Linked) :
    row ∈ matrix.singleRows ↔ ∃ column, matrix.Needs row column := by
  have hmem : row ∈ matrix.activeRows ↔ matrix.isActive (.row row) = true :=
    (@Linked.mem_active _ _ (.row row) h).symm
  rw [singleRows, List.mem_filter, hmem, decide_eq_true_iff]
  unfold Needs
  rw [exists_and_left]
  refine and_congr_right fun hactive ↦ ?_
  rw [← h.length_crossing (h.inRange_of_isActive hactive)]
  exact List.length_eq_one_iff

theorem Linked.singleRows_eq_nil_iff (h : matrix.Linked) :
    matrix.singleRows = [] ↔ ∀ row, matrix.isActive (.row row) = true →
      (matrix.columnsOf row).length ≠ 1 := by
  rw [List.eq_nil_iff_forall_not_mem]
  refine forall_congr' fun row ↦ ?_
  rw [h.mem_singleRows_iff]
  unfold Needs
  rw [exists_and_left, not_and, ← List.length_eq_one_iff]

/-- What is known when the rows passed, all of them rows with a single column, have been visited. -/
structure Visited (matrix : Matrix κ) (passed chosen : List Nat) (next : Matrix κ) : Prop where
  deletes : Deletes matrix next
  rows : ∀ row, next.isActive (.row row) = true ↔ matrix.isActive (.row row) = true ∧
    ∀ column ∈ chosen, column ∉ matrix.columnsOf row
  kept : ∀ row, matrix.InRange (.row row) → next.columnsOf row = matrix.columnsOf row
  mem_iff : ∀ column, column ∈ chosen ↔ ∃ row ∈ passed, matrix.Needs row column
  nodup : chosen.Nodup
  ordered : chosen.Pairwise fun first second ↦ ∀ other ∈ passed, matrix.Needs other second →
    ∃ row ∈ passed, matrix.Needs row first ∧ row < other

namespace Visited

theorem nil : matrix.Visited [] [] matrix where
  deletes := .refl
  rows row := by simp
  kept _ _ := rfl
  mem_iff column := by simp
  nodup := List.nodup_nil
  ordered := List.Pairwise.nil

/-- A column that was chosen is needed by a row before the next one. -/
theorem exists_needs_lt (h : matrix.Visited passed chosen next)
    (hafter : ∀ earlier ∈ passed, earlier < row) (hchosen : column ∈ chosen) :
    ∃ earlier ∈ passed ++ [row], matrix.Needs earlier column ∧ earlier < row := by
  obtain ⟨earlier, hearlier, hneeds⟩ := (h.mem_iff column).mp hchosen
  exact ⟨earlier, List.mem_append_left [row] hearlier, hneeds, hafter earlier hearlier⟩

/-- The earlier choices stay in order when a later row is passed. -/
theorem ordered_concat (h : matrix.Visited passed chosen next)
    (hafter : ∀ earlier ∈ passed, earlier < row) :
    chosen.Pairwise fun first second ↦ ∀ other ∈ passed ++ [row], matrix.Needs other second →
      ∃ earlier ∈ passed ++ [row], matrix.Needs earlier first ∧ earlier < other := by
  refine h.ordered.imp_of_mem fun {first second} hfirst _ hordered other hother hneeds ↦ ?_
  rcases List.mem_append.mp hother with hbefore | hlast
  · obtain ⟨earlier, hearlier, hless⟩ := hordered other hbefore hneeds
    exact ⟨earlier, List.mem_append_left [row] hearlier, hless⟩
  · obtain rfl := List.mem_singleton.mp hlast
    exact h.exists_needs_lt hafter hfirst

/-- A row whose column has been chosen before is passed. -/
theorem pass (h : matrix.Visited passed chosen next) (hneeds : matrix.Needs row column)
    (hafter : ∀ earlier ∈ passed, earlier < row) (hchosen : column ∈ chosen) :
    matrix.Visited (passed ++ [row]) chosen next where
  deletes := h.deletes
  rows := h.rows
  kept := h.kept
  mem_iff other := by
    refine (h.mem_iff other).trans ⟨fun ⟨earlier, hearlier, hother⟩ ↦ ?_, fun ⟨last, hlast, hother⟩ ↦ ?_⟩
    · exact ⟨earlier, List.mem_append_left [row] hearlier, hother⟩
    · rcases List.mem_append.mp hlast with hearlier | hrow
      · exact ⟨last, hearlier, hother⟩
      · obtain rfl := List.mem_singleton.mp hrow
        rw [← hneeds.eq hother]
        exact (h.mem_iff column).mp hchosen
  nodup := h.nodup
  ordered := h.ordered_concat hafter

/-- The column of a row that is left is chosen, and it is a new one. -/
theorem choose (h : matrix.Visited passed chosen next) (hmatrix : matrix.Linked)
    (hsettled : matrix.Settled) (hneeds : matrix.Needs row column)
    (hafter : ∀ earlier ∈ passed, earlier < row) (hrow : next.isActive (.row row) = true) :
    matrix.Visited (passed ++ [row]) (chosen ++ [column]) (next.selected column) := by
  have hlinked := h.deletes.linked hmatrix hsettled
  have hleft := h.deletes.settled hmatrix hsettled
  have honly : next.columnsOf row = [column] :=
    (h.kept row (hmatrix.inRange_of_isActive hneeds.1)).trans hneeds.2
  have hcolumn := hlinked.isActive_of_columnsOf hrow honly
  have hselected := (allDeleted_selected hlinked hleft hcolumn).2
  have hnew : column ∉ chosen := by
    intro hchosen
    apply ((h.rows row).mp hrow).2 column hchosen
    rw [hneeds.2]
    exact List.mem_singleton_self column
  have hrows {other : Nat} (hother : next.isActive (.row other) = true) :
      other ∈ next.rowsOf column ↔ column ∈ matrix.columnsOf other := by
    have hbefore := hmatrix.inRange_of_isActive ((h.rows other).mp hother).1
    rw [← h.kept other hbefore]
    exact hlinked.mem_crossing_comm hother hcolumn
  refine ⟨h.deletes.trans hselected.deletes, fun other ↦ ?_, fun other hrange ↦ ?_, fun other ↦ ?_, ?_,
    ?_⟩
  · calc (next.selected column).isActive (.row other) = true
        ↔ next.isActive (.row other) = true ∧ other ∉ next.rowsOf column := hselected.parallel other
      _ ↔ next.isActive (.row other) = true ∧ column ∉ matrix.columnsOf other :=
        and_congr_right fun hother ↦ not_congr (hrows hother)
      _ ↔ matrix.isActive (.row other) = true ∧
          ∀ last ∈ chosen ++ [column], last ∉ matrix.columnsOf other := by
        rw [h.rows, and_assoc]
        simp only [List.forall_mem_append, List.forall_mem_singleton]
  · have hnext := (h.deletes.removes hmatrix hsettled).1.inRange_iff.mpr hrange
    exact (hselected.kept other hnext).trans (h.kept other hrange)
  · rw [List.mem_append, List.mem_singleton, h.mem_iff]
    constructor
    · rintro (⟨earlier, hearlier, hother⟩ | rfl)
      · exact ⟨earlier, List.mem_append_left [row] hearlier, hother⟩
      · exact ⟨row, List.mem_append_right passed (List.mem_singleton_self row), hneeds⟩
    · rintro ⟨last, hlast, hother⟩
      rcases List.mem_append.mp hlast with hearlier | hrow
      · exact .inl ⟨last, hearlier, hother⟩
      · obtain rfl := List.mem_singleton.mp hrow
        exact .inr (hother.eq hneeds)
  · exact List.nodup_append'.mpr ⟨h.nodup, List.nodup_singleton column, by simpa using hnew⟩
  · refine List.pairwise_append.mpr ⟨h.ordered_concat hafter, List.pairwise_singleton _ column, ?_⟩
    intro first hfirst second hsecond other hother hsecondNeeds
    obtain rfl := List.mem_singleton.mp hsecond
    rcases List.mem_append.mp hother with hearlier | hlast
    · exact absurd ((h.mem_iff second).mpr ⟨other, hearlier, hsecondNeeds⟩) hnew
    · obtain rfl := List.mem_singleton.mp hlast
      exact h.exists_needs_lt hafter hfirst

/-- When all rows with a single column have been visited, no such row is left. -/
theorem length_columnsOf_ne_one (h : matrix.Visited matrix.singleRows chosen next)
    (hmatrix : matrix.Linked) (hrow : next.isActive (.row row) = true) :
    (next.columnsOf row).length ≠ 1 := by
  intro hlength
  obtain ⟨hbefore, hchosen⟩ := (h.rows row).mp hrow
  obtain ⟨column, hcolumn⟩ := List.length_eq_one_iff.mp hlength
  rw [h.kept row (hmatrix.inRange_of_isActive hbefore)] at hcolumn
  have hsingle : row ∈ matrix.singleRows := hmatrix.mem_singleRows_iff.mpr ⟨column, hbefore, hcolumn⟩
  have hmem : column ∈ chosen := (h.mem_iff column).mpr ⟨row, hsingle, hbefore, hcolumn⟩
  apply hchosen column hmem
  rw [hcolumn]
  exact List.mem_singleton_self column

end Visited

end Matrix

namespace Workbench

open SetCover.Matrix

variable {κ : Type} {matrix next : Matrix κ} {passed rest chosen : List Nat} {row column : Nat}
  {reduction : Reduction}

/-! ## One pass -/

/-- Counts a column that was chosen. -/
def countEssential (stats : Stats) : Stats :=
  { stats with essentialColumns := stats.essentialColumns + 1 }

theorem countEssential_iterate (count : Nat) : countEssential^[count] = fun stats ↦
    { stats with essentialColumns := stats.essentialColumns + count } :=
  @iterate_eq_of_succ
    (fun count stats ↦ { stats with essentialColumns := stats.essentialColumns + count })
    rfl (fun _ ↦ rfl) count

theorem reaches_selectOnlyColumn (h : matrix.Linked) (hsettled : matrix.Settled)
    (hneeds : matrix.Needs row column) :
    Reaches (selectOnlyColumn row) matrix countEssential (.choosing [column])
      (matrix.selected column) := by
  apply Reaches.table
  rw [if_pos hneeds.1, hneeds.2]
  have hcolumn := h.isActive_of_columnsOf hneeds.1 hneeds.2
  let forced : Reduction := ⟨true, [column]⟩
  have hcounted : Reaches (do count countEssential; return forced) (matrix.selected column)
      (id ∘ countEssential) forced (matrix.selected column) :=
    (Reaches.count countEssential).bind (.pure forced)
  have hselected : Reaches (do select column; count countEssential; return forced) matrix
      ((id ∘ countEssential) ∘ id) forced (matrix.selected column) :=
    (Reaches.select h hsettled hcolumn).bind hcounted
  have hnoted : Reaches (do
      note (.columnEssential column row); select column; count countEssential; return forced) matrix
      (((id ∘ countEssential) ∘ id) ∘ id) forced (matrix.selected column) :=
    (Reaches.report _).bind hselected
  exact hnoted

theorem reaches_selectOnlyColumn_of_gone (hgone : ¬matrix.isActive (.row row) = true) :
    Reaches (selectOnlyColumn row) matrix id .unchanged matrix := by
  apply Reaches.table
  rw [if_neg hgone]
  exact Reaches.pure Reduction.unchanged

/-- One row is visited. -/
theorem exists_reaches_visited (h : matrix.Visited passed chosen next) (hmatrix : matrix.Linked)
    (hsettled : matrix.Settled) (hneeds : matrix.Needs row column)
    (hafter : ∀ earlier ∈ passed, earlier < row) : ∃ more last,
      Reaches (selectOnlyColumn row) next countEssential^[more.length] (.choosing more) last ∧
        matrix.Visited (passed ++ [row]) (chosen ++ more) last := by
  have hlinked := h.deletes.linked hmatrix hsettled
  have hkept := h.kept row (hmatrix.inRange_of_isActive hneeds.1)
  by_cases hrow : next.isActive (.row row) = true
  · exact ⟨[column], next.selected column,
      reaches_selectOnlyColumn hlinked (h.deletes.settled hmatrix hsettled) ⟨hrow, hkept.trans hneeds.2⟩,
      h.choose hmatrix hsettled hneeds hafter hrow⟩
  · have hchosen : column ∈ chosen := by
      have hcovered := mt (h.rows row).mpr hrow
      push Not at hcovered
      obtain ⟨other, hother, hmem⟩ := hcovered hneeds.1
      rw [hneeds.2, List.mem_singleton] at hmem
      exact hmem ▸ hother
    refine ⟨[], next, reaches_selectOnlyColumn_of_gone hrow, ?_⟩
    rw [List.append_nil]
    exact h.pass hneeds hafter hchosen

/-- The rows with a single column are visited one after the other, and a change is reported as soon as a
column has been chosen. -/
theorem exists_reaches_foldlM_visited (h : matrix.Visited passed chosen next) (hmatrix : matrix.Linked)
    (hsettled : matrix.Settled) (hrest : ∀ row ∈ rest, ∃ column, matrix.Needs row column)
    (hsorted : (passed ++ rest).Pairwise (· < ·)) : ∃ more last,
      Reaches (rest.foldlM (fun (reduction : Reduction) row ↦
          return reduction.andThen (← selectOnlyColumn row)) (.choosing chosen)) next
          countEssential^[more.length] (.choosing (chosen ++ more)) last ∧
        matrix.Visited (passed ++ rest) (chosen ++ more) last := by
  induction rest generalizing passed chosen next with
  | nil =>
    refine ⟨[], next, ?_, ?_⟩
    · rw [List.append_nil]
      exact Reaches.pure (Reduction.choosing chosen)
    · rwa [List.append_nil, List.append_nil]
  | cons row rest ih =>
    obtain ⟨column, hneeds⟩ := hrest row List.mem_cons_self
    have hafter (earlier : Nat) (hearlier : earlier ∈ passed) : earlier < row :=
      (List.pairwise_append.mp hsorted).2.2 earlier hearlier row List.mem_cons_self
    obtain ⟨more, middle, hstep, hvisited⟩ :=
      exists_reaches_visited h hmatrix hsettled hneeds hafter
    rw [List.append_cons] at hsorted
    obtain ⟨others, last, hlater, hlast⟩ := ih hvisited
      (fun other hother ↦ hrest other (List.mem_cons_of_mem row hother)) hsorted
    have hchange : countEssential^[(more ++ others).length] =
        countEssential^[others.length] ∘ countEssential^[more.length] := by
      rw [List.length_append, Nat.add_comm, Function.iterate_add]
    refine ⟨more ++ others, last, ?_, ?_⟩
    · rw [List.append_assoc] at hlater
      rw [List.foldlM_cons, hchange]
      refine (hstep.map (Reduction.choosing chosen).andThen).bind ?_
      rw [Reduction.choosing_andThen]
      exact hlater
    · rw [List.append_cons, ← List.append_assoc]
      exact hlast

theorem exists_reaches_essentialColumns (h : matrix.Linked) (hsettled : matrix.Settled) :
    ∃ chosen next,
      Reaches essentialColumns matrix countEssential^[chosen.length] (.choosing chosen) next ∧
      matrix.Visited matrix.singleRows chosen next := by
  have hsorted : ([] ++ matrix.singleRows).Pairwise (· < ·) := (h.lines .row).ascending.filter _
  obtain ⟨chosen, next, hrun, hvisited⟩ := exists_reaches_foldlM_visited .nil h hsettled
    (fun row hrow ↦ h.mem_singleRows_iff.mp hrow) hsorted
  exact ⟨chosen, next, Reaches.table hrun, hvisited⟩

/-- If no row has a single column, there is nothing to do. -/
theorem idles_essentialColumns (h : matrix.Linked)
    (hnone : ∀ row, matrix.isActive (.row row) = true → (matrix.columnsOf row).length ≠ 1) :
    Idles essentialColumns matrix .unchanged := by
  apply Idles.table
  rw [h.singleRows_eq_nil_iff.mpr hnone]
  exact .pure Reduction.unchanged

theorem reaches_reduceOnce_essentialColumns [Cost κ] {change : Stats → Stats}
    (h : Reaches essentialColumns matrix change reduction next) (bounded : Bool) :
    Reaches (reduceOnce ⟨false, false, true, bounded⟩) matrix change reduction next :=
  h.map fun forced ↦ (⟨forced.changed, forced.selected⟩ : Reduction)

theorem idles_reduceOnce_essentialColumns [Cost κ] (h : Idles essentialColumns matrix .unchanged)
    (bounded : Bool) : Idles (reduceOnce ⟨false, false, true, bounded⟩) matrix .unchanged :=
  h.bind (Idles.pure Reduction.unchanged)

/-- On every reachable table, the columns that are chosen are those that are the only one of an active
row, each of them once, in the order of the first rows that need them.  The rows that are left are those
without these columns; they keep their columns, and none of them has a single one.  As many columns are
counted as were chosen, a change is reported if there was one, by the rule itself and by a round of this
rule alone, and a second pass does nothing. -/
theorem essentialColumns_of_reachable [Cost κ] [LawfulCost κ] (h : matrix.Reachable) : ∃ chosen next,
    (Reaches essentialColumns matrix
        (fun stats ↦ { stats with essentialColumns := stats.essentialColumns + chosen.length })
        ⟨decide (0 < chosen.length), chosen⟩ next ∧
      ∀ bounded, Reaches (reduceOnce ⟨false, false, true, bounded⟩) matrix
        (fun stats ↦ { stats with essentialColumns := stats.essentialColumns + chosen.length })
        ⟨decide (0 < chosen.length), chosen⟩ next) ∧
      chosen.Nodup ∧
      (∀ column, column ∈ chosen ↔ ∃ row, matrix.Needs row column) ∧
      (chosen.Pairwise fun first second ↦ ∀ row other, IsLeast {row | matrix.Needs row first} row →
        IsLeast {row | matrix.Needs row second} other → row < other) ∧
      (∀ row, next.isActive (.row row) = true ↔ matrix.isActive (.row row) = true ∧
        ∀ column ∈ chosen, column ∉ matrix.columnsOf row) ∧
      (∀ row, next.isActive (.row row) = true →
        next.columnsOf row = matrix.columnsOf row ∧ (next.columnsOf row).length ≠ 1) ∧
      Idles essentialColumns next ⟨false, []⟩ ∧
      ∀ bounded, Idles (reduceOnce ⟨false, false, true, bounded⟩) next ⟨false, []⟩ := by
  obtain ⟨hlinked, hsettled⟩ : matrix.Linked ∧ matrix.Settled := ⟨h.intact.linked, h.intact.settled⟩
  obtain ⟨chosen, next, hrun, hvisited⟩ := exists_reaches_essentialColumns hlinked hsettled
  rw [countEssential_iterate] at hrun
  have hnext := hvisited.deletes.linked hlinked hsettled
  have hidles := idles_essentialColumns hnext
    fun row hrow ↦ hvisited.length_columnsOf_ne_one hlinked hrow
  refine ⟨chosen, next, ⟨hrun, reaches_reduceOnce_essentialColumns hrun⟩, hvisited.nodup,
    fun column ↦ ?_, hvisited.ordered.imp_of_mem ?_, hvisited.rows, fun row hrow ↦ ?_, hidles,
    idles_reduceOnce_essentialColumns hidles⟩
  · refine (hvisited.mem_iff column).trans ⟨fun ⟨row, _, hneeds⟩ ↦ ⟨row, hneeds⟩, ?_⟩
    rintro ⟨row, hneeds⟩
    exact ⟨row, hlinked.mem_singleRows_iff.mpr ⟨column, hneeds⟩, hneeds⟩
  · intro first second _ _ hordered row other hrow hother
    have hsingle := hlinked.mem_singleRows_iff.mpr ⟨second, hother.1⟩
    obtain ⟨earlier, -, hneeds, hless⟩ := hordered other hsingle hother.1
    exact (hrow.2 hneeds).trans_lt hless
  · have hrange := hlinked.inRange_of_isActive ((hvisited.rows row).mp hrow).1
    exact ⟨hvisited.kept row hrange, hvisited.length_columnsOf_ne_one hlinked hrow⟩

/-- A row lost its second column to a deletion behind a marker and needs the same column as the row
after it; a further row needs another column, and a row that needs none of them contains both. -/
theorem essentialColumns_of_reachable_pending :
    let bench := Operation.afterAll [.insert 0 2, .insert 1 0, .insert 1 1, .insert 2 0, .insert 3 0,
      .insert 3 2, .insert 4 1, .insert 4 3, .insert 4 4, .backup, .delete (.column 1)]
      (Workbench.blank SingleCost 5 5 false)
    ∃ chosen next, Reaches essentialColumns bench.matrix
        (fun stats ↦ { stats with essentialColumns := stats.essentialColumns + chosen.length })
        ⟨true, chosen⟩ next ∧
      chosen = [2, 0] ∧ (∀ row, next.isActive (.row row) = true ↔ row = 4) ∧
      next.columnsOf 4 = [3, 4] ∧ Idles essentialColumns next ⟨false, []⟩ := by
  intro bench
  have hreachable : bench.matrix.Reachable := reachable_afterAll_blank 5 5 false _
  obtain ⟨hactive, hlisted, hapart, hkept⟩ : bench.matrix.activeRows = [0, 1, 2, 3, 4] ∧
      (∀ row ∈ [0, 1, 2, 3, 4], bench.matrix.columnsOf row =
        [[2], [0], [0], [0, 2], [3, 4]].getD row []) ∧
      (∀ row ∈ [0, 1, 2, 3, 4],
        (∀ column ∈ [2, 0], column ∉ bench.matrix.columnsOf row) ↔ row = 4) ∧
      bench.matrix.columnsOf 4 = [3, 4] := by
    decide +kernel
  clear_value bench
  have hmem (row : Nat) : bench.matrix.isActive (.row row) = true ↔ row ∈ [0, 1, 2, 3, 4] :=
    hactive ▸ hreachable.intact.linked.mem_active
  have hneeds (row column : Nat) : bench.matrix.Needs row column ↔
      row = 0 ∧ column = 2 ∨ row = 1 ∧ column = 0 ∨ row = 2 ∧ column = 0 := by
    rw [Needs, hmem]
    refine (and_congr_right fun hrow ↦ by rw [hlisted row hrow]).trans ?_
    simp only [List.mem_cons, List.not_mem_nil, or_false]
    constructor
    · rintro ⟨rfl | rfl | rfl | rfl | rfl, honly⟩ <;> simp_all
    · rintro (⟨rfl, rfl⟩ | ⟨rfl, rfl⟩ | ⟨rfl, rfl⟩) <;> decide
  obtain ⟨chosen, next, ⟨hrun, -⟩, hnodup, hchosen, hordered, hrows, hleft, hidles, -⟩ :=
    essentialColumns_of_reachable hreachable
  have hperm : chosen.Perm [2, 0] := by
    refine (List.perm_ext_iff_of_nodup hnodup (by decide)).mpr fun column ↦ ?_
    simp only [hchosen, hneeds, List.mem_cons, List.not_mem_nil, or_false]
    grind
  have hfirst : chosen = [2, 0] := by
    refine (List.perm_pair.mp hperm).resolve_right ?_
    rintro rfl
    have hleast : IsLeast {row | bench.matrix.Needs row 0} 1 := by
      refine ⟨(hneeds 1 0).mpr (by decide), fun row hrow ↦ ?_⟩
      have hcases := (hneeds row 0).mp hrow
      omega
    have hother : IsLeast {row | bench.matrix.Needs row 2} 0 :=
      ⟨(hneeds 0 2).mpr (by decide), fun row _ ↦ Nat.zero_le row⟩
    exact absurd (List.rel_of_pairwise_cons hordered (List.mem_singleton_self 2) 1 0 hleast hother)
      (by decide)
  subst hfirst
  have hsurvives (row : Nat) : next.isActive (.row row) = true ↔ row = 4 := by
    rw [hrows, hmem]
    refine ⟨fun ⟨hrow, hnone⟩ ↦ (hapart row hrow).mp hnone, fun hrow ↦ ?_⟩
    have hmember : row ∈ [0, 1, 2, 3, 4] := by simp [hrow]
    exact ⟨hmember, (hapart row hmember).mpr hrow⟩
  exact ⟨[2, 0], next, hrun, rfl, hsurvives, (hleft 4 ((hsurvives 4).mpr rfl)).1.trans hkept, hidles⟩

end Workbench

end SetCover

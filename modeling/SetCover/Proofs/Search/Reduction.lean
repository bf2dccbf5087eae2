import SetCover.Proofs.Search.Workbench
import SetCover.Search.Reduction

/-!
# What the rules do to a table

A reduction goes in steps: a row is deleted that contains the columns of another row, a column is
deleted whose rows are among those of a column that is no dearer, or the only column of a row is
chosen.  Every rule, every round and the whole reduction are made of such steps.  None of them is ever
refused: a round that changes something leaves fewer lines, so the rounds suffice.
-/

namespace SetCover

namespace Reduction

/-- The columns, and whether there are any. -/
def choosing (chosen : List Nat) : Reduction := ⟨decide (0 < chosen.length), chosen⟩

theorem choosing_andThen (first second : List Nat) :
    (choosing first).andThen (choosing second) = choosing (first ++ second) := by
  cases first <;> simp [choosing, andThen]

theorem andThen_unchanged (reduction : Reduction) : reduction.andThen .unchanged = reduction := by
  simp [andThen, unchanged]

end Reduction

namespace Matrix

variable {κ : Type} {start matrix next : Matrix κ} {first second chosen : List Nat}

theorem Linked.isActive_of_columnsOf {row column : Nat} (h : matrix.Linked)
    (hactive : matrix.isActive (.row row) = true) (honly : matrix.columnsOf row = [column]) :
    matrix.isActive (.column column) = true := by
  apply h.isActive_of_mem_crossing hactive
  change column ∈ matrix.columnsOf row
  simp [honly]

section Reduces

variable [Cost κ]

/-- Reductions in a row, with the columns that had to be chosen. -/
inductive Reduces (start : Matrix κ) : List Nat → Matrix κ → Prop
  | refl : Reduces start [] start
  | row {chosen : List Nat} {matrix : Matrix κ} {row contained : Nat} :
      Reduces start chosen matrix → matrix.isActive (.row row) = true →
      matrix.isActive (.row contained) = true → row ≠ contained →
      (∀ column ∈ matrix.columnsOf contained, column ∈ matrix.columnsOf row) →
      Reduces start chosen (matrix.deleted (.row row))
  | column {chosen : List Nat} {matrix : Matrix κ} {column dominator : Nat} :
      Reduces start chosen matrix → matrix.isActive (.column column) = true →
      matrix.isActive (.column dominator) = true → column ≠ dominator →
      (∀ row ∈ matrix.rowsOf column, row ∈ matrix.rowsOf dominator) →
      matrix.costOf dominator ≤ matrix.costOf column →
      Reduces start chosen (matrix.deleted (.column column))
  | essential {chosen : List Nat} {matrix : Matrix κ} {row column : Nat} :
      Reduces start chosen matrix → matrix.isActive (.row row) = true →
      matrix.columnsOf row = [column] →
      Reduces start (chosen ++ [column]) (matrix.selected column)

namespace Reduces

theorem trans (h : Reduces start first matrix) (hnext : Reduces matrix second next) :
    Reduces start (first ++ second) next := by
  induction hnext with
  | refl => simpa using h
  | row _ hactive hcontained hne hsubset ih => exact ih.row hactive hcontained hne hsubset
  | column _ hactive hdominator hne hsubset hcost ih =>
    exact ih.column hactive hdominator hne hsubset hcost
  | essential _ hactive honly ih =>
    rw [← List.append_assoc]
    exact ih.essential hactive honly

/-- Reductions delete lines and do nothing else. -/
theorem deletes (h : Reduces start chosen matrix) (hstart : start.Linked)
    (hsettled : start.Settled) : Deletes start matrix := by
  induction h with
  | refl => exact .refl
  | row _ hactive _ _ _ ih => exact ih.delete hactive
  | column _ hactive _ _ _ _ ih => exact ih.delete hactive
  | essential _ hactive honly ih =>
    have hlinked := ih.linked hstart hsettled
    have hcolumn := hlinked.isActive_of_columnsOf hactive honly
    exact ih.trans (allDeleted_selected hlinked (ih.settled hstart hsettled) hcolumn).2.deletes

theorem linked (h : Reduces start chosen matrix) (hstart : start.Linked)
    (hsettled : start.Settled) : matrix.Linked :=
  (h.deletes hstart hsettled).linked hstart hsettled

theorem settled (h : Reduces start chosen matrix) (hstart : start.Linked)
    (hsettled : start.Settled) : matrix.Settled :=
  (h.deletes hstart hsettled).settled hstart hsettled

end Reduces

end Reduces

/-! ## The lines that are left -/

theorem Removes.length_active_le (h : Removes matrix next) (hmatrix : matrix.Linked) (axis : Axis) :
    (next.active axis).length ≤ (matrix.active axis).length := by
  have hnext := h.linked hmatrix
  have hsubset : next.active axis ⊆ matrix.active axis := fun index hindex ↦
    (@Linked.mem_active _ _ ⟨axis, index⟩ hmatrix).mp
      (h.isActive_of hmatrix ((@Linked.mem_active _ _ ⟨axis, index⟩ hnext).mpr hindex))
  exact ((hnext.lines axis).nodup_active.subperm hsubset).length_le

theorem Removes.length_active_lt (h : Removes matrix next) (hmatrix : matrix.Linked) {line : Line}
    (hactive : matrix.isActive line = true) (hgone : next.isActive line = false) :
    (next.active line.axis).length < (matrix.active line.axis).length := by
  have hnext := h.linked hmatrix
  have hnew : line.index ∉ next.active line.axis := fun hmem ↦
    ne_true_of_eq_false hgone (hnext.mem_active.mpr hmem)
  have hsubset : line.index :: next.active line.axis ⊆ matrix.active line.axis := by
    refine List.cons_subset.mpr ⟨hmatrix.mem_active.mp hactive, fun index hindex ↦ ?_⟩
    exact (@Linked.mem_active _ _ ⟨line.axis, index⟩ hmatrix).mp
      (h.isActive_of hmatrix ((@Linked.mem_active _ _ ⟨line.axis, index⟩ hnext).mpr hindex))
  have hnodup := List.nodup_cons.mpr ⟨hnew, (hnext.lines line.axis).nodup_active⟩
  exact (hnodup.subperm hsubset).length_le

/-- The number of active lines. -/
def extent (matrix : Matrix κ) : Nat := matrix.activeRows.length + matrix.activeColumns.length

theorem Removes.extent_lt (h : Removes matrix next) (hmatrix : matrix.Linked) {line : Line}
    (hactive : matrix.isActive line = true) (hgone : next.isActive line = false) :
    next.extent < matrix.extent := by
  have hrows := h.length_active_le hmatrix .row
  have hcolumns := h.length_active_le hmatrix .column
  have hfewer := h.length_active_lt hmatrix hactive hgone
  change (next.active .row).length + (next.active .column).length <
    (matrix.active .row).length + (matrix.active .column).length
  obtain ⟨axis, index⟩ := line
  cases axis
  · exact Nat.add_lt_add_of_lt_of_le hfewer hcolumns
  · exact Nat.add_lt_add_of_le_of_lt hrows hfewer

theorem extent_deleted_lt (h : matrix.Linked) (hsettled : matrix.Settled) {line : Line}
    (hactive : matrix.isActive line = true) : (matrix.deleted line).extent < matrix.extent :=
  (removes_deleted h hactive).1.extent_lt h hactive (isActive_deleted_self h hsettled hactive)

theorem extent_selected_lt (h : matrix.Linked) (hsettled : matrix.Settled) {column : Nat}
    (hactive : matrix.isActive (.column column) = true) :
    (matrix.selected column).extent < matrix.extent :=
  (removes_selected h hsettled hactive).extent_lt h hactive
    (isActive_column_selected h hsettled hactive)

/-- A reduction that leaves fewer lines, by at least the given number. -/
structure Shrinks [Cost κ] (start : Matrix κ) (chosen : List Nat) (count : Nat) (next : Matrix κ) :
    Prop where
  reduces : Reduces start chosen next
  extent_le : count + next.extent ≤ start.extent

namespace Shrinks

variable [Cost κ] {count fewer further : Nat}

theorem refl : Shrinks start [] 0 start := ⟨.refl, by omega⟩

theorem trans (h : Shrinks start first count matrix) (hnext : Shrinks matrix second further next) :
    Shrinks start (first ++ second) (count + further) next where
  reduces := h.reduces.trans hnext.reduces
  extent_le := by
    have hbefore := h.extent_le
    have hafter := hnext.extent_le
    omega

theorem weaken (h : Shrinks start chosen count next) (hle : fewer ≤ count) :
    Shrinks start chosen fewer next where
  reduces := h.reduces
  extent_le := (Nat.add_le_add_right hle _).trans h.extent_le

theorem linked (h : Shrinks start chosen count next) (hstart : start.Linked)
    (hsettled : start.Settled) : next.Linked :=
  h.reduces.linked hstart hsettled

theorem settled (h : Shrinks start chosen count next) (hstart : start.Linked)
    (hsettled : start.Settled) : next.Settled :=
  h.reduces.settled hstart hsettled

end Shrinks

/-! ## Rows and columns that dominate -/

theorem Linked.of_mem_dominatedRows (h : matrix.Linked) {row other : Nat}
    (hactive : matrix.isActive (.row row) = true) (hother : other ∈ matrix.dominatedRows row) :
    matrix.isActive (.row other) = true ∧ other ≠ row ∧
      ∀ column ∈ matrix.columnsOf row, column ∈ matrix.columnsOf other := by
  rw [dominatedRows] at hother
  cases hshortest : matrix.shortestCrossing? (.row row) with
  | none => simp [hshortest] at hother
  | some column =>
    rw [hshortest, List.mem_filter, rowDominates, Bool.and_eq_true] at hother
    obtain ⟨hmem, hsize, hwithin⟩ := hother
    have hcolumn : column ∈ matrix.crossing (.row row) := List.minOn?_mem hshortest
    have hcolumnActive := h.isActive_of_mem_crossing hactive hcolumn
    have hotherActive := h.isActive_of_mem_crossing hcolumnActive hmem
    refine ⟨hotherActive, ?_, (Ascending.within_iff (h.ascending _ (h.inRange_of_isActive hactive))
      (h.ascending _ (h.inRange_of_isActive hotherActive))).mp hwithin⟩
    rintro rfl
    simp at hsize

theorem Linked.nodup_dominatedRows (h : matrix.Linked) {row : Nat}
    (hactive : matrix.isActive (.row row) = true) : (matrix.dominatedRows row).Nodup := by
  rw [dominatedRows]
  cases hshortest : matrix.shortestCrossing? (.row row) with
  | none => exact List.nodup_nil
  | some column =>
    have hcolumn := h.isActive_of_mem_crossing hactive (List.minOn?_mem hshortest)
    have hascending := h.ascending (.column column) (h.inRange_of_isActive hcolumn)
    exact (hascending.imp Nat.ne_of_lt).filter _

theorem Linked.of_dominator? [Cost κ] (h : matrix.Linked) {column dominator : Nat}
    (hactive : matrix.isActive (.column column) = true)
    (hdominator : matrix.dominator? column = some dominator) :
    matrix.isActive (.column dominator) = true ∧ column ≠ dominator ∧
      (∀ row ∈ matrix.rowsOf column, row ∈ matrix.rowsOf dominator) ∧
      matrix.costOf dominator ≤ matrix.costOf column := by
  rw [dominator?] at hdominator
  cases hshortest : matrix.shortestCrossing? (.column column) with
  | none => simp [hshortest] at hdominator
  | some row =>
    rw [hshortest] at hdominator
    have hfound := List.find?_some hdominator
    have hmem := List.mem_of_find?_eq_some hdominator
    rw [columnDominates, Bool.and_eq_true, Bool.and_eq_true, Bool.and_eq_true, bne_iff_ne]
      at hfound
    obtain ⟨hne, ⟨hsize, horder⟩, hwithin⟩ := hfound
    have hrow : row ∈ matrix.crossing (.column column) := List.minOn?_mem hshortest
    have hrowActive := h.isActive_of_mem_crossing hactive hrow
    have hdominatorActive := h.isActive_of_mem_crossing hrowActive hmem
    refine ⟨hdominatorActive, hne.symm, (Ascending.within_iff
      (h.ascending _ (h.inRange_of_isActive hactive))
      (h.ascending _ (h.inRange_of_isActive hdominatorActive))).mp hwithin, ?_⟩
    change (compare (matrix.costOf dominator) (matrix.costOf column)).isLE = true
    split at horder
    · exact horder
    · cases hcompare : compare (matrix.costOf dominator) (matrix.costOf column) <;> simp_all

end Matrix

namespace Workbench

open SetCover.Matrix

variable {κ : Type} [Cost κ] {matrix : Matrix κ} {refused : Fault → Matrix κ → Prop}

/-- The rows that a row makes superfluous are deleted, and the row stays. -/
theorem ends_deleteRowsDominatedBy (h : matrix.Linked) (hsettled : matrix.Settled) (row : Nat) :
    Ends (deleteRowsDominatedBy row) matrix (fun deleted next ↦ Shrinks matrix [] deleted next)
      refused := by
  apply Ends.table
  split
  · rename_i hactive
    let invariant (left : List Nat) (next : Matrix κ) : Prop :=
      (matrix.dominatedRows row).length + next.extent ≤ left.length + matrix.extent ∧
      Reduces matrix [] next ∧ left.Nodup ∧ next.isActive (.row row) = true ∧
        ∀ other ∈ left, next.isActive (.row other) = true ∧ other ≠ row ∧
          ∀ column ∈ next.columnsOf row, column ∈ next.columnsOf other
    have hstart : invariant (matrix.dominatedRows row) matrix := by
      exact ⟨le_refl _, .refl, h.nodup_dominatedRows hactive, hactive,
        fun other hother ↦ h.of_mem_dominatedRows hactive hother⟩
    refine (Ends.forM invariant (fun other others next hnext ↦ ?_) hstart).andThen
      fun _ next hnext ↦ Ends.pure ⟨hnext.2.1, by simpa using hnext.1⟩
    obtain ⟨hextent, hreduces, hnodup, hrow, hleft⟩ := hnext
    obtain ⟨hother, hne, hsubset⟩ := hleft other (by simp)
    have hlinked := hreduces.linked h hsettled
    have hnextSettled := hreduces.settled h hsettled
    have hfewer := extent_deleted_lt hlinked hnextSettled hother
    refine Ends.bind (Ends.note (Ends.bind (ends_delete hlinked hother (Ends.count ?_))))
    have hkept {kept : Nat} (hactive : next.isActive (.row kept) = true) (hdistinct : kept ≠ other) :
        (next.deleted (.row other)).isActive (.row kept) = true :=
      (isActive_deleted hlinked hnextSettled hother).mpr ⟨hactive, by simpa using hdistinct, by simp⟩
    have hcolumns {kept : Nat} (hactive : next.isActive (.row kept) = true) :
        (next.deleted (.row other)).columnsOf kept = next.columnsOf kept :=
      crossing_deleted hlinked hother (hlinked.inRange_of_isActive hactive) rfl
    have hrowKept := hkept hrow hne.symm
    have hsmaller : (matrix.dominatedRows row).length + (next.deleted (.row other)).extent ≤
        others.length + matrix.extent := by
      rw [List.length_cons] at hextent
      omega
    refine ⟨hsmaller, hreduces.row hother hrow hne hsubset, hnodup.of_cons, hrowKept,
      fun kept hmem ↦ ?_⟩
    obtain ⟨hactive, hdistinct, hcontains⟩ := hleft kept (by simp [hmem])
    have hkeptActive := hkept hactive (by rintro rfl; exact (List.nodup_cons.mp hnodup).1 hmem)
    rw [hcolumns hrow, hcolumns hactive]
    exact ⟨hkeptActive, hdistinct, hcontains⟩
  · exact Ends.pure .refl

/-- A rule that is applied to several lines says whether it deleted one. -/
theorem ends_foldlM_deleting {step : Nat → Work κ Nat} (h : matrix.Linked) (hsettled : matrix.Settled)
    (hstep : ∀ (next : Matrix κ) line, next.Linked → next.Settled →
      Ends (step line) next (fun deleted last ↦ Shrinks next [] deleted last) refused)
    (lines : List Nat) :
    Ends (do
      let deleted ← lines.foldlM (fun deleted line ↦ return deleted + (← step line)) 0
      return decide (0 < deleted)) matrix
      (fun changed next ↦ Shrinks matrix [] changed.toNat next) refused := by
  refine (Ends.foldlM (fun _ deleted next ↦ Shrinks matrix [] deleted next)
    (fun line others deleted next hnext ↦ ?_) .refl).andThen fun deleted _ hnext ↦ Ends.pure ?_
  · exact (hstep next line (hnext.linked h hsettled) (hnext.settled h hsettled)).andThen
      fun _ _ hdone ↦ Ends.pure (hnext.trans hdone)
  · apply hnext.weaken
    cases deleted
    · exact Nat.le_refl 0
    · simp

theorem ends_rowDominance (h : matrix.Linked) (hsettled : matrix.Settled) :
    Ends rowDominance matrix (fun changed next ↦ Shrinks matrix [] changed.toNat next) refused :=
  Ends.table (ends_foldlM_deleting h hsettled
    (fun _ row hlinked hsettled ↦ ends_deleteRowsDominatedBy hlinked hsettled row) _)

theorem ends_deleteColumnIfDominated (h : matrix.Linked) (hsettled : matrix.Settled) (column : Nat) :
    Ends (deleteColumnIfDominated column) matrix
      (fun deleted next ↦ Shrinks matrix [] deleted next) refused := by
  apply Ends.table
  split
  · rename_i hactive
    split
    · exact Ends.pure .refl
    · rename_i dominator hdominator
      obtain ⟨hother, hne, hsubset, hcost⟩ := h.of_dominator? hactive hdominator
      have hfewer := extent_deleted_lt h hsettled hactive
      exact Ends.bind (Ends.note (Ends.bind (ends_delete h hactive (Ends.bind (Ends.count
        (Ends.pure ⟨.column .refl hactive hother hne hsubset hcost, by omega⟩))))))
  · exact Ends.pure .refl

theorem ends_columnDominance (h : matrix.Linked) (hsettled : matrix.Settled) :
    Ends columnDominance matrix (fun changed next ↦ Shrinks matrix [] changed.toNat next) refused :=
  Ends.table (ends_foldlM_deleting h hsettled
    (fun _ column hlinked hsettled ↦ ends_deleteColumnIfDominated hlinked hsettled column) _)

/-! ## Columns that have to be chosen -/

omit [Cost κ] in
theorem ends_selectOnlyColumn (h : matrix.Linked) (hsettled : matrix.Settled) {row : Nat}
    (hsingle : matrix.isActive (.row row) = true → (matrix.columnsOf row).length = 1)
    {done : Reduction → Matrix κ → Prop} (hkept : done .unchanged matrix)
    (hselected : ∀ column, matrix.isActive (.row row) = true → matrix.columnsOf row = [column] →
      done (.choosing [column]) (matrix.selected column)) :
    Ends (selectOnlyColumn row) matrix done refused := by
  apply Ends.table
  split
  · rename_i hactive
    split
    · exact Ends.pure hkept
    · rename_i column rest hcolumns
      have honly : matrix.columnsOf row = [column] := by
        have hlength := hsingle hactive
        rw [hcolumns, List.length_cons, Nat.add_eq_right, List.length_eq_zero_iff] at hlength
        rw [hcolumns, hlength]
      exact Ends.bind (Ends.note (Ends.bind (ends_select h hsettled
        (h.isActive_of_columnsOf hactive honly) (Ends.bind (Ends.count
          (Ends.pure (hselected column hactive honly)))))))
  · exact Ends.pure hkept

omit [Cost κ] in
/-- What holds at the start and is kept when the only column of a row is chosen holds in the end, and a
change is reported if a column has been chosen and only then. -/
theorem ends_essentialColumns_of (h : matrix.Linked) (hsettled : matrix.Settled)
    {holds : List Nat → Matrix κ → Prop} (hstart : holds [] matrix)
    (hstep : ∀ chosen next row column, Deletes matrix next → holds chosen next →
      next.isActive (.row row) = true → next.columnsOf row = [column] →
        holds (chosen ++ [column]) (next.selected column)) :
    Ends essentialColumns matrix
      (fun reduction next ↦ reduction = .choosing reduction.selected ∧ holds reduction.selected next)
      refused := by
  let invariant (left : List Nat) (reduction : Reduction) (next : Matrix κ) : Prop :=
    (Deletes matrix next ∧ reduction = .choosing reduction.selected ∧ holds reduction.selected next) ∧
      ∀ row ∈ left, next.isActive (.row row) = true → (next.columnsOf row).length = 1
  have hsingles : invariant matrix.singleRows .unchanged matrix := by
    refine ⟨⟨.refl, rfl, hstart⟩, fun row hrow hactive ↦ ?_⟩
    have hcount : matrix.count (.row row) = 1 := by simpa using (List.mem_filter.mp hrow).2
    exact (h.length_crossing (h.inRange_of_isActive hactive)).trans hcount
  refine Ends.table ((Ends.foldlM invariant (fun row others reduction next hnext ↦ ?_) hsingles).mono
    fun _ _ hdone ↦ hdone.1.2)
  obtain ⟨⟨hdeletes, hflag, hholds⟩, hleft⟩ := hnext
  have hlinked := hdeletes.linked h hsettled
  have hnextSettled := hdeletes.settled h hsettled
  refine Ends.bind (ends_selectOnlyColumn hlinked hnextSettled (hleft row (by simp)) (Ends.pure ?_)
    fun column hactive honly ↦ Ends.pure ?_)
  · rw [reduction.andThen_unchanged]
    exact ⟨⟨hdeletes, hflag, hholds⟩, fun other hother ↦ hleft other (by simp [hother])⟩
  · have hcolumn := hlinked.isActive_of_columnsOf hactive honly
    have hselected := (allDeleted_selected hlinked hnextSettled hcolumn).2
    have hchosen : reduction.andThen (.choosing [column]) =
        .choosing (reduction.selected ++ [column]) := by
      rw [← Reduction.choosing_andThen, ← hflag]
    rw [hchosen]
    refine ⟨⟨hdeletes.trans hselected.deletes, rfl, hstep _ _ _ _ hdeletes hholds hactive honly⟩,
      fun other hother hkept ↦ ?_⟩
    -- The rows that are left keep their columns.
    have hbefore := ((hselected.parallel other).mp hkept).1
    have hcolumns : (next.selected column).columnsOf other = next.columnsOf other :=
      hselected.kept other (hlinked.inRange_of_isActive hbefore)
    rw [hcolumns]
    exact hleft other (by simp [hother]) hbefore

theorem ends_essentialColumns (h : matrix.Linked) (hsettled : matrix.Settled) :
    Ends essentialColumns matrix
      (fun reduction next ↦ Shrinks matrix reduction.selected reduction.changed.toNat next)
      refused := by
  refine (@ends_essentialColumns_of _ _ refused h hsettled
    (fun chosen next ↦ Shrinks matrix chosen chosen.length next) .refl
    fun chosen next row column hdeletes hshrinks hactive honly ↦ ?_).mono fun reduction _ hdone ↦ ?_
  · have hlinked := hdeletes.linked h hsettled
    have hfewer := extent_selected_lt hlinked (hdeletes.settled h hsettled)
      (hlinked.isActive_of_columnsOf hactive honly)
    have hselected : Shrinks next [column] 1 (next.selected column) :=
      ⟨.essential .refl hactive honly, by omega⟩
    rw [List.length_append]
    exact hshrinks.trans hselected
  · rw [hdone.1]
    apply hdone.2.weaken
    cases reduction.selected <;> simp [Reduction.choosing]

/-! ## Rounds -/

theorem reduceOnce_eq (config : Config) :
    (reduceOnce config : Work κ Reduction) =
      (if config.rowDominance then rowDominance else pure false) >>= fun byRows ↦
        (if config.columnDominance then columnDominance else pure false) >>= fun byColumns ↦
          (if config.essentialColumns then essentialColumns else pure .unchanged) >>= fun forced ↦
            pure ⟨byRows || byColumns || forced.changed, forced.selected⟩ := by
  rcases config with ⟨_ | _, _ | _, _ | _, _⟩ <;> rfl

theorem ends_reduceOnce (h : matrix.Linked) (hsettled : matrix.Settled) (config : Config) :
    Ends (reduceOnce config) matrix
      (fun reduction next ↦ Shrinks matrix reduction.selected reduction.changed.toNat next)
      refused := by
  have hrows : Ends (if config.rowDominance then rowDominance else pure false) matrix
      (fun changed next ↦ Shrinks matrix [] changed.toNat next) refused := by
    split
    · exact ends_rowDominance h hsettled
    · exact Ends.pure .refl
  rw [reduceOnce_eq]
  refine hrows.andThen fun byRows afterRows hrows ↦ ?_
  have hlinked := hrows.linked h hsettled
  have hrowsSettled := hrows.settled h hsettled
  have hcolumns : Ends (if config.columnDominance then columnDominance else pure false) afterRows
      (fun changed next ↦ Shrinks matrix [] (byRows.toNat + changed.toNat) next) refused := by
    split
    · exact (ends_columnDominance hlinked hrowsSettled).mono fun _ _ hdone ↦ hrows.trans hdone
    · exact Ends.pure hrows
  refine hcolumns.andThen fun byColumns afterColumns hcolumns ↦ ?_
  have hforced : Ends (if config.essentialColumns then essentialColumns else pure .unchanged)
      afterColumns (fun forced next ↦
        Shrinks matrix forced.selected (byRows.toNat + byColumns.toNat + forced.changed.toNat) next)
      refused := by
    split
    · exact (ends_essentialColumns (hcolumns.linked h hsettled) (hcolumns.settled h hsettled)).mono
        fun _ _ hdone ↦ hcolumns.trans hdone
    · exact Ends.pure hcolumns
  refine hforced.andThen fun forced _ hdone ↦ Ends.pure (hdone.weaken ?_)
  cases byRows <;> cases byColumns <;> cases forced.changed <;> simp

theorem ends_reduceWithin (h : matrix.Linked) (hsettled : matrix.Settled) (config : Config)
    {rounds : Nat} (hrounds : matrix.extent < rounds) :
    Ends (reduceWithin config rounds) matrix
      (fun reduction next ↦ Reduces matrix reduction.selected next) refused := by
  induction rounds generalizing matrix with
  | zero => exact absurd hrounds (Nat.not_lt_zero _)
  | succ rounds ih =>
    refine (ends_reduceOnce h hsettled config).andThen fun first next hfirst ↦ ?_
    split
    · rename_i hchanged
      have hfewer := hfirst.extent_le
      rw [hchanged, Bool.toNat_true] at hfewer
      exact (ih (hfirst.linked h hsettled) (hfirst.settled h hsettled) (by omega)).andThen
        fun later last hlater ↦ Ends.pure (hfirst.reduces.trans hlater)
    · exact Ends.pure hfirst.reduces

/-- The rounds of a reduction suffice. -/
theorem ends_reduce (h : matrix.Linked) (hsettled : matrix.Settled) (config : Config) :
    Ends (reduce config) matrix
      (fun reduction next ↦ Reduces matrix reduction.selected next) refused :=
  Ends.table (ends_reduceWithin h hsettled config (Nat.lt_succ_self _))

end Workbench

end SetCover

import SetCover.Proofs.Reachable
import SetCover.Proofs.Search.Amounts

/-!
# No column of an answer is idle

Every column that a search settles on covers a row that none before it covers: a column is chosen
while one of its rows is active, and with the choice all its rows go.  Together with the columns that
are found later, the columns chosen so far cover every row, also those that were deleted because they
contain another one.  Nothing of this depends on what the columns cost.
-/

namespace SetCover

namespace Matrix

variable {κ : Type} {start matrix next : Matrix κ} {columns first rest chosen : List Nat}
  {column : Nat}

/-! ## Columns that gain a row -/

/-- Every one of the columns covers an active row that none before it covers. -/
def Gainful (matrix : Matrix κ) (columns : List Nat) : Prop :=
  ∀ earlier column later, columns = earlier ++ column :: later →
    ∃ row, matrix.isActive (.row row) = true ∧ matrix.Crosses (.row row) column ∧
      ∀ other ∈ earlier, ¬matrix.Crosses (.row row) other

/-- None of the columns covers an active row. -/
def Spent (matrix : Matrix κ) (columns : List Nat) : Prop :=
  ∀ row, matrix.isActive (.row row) = true → ∀ column ∈ columns, ¬matrix.Crosses (.row row) column

theorem gainful_nil : matrix.Gainful [] := by
  intro earlier column later heq
  cases List.nil_eq_append_iff.mp heq |>.2

theorem gainful_concat : matrix.Gainful (columns ++ [column]) ↔ matrix.Gainful columns ∧
    ∃ row, matrix.isActive (.row row) = true ∧ matrix.Crosses (.row row) column ∧
      ∀ other ∈ columns, ¬matrix.Crosses (.row row) other := by
  constructor
  · intro h
    refine ⟨fun earlier other later heq ↦ h earlier other (later ++ [column]) ?_,
      h columns column [] rfl⟩
    rw [heq, List.append_assoc, List.cons_append]
  · rintro ⟨hcolumns, hcolumn⟩ earlier other later heq
    rcases List.eq_nil_or_concat later with rfl | ⟨later, last, rfl⟩
    · obtain ⟨rfl, hother⟩ := List.append_inj' heq rfl
      obtain rfl : column = other := List.singleton_inj.mp hother
      exact hcolumn
    · rw [List.concat_eq_append, ← List.cons_append, ← List.append_assoc] at heq
      exact hcolumns earlier other later (List.append_inj' heq rfl).1

theorem Gainful.nodup (h : matrix.Gainful columns) : columns.Nodup := by
  induction columns using List.reverseRecOn with
  | nil => exact List.nodup_nil
  | append_singleton columns column ih =>
    obtain ⟨hcolumns, row, -, hcrosses, hnew⟩ := gainful_concat.mp h
    rw [← List.concat_eq_append]
    exact (List.nodup_concat _ _).mpr ⟨fun hmem ↦ hnew column hmem hcrosses, ih hcolumns⟩

/-- Every column gains a row of its own. -/
theorem Gainful.exists_rows (h : matrix.Gainful columns) :
    ∃ rows : List Nat, rows.Nodup ∧ rows.length = columns.length ∧ ∀ row ∈ rows,
      matrix.isActive (.row row) = true ∧ ∃ column ∈ columns, matrix.Crosses (.row row) column := by
  induction columns using List.reverseRecOn with
  | nil => exact ⟨[], List.nodup_nil, rfl, by simp⟩
  | append_singleton columns column ih =>
    obtain ⟨hcolumns, row, hactive, hcrosses, hnew⟩ := gainful_concat.mp h
    obtain ⟨rows, hnodup, hlength, hrows⟩ := ih hcolumns
    have hrow : row ∉ rows := fun hmem ↦ by
      obtain ⟨-, other, hother, hcovers⟩ := hrows row hmem
      exact hnew other hother hcovers
    refine ⟨row :: rows, List.nodup_cons.mpr ⟨hrow, hnodup⟩, by simp [hlength], fun gained hgained ↦ ?_⟩
    rcases List.mem_cons.mp hgained with rfl | hgained
    · exact ⟨hactive, column, by simp, hcrosses⟩
    · obtain ⟨hgainedActive, other, hother, hcovers⟩ := hrows gained hgained
      exact ⟨hgainedActive, other, by simp [hother], hcovers⟩

theorem Gainful.length_le (h : matrix.Gainful columns) (hmatrix : matrix.Linked) :
    columns.length ≤ matrix.activeRows.length := by
  obtain ⟨rows, hnodup, hlength, hrows⟩ := h.exists_rows
  have hsubset : rows ⊆ matrix.activeRows := fun row hrow ↦ hmatrix.mem_active.mp (hrows row hrow).1
  rw [← hlength]
  exact (hnodup.subperm hsubset).length_le

/-- If the first columns leave no row of theirs, what is gained afterwards is gained on the whole. -/
theorem Gainful.append (h : start.Gainful first) (hspent : matrix.Spent first)
    (hremoves : Removes start matrix) (hstart : start.Linked) (hrest : matrix.Gainful rest) :
    start.Gainful (first ++ rest) := by
  induction rest using List.reverseRecOn with
  | nil => rwa [List.append_nil]
  | append_singleton rest column ih =>
    obtain ⟨hgains, row, hactive, hcrosses, hnew⟩ := gainful_concat.mp hrest
    have hcells : ∀ other, start.Crosses (.row row) other ↔ matrix.Crosses (.row row) other :=
      fun other ↦ crosses_congr hremoves.cells_eq.symm
    rw [← List.append_assoc]
    refine gainful_concat.mpr ⟨ih hgains, row, hremoves.isActive_of hstart hactive,
      (hcells column).mpr hcrosses, fun other hother ↦ ?_⟩
    rw [hcells]
    rcases List.mem_append.mp hother with hother | hother
    · exact hspent row hactive other hother
    · exact hnew other hother

theorem Gainful.of_removes (h : matrix.Gainful columns) (hremoves : Removes start matrix)
    (hstart : start.Linked) : start.Gainful columns :=
  Gainful.append gainful_nil (by simp [Spent]) hremoves hstart h

theorem Spent.of_removes (h : matrix.Spent columns) (hremoves : Removes matrix next)
    (hmatrix : matrix.Linked) : next.Spent columns := by
  intro row hactive column hcolumn
  rw [crosses_congr hremoves.cells_eq]
  exact h row (hremoves.isActive_of hmatrix hactive) column hcolumn

/-! ## Choosing columns -/

/-- The columns cover the table, and none of them is idle. -/
structure Thrifty (matrix : Matrix κ) (columns : List Nat) : Prop where
  covers : matrix.Covers columns.toFinset
  gainful : matrix.Gainful columns

theorem Thrifty.of_backup (h : matrix.backup.Thrifty columns) : matrix.Thrifty columns :=
  ⟨covers_backup.mp h.covers, h.gainful⟩

/-- A choice gains a row and leaves none. -/
theorem Linked.gainful_selected (h : matrix.Linked) (hsettled : matrix.Settled)
    (hactive : matrix.isActive (.column column) = true) :
    matrix.Gainful [column] ∧ (matrix.selected column).Spent [column] := by
  have hcells := (removes_selected h hsettled hactive).cells_eq
  constructor
  · obtain ⟨row, hrow⟩ := h.settled_iff.mp hsettled _ hactive
    obtain ⟨hcrosses, hrowActive⟩ := (h.mem_rowsOf_iff hactive).mp hrow
    exact gainful_concat.mpr ⟨gainful_nil, row, hrowActive, hcrosses, by simp⟩
  · intro row hrow other hother
    rw [List.mem_singleton.mp hother, crosses_congr hcells]
    exact ((isActive_row_selected h hsettled hactive).mp hrow).2

theorem Thrifty.selected (hrest : (matrix.selected column).Thrifty rest) (h : matrix.Linked)
    (hsettled : matrix.Settled) (hactive : matrix.isActive (.column column) = true) :
    matrix.Thrifty (column :: rest) := by
  obtain ⟨hgains, hspent⟩ := h.gainful_selected hsettled hactive
  constructor
  · rw [List.toFinset_cons, Finset.insert_eq]
    exact (hrest.covers.of_selected h hsettled hactive).2
  · exact hgains.append hspent (removes_selected h hsettled hactive) h hrest.gainful

theorem Thrifty.deleted (hrest : (matrix.deleted (.column column)).Thrifty rest) (h : matrix.Linked)
    (hsettled : matrix.Settled) (hactive : matrix.isActive (.column column) = true)
    (hspare : matrix.Spare column) : matrix.Thrifty rest where
  covers := hrest.covers.of_deletedColumn h hsettled hactive hspare
  gainful := hrest.gainful.of_removes (removes_deleted h hactive).1 h

/-- The columns that a reduction chooses gain rows and leave none. -/
theorem Reduces.gainful [Cost κ] (h : Reduces start chosen matrix) (hstart : start.Linked)
    (hsettled : start.Settled) : start.Gainful chosen ∧ matrix.Spent chosen := by
  induction h with
  | refl => exact ⟨gainful_nil, by simp [Spent]⟩
  | row hprior hactive _ _ _ ih =>
    have hlinked := hprior.linked hstart hsettled
    exact ⟨ih.1, ih.2.of_removes (removes_deleted hlinked hactive).1 hlinked⟩
  | column hprior hactive _ _ _ _ ih =>
    have hlinked := hprior.linked hstart hsettled
    exact ⟨ih.1, ih.2.of_removes (removes_deleted hlinked hactive).1 hlinked⟩
  | essential hprior hactive honly ih =>
    have hlinked := hprior.linked hstart hsettled
    have hsettledNow := hprior.settled hstart hsettled
    have hcolumn := hlinked.isActive_of_columnsOf hactive honly
    obtain ⟨hgains, hspent⟩ := hlinked.gainful_selected hsettledNow hcolumn
    refine ⟨ih.1.append ih.2 (hprior.removes hstart hsettled) hstart hgains,
      fun row hrow other hother ↦ ?_⟩
    rcases List.mem_append.mp hother with hother | hother
    · exact ih.2.of_removes (removes_selected hlinked hsettledNow hcolumn) hlinked row hrow other hother
    · exact hspent row hrow other hother

theorem Thrifty.reduced [Cost κ] (hrest : matrix.Thrifty rest) (hreduces : Reduces start chosen matrix)
    (hstart : start.Linked) (hsettled : start.Settled) : start.Thrifty (chosen ++ rest) := by
  obtain ⟨hgains, hspent⟩ := hreduces.gainful hstart hsettled
  constructor
  · rw [List.toFinset_append]
    exact hreduces.covers hstart hsettled hrest.covers
  · exact hgains.append hspent (hreduces.removes hstart hsettled) hstart hrest.gainful

/-- What was found, if anything, are the columns that were chosen before and a cover without an idle
column after them. -/
def ThriftyAfter (matrix : Matrix κ) (chosen : List Nat) (found : Option (Cover κ)) : Prop :=
  ∀ cover ∈ found, ∃ rest, cover.columns = chosen ++ rest ∧ matrix.Thrifty rest

theorem ThriftyAfter.none : matrix.ThriftyAfter chosen none := by
  simp [ThriftyAfter]

theorem ThriftyAfter.prepend {found : Option (Cover κ)} (h : matrix.ThriftyAfter first found) :
    matrix.ThriftyAfter (chosen ++ first) (found.map (Cover.prepend chosen)) := by
  intro cover hcover
  obtain ⟨later, hlater, rfl⟩ := Option.mem_map.mp hcover
  obtain ⟨rest, hcolumns, hrest⟩ := h later hlater
  refine ⟨rest, ?_, hrest⟩
  rw [Cover.prepend, hcolumns, List.append_assoc]

theorem ThriftyAfter.orElse {found other : Option (Cover κ)} (h : matrix.ThriftyAfter chosen found)
    (hother : matrix.ThriftyAfter chosen other) : matrix.ThriftyAfter chosen (found <|> other) := by
  cases found with
  | none => simpa using hother
  | some cover => simpa using h

end Matrix

namespace Workbench

open SetCover.Matrix

variable {κ : Type} [Cost κ] {matrix : Matrix κ} {cost : κ} {best : Option κ} {selected : List Nat}

/-! ## Searching -/

theorem thrifty_closeLeaf (h : matrix.Linked) (hempty : matrix.isEmpty = true) (depth : Nat) :
    Yields (closeLeaf cost selected best depth) matrix (matrix.ThriftyAfter selected)
      (fun _ ↦ True) := by
  apply Yields.count
  split
  · refine Yields.note (Yields.pure fun cover hcover ↦ ?_)
    obtain rfl := Option.some.inj hcover
    exact ⟨[], (List.append_nil _).symm, h.covers_empty hempty, gainful_nil⟩
  · exact Yields.pure .none

theorem thrifty_branch {explore : κ → Option κ → Work κ (Option (Cover κ))} (h : matrix.Linked)
    (hsettled : matrix.Settled) (hempty : ¬matrix.isEmpty = true)
    (hexplore : ∀ {next : Matrix κ}, next.Linked → next.Settled → ∀ cost best,
      Yields (explore cost best) next (next.ThriftyAfter []) fun _ ↦ True) (depth : Nat) :
    Yields (branch explore cost selected best depth) matrix (matrix.ThriftyAfter selected)
      (fun _ ↦ True) := by
  obtain ⟨column, hfirst⟩ := h.exists_first? hsettled hempty
  have hactive := h.isActive_of_first? hfirst
  have hselected := (allDeleted_selected h.backup hsettled hactive).2.deletes
  have hchosen {chosen : Option (Cover κ)}
      (hfound : (matrix.backup.selected column).ThriftyAfter [] chosen) :
      matrix.ThriftyAfter selected (chosen.map (Cover.prepend (selected ++ [column]))) := by
    intro cover hcover
    obtain ⟨rest, hcolumns, hrest⟩ := hfound.prepend cover hcover
    refine ⟨column :: rest, ?_, (hrest.selected h.backup hsettled hactive).of_backup⟩
    rw [hcolumns, List.append_nil, List.append_assoc, List.singleton_append]
  refine Yields.branch h hsettled hfirst (hexplore (hselected.linked h.backup hsettled)
    (hselected.settled h.backup hsettled) _ _) (fun _ _ ↦ hchosen) fun hforces chosen hfound ↦ ?_
  have hdeletes : Deletes matrix.backup (matrix.backup.deleted (.column column)) :=
    .delete .refl hactive
  apply (hexplore (hdeletes.linked h.backup hsettled) (hdeletes.settled h.backup hsettled) _ _).imp
  intro deleted hdeleted
  apply ThriftyAfter.orElse _ (hchosen hfound)
  intro cover hcover
  obtain ⟨rest, hcolumns, hrest⟩ := hdeleted.prepend cover hcover
  refine ⟨rest, ?_, (hrest.deleted h.backup hsettled hactive
    (h.backup.spare_of_not_forces hactive hforces)).of_backup⟩
  rw [hcolumns, List.append_nil]

theorem thrifty_searchWithin (config : Config) (levels : Nat) (h : matrix.Linked)
    (hsettled : matrix.Settled) (depth : Nat) :
    Yields (searchWithin config levels cost best depth) matrix (matrix.ThriftyAfter [])
      (fun _ ↦ True) := by
  induction levels generalizing matrix cost best depth with
  | zero => exact Yields.throw trivial
  | succ levels ih =>
    have hnext {chosen : List Nat} {next : Matrix κ} (hreduces : Reduces matrix.backup chosen next) :
        next.Linked ∧ next.Settled :=
      ⟨hreduces.linked h.backup hsettled, hreduces.settled h.backup hsettled⟩
    have hfound {chosen : List Nat} {next : Matrix κ} (hreduces : Reduces matrix.backup chosen next)
        {found : Option (Cover κ)} (hfound : next.ThriftyAfter chosen found) :
        matrix.ThriftyAfter [] found := by
      intro cover hcover
      obtain ⟨rest, hcolumns, hrest⟩ := hfound cover hcover
      exact ⟨_, hcolumns, (hrest.reduced hreduces h.backup hsettled).of_backup⟩
    refine Yields.searchWithin h (ends_reduce_removes config h.backup hsettled)
      (fun chosen next hreduces hempty ↦ ?_) (fun chosen next hreduces hempty ↦ ?_)
      fun chosen next hreduces hempty ↦ ?_
    · exact (thrifty_closeLeaf (hnext hreduces).1 hempty depth).imp fun _ ↦ hfound hreduces
    · exact (completes_isCutOff config (hnext hreduces).1 (hnext hreduces).2 _ best depth).yields.imp
        fun _ _ _ ↦ .none
    · exact (thrifty_branch (hnext hreduces).1 (hnext hreduces).2 hempty
        (fun hlinked hsettled _ _ ↦ ih hlinked hsettled (depth + 1)) depth).imp
        fun _ ↦ hfound hreduces

/-- Whatever the columns cost and whichever rules are switched on, a cover that solving answers with
covers the active rows by active columns, each of which covers a row that none before it covers; so no
column is listed twice, and there are no more of them than active rows. -/
theorem thrifty_of_solve [LawfulCost κ] (h : matrix.Reachable) (config : Config) (stats : Stats)
    (journal : Journal κ) {cover : Cover κ}
    (hsolve : Calls.answer (solve config) ⟨matrix, stats, journal⟩ = .ok (.cover cover)) :
    matrix.Covers cover.columns.toFinset ∧ matrix.Gainful cover.columns ∧ cover.columns.Nodup ∧
      cover.columns.length ≤ matrix.activeRows.length := by
  have hlinked := h.intact.linked
  have hsearch : Yields (search config (Cost.zero : κ) none 0) matrix (matrix.ThriftyAfter [])
      fun _ ↦ True :=
    Yields.table (thrifty_searchWithin config _ hlinked h.intact.settled 0)
  have hanswer := (Yields.solve hsearch fun _ ↦ trivial).of_answer hsolve
  obtain ⟨rest, hcolumns, hcovers, hgains⟩ := hanswer.2 cover rfl cover rfl
  rw [List.nil_append] at hcolumns
  rw [hcolumns]
  exact ⟨hcovers, hgains, hgains.nodup, hgains.length_le hlinked⟩

/-- The sums overflow and one cost is a negative zero; the last row is deleted behind a marker, one
column is essential, and the search branches on a cycle of three rows. -/
theorem thrifty_of_solve_overflow :
    let bench := Operation.afterAll [.insert 0 0, .insert 0 1, .insert 1 1, .insert 1 2, .insert 2 0,
      .insert 2 2, .insert 3 0, .insert 3 1, .insert 3 3, .insert 4 4, .insert 5 3,
      .setCost 0 0 1.7e308, .setCost 1 0 1.7e308, .setCost 2 0 1.7e308, .setCost 4 0 (-0.0),
      .backup, .delete (.row 5)] (Workbench.blank SingleCost 6 5 false)
    Calls.answer (solve ⟨false, false, true, true⟩) bench =
        .ok (.cover ⟨⟨1.0 / 0.0⟩, [4, 0, 1]⟩) ∧
      bench.matrix.Covers [4, 0, 1].toFinset ∧ bench.matrix.Gainful [4, 0, 1] ∧
      3 ≤ bench.matrix.activeRows.length := by
  intro bench
  have hreachable : bench.matrix.Reachable := reachable_afterAll_blank 6 5 false _
  have hsolve : Calls.answer (solve ⟨false, false, true, true⟩) bench =
      .ok (.cover ⟨⟨1.0 / 0.0⟩, [4, 0, 1]⟩) := by
    decide +kernel
  clear_value bench
  obtain ⟨hcovers, hgains, -, hlength⟩ := thrifty_of_solve hreachable ⟨false, false, true, true⟩
    bench.stats bench.journal hsolve
  exact ⟨hsolve, hcovers, hgains, hlength⟩

end Workbench

end SetCover

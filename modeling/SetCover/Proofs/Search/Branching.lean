import SetCover.Proofs.Search.Covers
import SetCover.Search.Branching

/-!
# What a node of a search does

A node reduces its table and is then closed, cut off or branched on.  What it answers is read off from
these parts: the node hands its table back, and the columns that were chosen before a branch stand in
front of those that are found in it.
-/

namespace SetCover

/-- The cover together with columns that were chosen before. -/
def Cover.prepend {κ : Type} (chosen : List Nat) (cover : Cover κ) : Cover κ :=
  ⟨cover.cost, chosen ++ cover.columns⟩

theorem Cover.toFinset_prepend {κ : Type} (chosen : List Nat) (cover : Cover κ) :
    (cover.prepend chosen).columns.toFinset = chosen.toFinset ∪ cover.columns.toFinset :=
  List.toFinset_append

theorem Cover.prepend_append {κ : Type} (first second : List Nat) (cover : Cover κ) :
    cover.prepend (first ++ second) = (cover.prepend second).prepend first := by
  simp only [Cover.prepend, List.append_assoc]

theorem Cover.map_prepend_append {κ : Type} (first second : List Nat) (found : Option (Cover κ)) :
    found.map (Cover.prepend (first ++ second)) =
      (found.map (Cover.prepend second)).map (Cover.prepend first) := by
  rw [Option.map_map]
  congr 1
  funext cover
  exact cover.prepend_append first second

theorem Cover.map_prepend_orElse {κ : Type} (chosen : List Nat) (found other : Option (Cover κ)) :
    (found <|> other).map (Cover.prepend chosen) =
      (found.map (Cover.prepend chosen) <|> other.map (Cover.prepend chosen)) := by
  cases found <;> rfl

theorem Cover.map_cost_prepend {κ : Type} (chosen : List Nat) (found : Option (Cover κ)) :
    (found.map (Cover.prepend chosen)).map Cover.cost = found.map Cover.cost := by
  cases found <;> rfl

namespace Matrix

variable {κ : Type} {matrix : Matrix κ} {row column : Nat}

/-! ## Columns to branch on -/

theorem Linked.exists_mem_columnsOf (h : matrix.Linked) (hsettled : matrix.Settled)
    (hactive : matrix.isActive (.row row) = true) : ∃ column, column ∈ matrix.columnsOf row :=
  h.settled_iff.mp hsettled _ hactive

theorem Linked.isActive_of_first? (h : matrix.Linked)
    (hfirst : matrix.columns.first? = some column) : matrix.isActive (.column column) = true := by
  have hhead : matrix.columns.first? = matrix.activeColumns.head? := (h.lines .column).first?_eq
  exact h.mem_active.mpr (List.mem_of_head? (hhead ▸ hfirst))

/-- A search branches on the least column. -/
theorem Linked.le_of_first? (h : matrix.Linked) (hfirst : matrix.columns.first? = some column)
    {other : Nat} (hother : matrix.isActive (.column other) = true) : column ≤ other := by
  have hhead : matrix.columns.first? = matrix.activeColumns.head? := (h.lines .column).first?_eq
  have hascending : matrix.activeColumns.Pairwise (· < ·) := (h.lines .column).ascending
  have hmem : other ∈ matrix.activeColumns := h.mem_active.mp hother
  rw [hhead, List.head?_eq_some_iff] at hfirst
  obtain ⟨rest, hcolumns⟩ := hfirst
  rw [hcolumns] at hascending hmem
  rcases List.mem_cons.mp hmem with rfl | hmem
  · exact le_refl _
  · exact ((List.pairwise_cons.mp hascending).1 other hmem).le

theorem Linked.isEmpty_iff (h : matrix.Linked) : matrix.isEmpty = true ↔ matrix.activeRows = [] := by
  have hrows : matrix.rows.first? = matrix.activeRows.head? := (h.lines .row).first?_eq
  rw [isEmpty, hrows, Option.isNone_iff_eq_none, List.head?_eq_none_iff]

/-- A table with rows has columns. -/
theorem Linked.exists_first? (h : matrix.Linked) (hsettled : matrix.Settled)
    (hempty : ¬matrix.isEmpty = true) : ∃ column, matrix.columns.first? = some column := by
  have hcolumns : matrix.columns.first? = matrix.activeColumns.head? := (h.lines .column).first?_eq
  obtain ⟨row, hrow⟩ := List.exists_mem_of_ne_nil _ (mt h.isEmpty_iff.mpr hempty)
  have hactive : matrix.isActive (.row row) = true := h.mem_active.mpr hrow
  obtain ⟨column, hcolumn⟩ := h.exists_mem_columnsOf hsettled hactive
  have hmem : column ∈ matrix.activeColumns :=
    h.mem_active.mp (h.isActive_of_mem_crossing hactive hcolumn)
  apply Option.ne_none_iff_exists'.mp
  intro hnone
  rw [hcolumns, List.head?_eq_none_iff] at hnone
  rw [hnone] at hmem
  cases hmem

theorem covers_backup {columns : Finset Nat} :
    matrix.backup.Covers columns ↔ matrix.Covers columns :=
  ⟨fun h ↦ ⟨h.active, h.covered⟩, fun h ↦ ⟨h.active, h.covered⟩⟩

theorem Linked.covers_empty (h : matrix.Linked) (hempty : matrix.isEmpty = true) :
    matrix.Covers ∅ := by
  refine ⟨by simp, fun row hrow ↦ ?_⟩
  have hmem : row ∈ matrix.activeRows := h.mem_active.mp hrow
  rw [h.isEmpty_iff.mp hempty] at hmem
  cases hmem

/-- Whether some row has no other column. -/
def forces (matrix : Matrix κ) (column : Nat) : Bool :=
  (matrix.rowsOf column).any fun row ↦ matrix.count (.row row) = 1

theorem Linked.spare_of_not_forces (h : matrix.Linked)
    (hactive : matrix.isActive (.column column) = true) (hforces : ¬matrix.forces column = true) :
    matrix.Spare column := by
  intro row hrow
  obtain ⟨hcrosses, hrowActive⟩ := (h.mem_rowsOf_iff hactive).mp hrow
  have hlisted := (h.mem_columnsOf_iff hrowActive).mpr ⟨hcrosses, hactive⟩
  have hrange := h.inRange_of_isActive hrowActive
  have hnodup : (matrix.columnsOf row).Nodup := (h.ascending _ hrange).imp Nat.ne_of_lt
  apply (exists_mem_ne_iff hnodup ⟨column, hlisted⟩).mpr
  intro honly
  have hcount : matrix.count (.row row) = 1 := (h.length_crossing hrange).symm.trans honly.2
  exact hforces (List.any_eq_true.mpr ⟨row, hrow, decide_eq_true hcount⟩)

end Matrix

namespace Workbench

open SetCover.Matrix

variable {κ : Type} [Cost κ] {matrix : Matrix κ} {explore : κ → Option κ → Work κ (Option (Cover κ))}
  {config : Config} {levels depth column : Nat} {cost base : κ} {best : Option κ}
  {selected : List Nat} {firsts answers : Option (Cover κ) → Prop} {causes : Fault → Prop}

/-! ## Branches and nodes -/

/-- The answer of a branch comes from the answer with the column chosen and, unless some row has no
other column, from the answer with the column deleted, which has to stay below the first one. -/
theorem Yields.branch (h : matrix.Linked) (hsettled : matrix.Settled)
    (hfirst : matrix.columns.first? = some column)
    (hchosen : Yields (explore (cost + matrix.costOf column) best) (matrix.backup.selected column)
      firsts causes)
    (hforced : matrix.forces column = true → ∀ chosen, firsts chosen →
      answers (chosen.map (Cover.prepend (selected ++ [column]))))
    (hdeleted : ¬matrix.forces column = true → ∀ chosen, firsts chosen →
      Yields (explore cost (chosen.map Cover.cost <|> best)) (matrix.backup.deleted (.column column))
        (fun deleted ↦ answers (deleted.map (Cover.prepend selected) <|>
          chosen.map (Cover.prepend (selected ++ [column])))) causes) :
    Yields (branch explore cost selected best depth) matrix answers causes := by
  have hactive := h.isActive_of_first? hfirst
  have hselect := removes_selected h.backup hsettled hactive
  have hdelete := (removes_deleted h.backup hactive).1
  have hmap : ∀ chosen : Option (Cover κ),
      chosen.map (fun cover ↦ ⟨cover.cost, selected ++ column :: cover.columns⟩) =
        chosen.map (Cover.prepend (selected ++ [column])) := fun chosen ↦ by
    apply congrArg (Option.map · chosen)
    funext cover
    rw [Cover.prepend, List.append_assoc, List.singleton_append]
  apply Yields.table
  rw [hfirst]
  refine Yields.note ((Yields.undoing h (Ends.bind (ends_select h.backup hsettled hactive
    (hchosen.removes hselect)))).bind fun chosen hfirsts ↦ ?_)
  dsimp only
  rw [hmap]
  split
  · rename_i hforces
    exact Yields.pure (hforced hforces chosen hfirsts)
  · rename_i hforces
    rw [Cover.map_cost_prepend]
    exact (Yields.undoing h (Ends.bind (ends_delete h.backup hactive
      ((hdeleted hforces chosen hfirsts).removes hdelete)))).bind fun _ ↦ Yields.pure

/-- The answer of a node is that of a leaf or of a branch of the reduced table, or nothing if the node
is cut off. -/
theorem Yields.searchWithin {after : List Nat → Matrix κ → Prop} (h : matrix.Linked)
    (hreduce : Ends (reduce config) matrix.backup
      (fun reduction next ↦ Removes matrix.backup next ∧ after reduction.selected next)
      fun _ _ ↦ False)
    (hleaf : ∀ chosen next, after chosen next → next.isEmpty = true →
      Yields (closeLeaf (Cost.sumFrom base (chosen.map next.costOf)) chosen best depth) next
        answers causes)
    (hcut : ∀ chosen next, after chosen next → ¬next.isEmpty = true →
      Yields (isCutOff config (Cost.sumFrom base (chosen.map next.costOf)) best depth) next
        (fun cut ↦ cut = true → answers none) causes)
    (hbranch : ∀ chosen next, after chosen next → ¬next.isEmpty = true →
      Yields (Workbench.branch (fun cost best ↦ searchWithin config levels cost best (depth + 1))
        (Cost.sumFrom base (chosen.map next.costOf)) chosen best depth) next answers causes) :
    Yields (Workbench.searchWithin config (levels + 1) base best depth) matrix answers causes := by
  refine Yields.count (Yields.undoing h (Ends.bind (hreduce.imp (fun reduction next hnext ↦ ?_)
    fun _ _ hrefused ↦ hrefused.elim)))
  obtain ⟨hremoves, hafter⟩ := hnext
  refine Yields.removes (Yields.table ?_) hremoves
  dsimp only
  split
  · rename_i hempty
    exact hleaf _ next hafter hempty
  · rename_i hempty
    apply (hcut _ next hafter hempty).bind
    intro cut hcut
    split
    · rename_i htrue
      exact Yields.pure (hcut htrue)
    · exact hbranch _ next hafter hempty

/-- The answer of a node whose reduction is known. -/
theorem Yields.searchWithin_of_reduce {chosen : List Nat} {next : Matrix κ} (h : matrix.Linked)
    (hremoves : Removes matrix.backup next)
    (hreduce : Ends (reduce config) matrix.backup
      (fun reduction later ↦ reduction.selected = chosen ∧ later = next) fun _ _ ↦ False)
    (hleaf : next.isEmpty = true →
      Yields (closeLeaf (Cost.sumFrom base (chosen.map next.costOf)) chosen best depth) next
        answers causes)
    (hcut : ¬next.isEmpty = true →
      Yields (isCutOff config (Cost.sumFrom base (chosen.map next.costOf)) best depth) next
        (fun cut ↦ cut = true → answers none) causes)
    (hbranch : ¬next.isEmpty = true →
      Yields (Workbench.branch
        (fun cost best ↦ Workbench.searchWithin config levels cost best (depth + 1))
        (Cost.sumFrom base (chosen.map next.costOf)) chosen best depth) next answers causes) :
    Yields (Workbench.searchWithin config (levels + 1) base best depth) matrix answers causes := by
  let after (columns : List Nat) (later : Matrix κ) : Prop := columns = chosen ∧ later = next
  have hafter : Ends (reduce config) matrix.backup
      (fun reduction later ↦ Removes matrix.backup later ∧ after reduction.selected later)
      fun _ _ ↦ False :=
    hreduce.mono fun _ _ hlater ↦ ⟨hlater.2 ▸ hremoves, hlater⟩
  refine Yields.searchWithin h hafter (fun _ _ hlater ↦ ?_) (fun _ _ hlater ↦ ?_) fun _ _ hlater ↦ ?_
  all_goals obtain ⟨rfl, rfl⟩ := hlater
  · exact hleaf
  · exact hcut
  · exact hbranch

/-- Solving answers with the first row without cells or, if there is none, with what the search
found. -/
theorem Yields.solve (hsearch : Yields (search config Cost.zero none 0) matrix answers causes)
    (hnone : answers none → causes (.breach .noLeaf)) :
    Yields (solve config) matrix (fun answer ↦
      (∀ row, matrix.uncoverable? = some row ↔ answer = .uncoverable row) ∧
        ∀ cover, answer = .cover cover → answers (some cover)) causes := by
  refine Yields.count (Yields.table ?_)
  split
  · rename_i row huncoverable
    refine Yields.note (Yields.pure ⟨fun other ↦ ?_, fun cover heq ↦ ?_⟩)
    · rw [huncoverable, Option.some_inj, Answer.uncoverable.injEq]
    · cases heq
  · rename_i huncoverable
    apply hsearch.onCopy.bind
    intro found hfound
    split
    · exact Yields.throw (hnone hfound)
    · refine Yields.get fun _ _ ↦ Yields.note (Yields.pure ⟨fun row ↦ ?_, fun cover heq ↦ ?_⟩)
      · simp [huncoverable]
      · rwa [← Answer.cover.inj heq]

/-- A reduction only removes lines. -/
theorem ends_reduce_removes (config : Config) (h : matrix.Linked) (hsettled : matrix.Settled) :
    Ends (reduce config) matrix (fun reduction next ↦ Removes matrix next ∧
      Reduces matrix reduction.selected next) fun _ _ ↦ False :=
  (ends_reduce h hsettled config).mono
    fun _ _ hreduces ↦ ⟨((hreduces.deletes h hsettled).removes h hsettled).1, hreduces⟩

end Workbench

end SetCover

import Mathlib.Data.List.Sort
import SetCover.Proofs.Matrix.Deletion

/-!
# What deletions leave

A line is left after a deletion unless it was deleted or its only cell went.  So on a table without
empty lines the lines of one axis can be deleted in any order, and what is left of the other axis are
the lines that still cross one.  Choosing a column deletes its rows in this way, and the column is gone
with the last of them.
-/

namespace SetCover.Matrix

variable {κ : Type} {matrix : Matrix κ} {axis : Axis} {line kept : Line} {indices : List Nat}
  {column index : Nat}

/-! ## One deletion -/

/-- The table has a cell, live or not, where a line meets the crossing line of the given index. -/
def Crosses (matrix : Matrix κ) (line : Line) (index : Nat) : Prop :=
  ∃ slot, matrix.indexAt? line.axis slot = some line.index ∧
    matrix.indexAt? line.axis.cross slot = some index

theorem crosses_congr {first second : Matrix κ} (hcells : first.cells = second.cells) :
    first.Crosses line index ↔ second.Crosses line index := by
  rw [Crosses, Crosses, indexAt?_congr hcells]

theorem crosses_comm :
    matrix.Crosses ⟨line.axis.cross, index⟩ line.index ↔ matrix.Crosses line index := by
  simp only [Crosses, Axis.cross_cross]
  exact exists_congr fun slot ↦ And.comm

/-- An active line shows the active lines that it crosses. -/
theorem Linked.mem_crossing_iff (h : matrix.Linked) (hactive : matrix.isActive line = true) :
    index ∈ matrix.crossing line ↔
      matrix.Crosses line index ∧ matrix.isActive ⟨line.axis.cross, index⟩ = true := by
  have hlive := h.live line (h.not_isDeleted hactive)
  rw [h.mem_crossing (h.inRange_of_isActive hactive), h.active]
  constructor
  · rintro ⟨slot, hslot, hindex, hcrossing⟩
    exact ⟨⟨slot, hindex, hcrossing⟩, ⟨slot, hcrossing⟩,
      (hlive slot index hindex hcrossing).mp hslot⟩
  · rintro ⟨⟨slot, hindex, hcrossing⟩, -, hdeleted⟩
    exact ⟨slot, (hlive slot index hindex hcrossing).mpr hdeleted, hindex, hcrossing⟩

theorem Linked.mem_crossing_comm (h : matrix.Linked) (hactive : matrix.isActive line = true)
    (hcross : matrix.isActive ⟨line.axis.cross, index⟩ = true) :
    line.index ∈ matrix.crossing ⟨line.axis.cross, index⟩ ↔ index ∈ matrix.crossing line := by
  rw [h.mem_crossing_iff hactive, h.mem_crossing_iff hcross, crosses_comm]
  simp [hactive, hcross]

theorem Linked.isActive_of_mem_crossing (h : matrix.Linked) (hactive : matrix.isActive line = true)
    (hindex : index ∈ matrix.crossing line) :
    matrix.isActive ⟨line.axis.cross, index⟩ = true :=
  ((h.mem_crossing_iff hactive).mp hindex).2

theorem Linked.isActive_of_mem_fallen (h : matrix.Linked) (hactive : matrix.isActive line = true)
    (hkept : kept ∈ matrix.fallen line) : matrix.isActive kept = true := by
  obtain ⟨haxis, hcrossing, -⟩ := mem_fallen.mp hkept
  obtain ⟨axis, index⟩ := kept
  obtain rfl : axis = line.axis.cross := haxis
  exact h.isActive_of_mem_crossing hactive hcrossing

theorem Linked.nodup_fallen (h : matrix.Linked) (hactive : matrix.isActive line = true) :
    (line :: matrix.fallen line).Nodup := by
  refine List.nodup_cons.mpr ⟨fun hmem ↦ ?_, ?_⟩
  · exact line.axis.ne_cross (mem_fallen.mp hmem).1
  · refine List.Nodup.map (fun first second heq ↦ congrArg Line.index heq) ?_
    exact (h.droppable hactive).indices.filter _

theorem removes_removeAll {lines : List Line} (h : matrix.Linked) (hnodup : lines.Nodup)
    (hactive : ∀ line ∈ lines, matrix.isActive line = true) :
    Removes matrix (matrix.removeAll lines) ∧
      ∀ kept, (matrix.removeAll lines).isActive kept =
        (matrix.isActive kept && decide (kept ∉ lines)) := by
  induction lines generalizing matrix with
  | nil => exact ⟨.refl, fun kept ↦ by simp [removeAll]⟩
  | cons line rest ih =>
    have hline := hactive line (by simp)
    obtain ⟨hnew, hrest⟩ := List.nodup_cons.mp hnodup
    obtain ⟨hremoves, hkept⟩ := @ih (matrix.remove line) (h.remove hline) hrest
      fun kept hkept ↦ by
        rw [isActive_remove h hline]
        grind
    refine ⟨Removes.trans (.remove .refl hline) hremoves, fun kept ↦ ?_⟩
    rw [removeAll, List.foldl_cons, ← removeAll, hkept, isActive_remove h hline]
    grind

theorem removes_deleted (h : matrix.Linked) (hactive : matrix.isActive line = true) :
    Removes matrix (matrix.deleted line) ∧
      ∀ kept, (matrix.deleted line).isActive kept =
        (matrix.isActive kept && decide (kept ∉ line :: matrix.fallen line)) := by
  apply removes_removeAll h (h.nodup_fallen hactive)
  intro kept hkept
  rcases List.mem_cons.mp hkept with rfl | hkept
  · exact hactive
  · exact h.isActive_of_mem_fallen hactive hkept

/-- On a settled table every active line shows a line that it crosses. -/
theorem Linked.settled_iff (h : matrix.Linked) :
    matrix.Settled ↔
      ∀ line, matrix.isActive line = true → ∃ index, index ∈ matrix.crossing line := by
  refine forall_congr' fun line ↦ forall_congr' fun hactive ↦ ?_
  rw [← h.length_crossing (h.inRange_of_isActive hactive), List.length_pos_iff_exists_mem]

theorem exists_mem_ne_iff {elements : List Nat} {element : Nat} (hnodup : elements.Nodup)
    (hsome : ∃ other, other ∈ elements) :
    (∃ other ∈ elements, other ≠ element) ↔ ¬(element ∈ elements ∧ elements.length = 1) := by
  constructor
  · rintro ⟨other, hother, hne⟩ ⟨hmem, hlength⟩
    obtain ⟨only, rfl⟩ := List.length_eq_one_iff.mp hlength
    grind
  · intro hnot
    by_contra hall
    have hsame : ∀ other ∈ elements, other = element := by simpa using hall
    obtain ⟨other, hother⟩ := hsome
    have honly : elements = [element] := by
      have hreplicate := List.eq_replicate_of_mem hsame
      have hle := List.nodup_replicate.mp (hreplicate ▸ hnodup)
      have hpos := List.length_pos_of_mem hother
      rw [hreplicate, show elements.length = 1 by omega]
      rfl
    exact hnot (by simp [honly])

theorem isActive_deleted (h : matrix.Linked) (hsettled : matrix.Settled)
    (hactive : matrix.isActive line = true) :
    (matrix.deleted line).isActive kept = true ↔ matrix.isActive kept = true ∧ kept ≠ line ∧
      (kept.axis = line.axis.cross → ∃ index ∈ matrix.crossing kept, index ≠ line.index) := by
  rw [(removes_deleted h hactive).2 kept, Bool.and_eq_true, decide_eq_true_iff, List.mem_cons,
    not_or, mem_fallen, not_and]
  refine and_congr_right fun hkept ↦ and_congr_right fun _ ↦ forall_congr' fun haxis ↦ ?_
  obtain ⟨axis, index⟩ := kept
  obtain rfl : axis = line.axis.cross := haxis
  have hrange := h.inRange_of_isActive hkept
  rw [← h.mem_crossing_comm hactive hkept, ← h.length_crossing hrange,
    exists_mem_ne_iff ((h.ascending _ hrange).imp Nat.ne_of_lt) (h.settled_iff.mp hsettled _ hkept)]

theorem isActive_deleted_self (h : matrix.Linked) (hsettled : matrix.Settled)
    (hactive : matrix.isActive line = true) : (matrix.deleted line).isActive line = false := by
  rw [Bool.eq_false_iff]
  intro hkept
  exact ((isActive_deleted h hsettled hactive).mp hkept).2.1 rfl

theorem settled_deleted (h : matrix.Linked) (hsettled : matrix.Settled)
    (hactive : matrix.isActive line = true) : (matrix.deleted line).Settled := by
  have hremoves := (removes_deleted h hactive).1
  have hlinked := hremoves.linked h
  apply hlinked.settled_iff.mpr
  intro kept hkept
  obtain ⟨hbefore, hne, hother⟩ := (isActive_deleted h hsettled hactive).mp hkept
  rcases line.axis.eq_or_eq_cross kept.axis with haxis | haxis
  · -- The line that it crosses keeps it, so it does not fall.
    obtain ⟨index, hindex⟩ := h.settled_iff.mp hsettled kept hbefore
    obtain ⟨hcrosses, hcross⟩ := (h.mem_crossing_iff hbefore).mp hindex
    refine ⟨index, (hlinked.mem_crossing_iff hkept).mpr
      ⟨(crosses_congr hremoves.cells_eq).mpr hcrosses,
        (isActive_deleted h hsettled hactive).mpr ⟨hcross, fun heq ↦ ?_, fun _ ↦ ?_⟩⟩⟩
    · exact kept.axis.cross_ne ((congrArg Line.axis heq).trans haxis.symm)
    · refine ⟨kept.index, (h.mem_crossing_comm hbefore hcross).mpr hindex, fun heq ↦ hne ?_⟩
      cases kept
      cases line
      simp_all
  · obtain ⟨index, hindex, hdistinct⟩ := hother haxis
    obtain ⟨hcrosses, hcross⟩ := (h.mem_crossing_iff hbefore).mp hindex
    refine ⟨index, (hlinked.mem_crossing_iff hkept).mpr
      ⟨(crosses_congr hremoves.cells_eq).mpr hcrosses,
        (isActive_deleted h hsettled hactive).mpr ⟨hcross, fun heq ↦ ?_, fun hcrossing ↦ ?_⟩⟩⟩
    · exact hdistinct (congrArg Line.index heq)
    · rw [haxis, Axis.cross_cross] at hcrossing
      exact absurd hcrossing line.axis.ne_cross

/-- Parallel lines keep what they show. -/
theorem crossing_deleted (h : matrix.Linked) (hactive : matrix.isActive line = true)
    (hrange : matrix.InRange kept) (haxis : kept.axis = line.axis) :
    (matrix.deleted line).crossing kept = matrix.crossing kept := by
  have hcells := (removes_deleted h hactive).1.cells_eq
  rw [crossing, crossing, slots_deleted h hactive, slots_remove h hactive hrange, if_pos haxis,
    indexAt?_congr hcells]

/-- A line that falls shows nothing any more. -/
theorem crossing_deleted_of_mem_fallen (h : matrix.Linked) (hactive : matrix.isActive line = true)
    (hkept : kept ∈ matrix.fallen line) : (matrix.deleted line).crossing kept = [] := by
  rw [crossing, slots_deleted h hactive, slots_remove_of_mem_fallen h hactive hkept]
  rfl

/-! ## Several deletions -/

/-- The second table has come about from the first by deletions of active lines. -/
inductive Deletes (start : Matrix κ) : Matrix κ → Prop
  | refl : Deletes start start
  | delete {matrix : Matrix κ} {line : Line} : Deletes start matrix →
      matrix.isActive line = true → Deletes start (matrix.deleted line)

namespace Deletes

variable {start next : Matrix κ}

theorem trans (h : Deletes start matrix) (hnext : Deletes matrix next) : Deletes start next := by
  induction hnext with
  | refl => exact h
  | delete _ hactive ih => exact ih.delete hactive

theorem removes (h : Deletes start matrix) (hstart : start.Linked) (hsettled : start.Settled) :
    Removes start matrix ∧ matrix.Settled := by
  induction h with
  | refl => exact ⟨.refl, hsettled⟩
  | delete _ hactive ih =>
    have hlinked := ih.1.linked hstart
    exact ⟨ih.1.trans (removes_deleted hlinked hactive).1, settled_deleted hlinked ih.2 hactive⟩

theorem linked (h : Deletes start matrix) (hstart : start.Linked) (hsettled : start.Settled) :
    matrix.Linked :=
  (h.removes hstart hsettled).1.linked hstart

theorem settled (h : Deletes start matrix) (hstart : start.Linked) (hsettled : start.Settled) :
    matrix.Settled :=
  (h.removes hstart hsettled).2

end Deletes

/-- The table after the deletion of several lines of one axis. -/
def deletedAll (axis : Axis) (indices : List Nat) (matrix : Matrix κ) : Matrix κ :=
  indices.foldl (fun matrix index ↦ matrix.deleted ⟨axis, index⟩) matrix

/-- What is known of the table after the deletion of several lines of one axis. -/
structure AllDeleted (axis : Axis) (indices : List Nat) (before after : Matrix κ) : Prop where
  deletes : Deletes before after
  parallel : ∀ index, after.isActive ⟨axis, index⟩ = true ↔
    before.isActive ⟨axis, index⟩ = true ∧ index ∉ indices
  crossing : ∀ index, after.isActive ⟨axis.cross, index⟩ = true ↔
    before.isActive ⟨axis.cross, index⟩ = true ∧
      ∃ other ∈ before.crossing ⟨axis.cross, index⟩, other ∉ indices
  /-- Parallel lines keep what they show. -/
  kept : ∀ index, before.InRange ⟨axis, index⟩ →
    after.crossing ⟨axis, index⟩ = before.crossing ⟨axis, index⟩
  /-- The lines that fall show nothing any more. -/
  emptied : ∀ index, before.isActive ⟨axis.cross, index⟩ = true →
    after.isActive ⟨axis.cross, index⟩ = false → after.crossing ⟨axis.cross, index⟩ = []

theorem AllDeleted.nil (h : matrix.Linked) (hsettled : matrix.Settled) :
    AllDeleted axis [] matrix matrix where
  deletes := .refl
  parallel index := by simp
  crossing index := by
    constructor
    · intro hactive
      obtain ⟨other, hother⟩ := h.settled_iff.mp hsettled _ hactive
      exact ⟨hactive, other, hother, by simp⟩
    · exact fun hactive ↦ hactive.1
  kept index _ := rfl
  emptied index hbefore hafter := by
    rw [hbefore] at hafter
    cases hafter

theorem AllDeleted.cons {after : Matrix κ} (h : matrix.Linked) (hsettled : matrix.Settled)
    (hactive : matrix.isActive ⟨axis, index⟩ = true)
    (hrest : AllDeleted axis indices (matrix.deleted ⟨axis, index⟩) after) :
    AllDeleted axis (index :: indices) matrix after where
  deletes := Deletes.trans (.delete .refl hactive) hrest.deletes
  parallel other := by
    have hfirst := @isActive_deleted _ _ _ ⟨axis, other⟩ h hsettled hactive
    simp only [Axis.ne_cross, false_imp_iff, and_true, ne_eq, Line.mk.injEq, true_and] at hfirst
    rw [hrest.parallel, hfirst, List.mem_cons, not_or, and_assoc]
  crossing other := by
    have hlinked := (removes_deleted h hactive).1.linked h
    have hfirst := @isActive_deleted _ _ _ ⟨axis.cross, other⟩ h hsettled hactive
    simp only [Axis.cross_ne, ne_eq, Line.mk.injEq, false_and, not_false_eq_true, true_and,
      true_imp_iff] at hfirst
    rw [hrest.crossing]
    constructor
    · rintro ⟨hother, row, hrow, hnew⟩
      have hbefore := (hfirst.mp hother).1
      obtain ⟨hcrosses, hrowActive⟩ := (hlinked.mem_crossing_iff hother).mp hrow
      have hrowBefore := (isActive_deleted h hsettled hactive).mp hrowActive
      refine ⟨hbefore, row, (h.mem_crossing_iff hbefore).mpr
        ⟨(crosses_congr (removes_deleted h hactive).1.cells_eq).mp hcrosses, hrowBefore.1⟩, ?_⟩
      simp only [Axis.cross_cross, ne_eq, Line.mk.injEq, true_and] at hrowBefore
      simp [hnew, hrowBefore.2.1]
    · rintro ⟨hbefore, row, hrow, hnew⟩
      rw [List.mem_cons, not_or] at hnew
      have hother := hfirst.mpr ⟨hbefore, row, hrow, hnew.1⟩
      obtain ⟨hcrosses, hrowActive⟩ := (h.mem_crossing_iff hbefore).mp hrow
      refine ⟨hother, row, (hlinked.mem_crossing_iff hother).mpr
        ⟨(crosses_congr (removes_deleted h hactive).1.cells_eq).mpr hcrosses, ?_⟩, hnew.2⟩
      refine (isActive_deleted h hsettled hactive).mpr ⟨hrowActive, ?_, ?_⟩
      · simp [hnew.1]
      · simp
  kept other hrange := by
    have hnext := (removes_deleted h hactive).1.inRange_iff.mpr hrange
    rw [hrest.kept other hnext]
    exact crossing_deleted h hactive hrange rfl
  emptied other hbefore hafter := by
    have hremoves := (removes_deleted h hactive).1
    have hlinked := hremoves.linked h
    cases hnext : (matrix.deleted ⟨axis, index⟩).isActive ⟨axis.cross, other⟩ with
    | true => exact hrest.emptied other hnext hafter
    | false =>
      -- It fell with the first line, and nothing changes its ring afterwards.
      have hrange := hremoves.inRange_iff.mpr (h.inRange_of_isActive hbefore)
      have hlater := hrest.deletes.removes hlinked (settled_deleted h hsettled hactive)
      rw [hlater.1.crossing_eq hlinked hrange hnext]
      apply crossing_deleted_of_mem_fallen h hactive
      rw [(removes_deleted h hactive).2, hbefore, Bool.true_and, decide_eq_false_iff_not,
        not_not] at hnext
      apply (List.mem_cons.mp hnext).resolve_left
      intro heq
      exact axis.cross_ne (congrArg Line.axis heq)

/-- Active lines of one axis can be deleted one after the other. -/
theorem forM_delete (h : matrix.Linked) (hsettled : matrix.Settled) (hnodup : indices.Nodup)
    (hactive : ∀ index ∈ indices, matrix.isActive ⟨axis, index⟩ = true) :
    indices.forM (fun index ↦ delete ⟨axis, index⟩) matrix = .ok () (matrix.deletedAll axis indices) ∧
      AllDeleted axis indices matrix (matrix.deletedAll axis indices) := by
  induction indices generalizing matrix with
  | nil => exact ⟨rfl, .nil h hsettled⟩
  | cons index rest ih =>
    have hfirst := hactive index (by simp)
    obtain ⟨hnew, hrest⟩ := List.nodup_cons.mp hnodup
    have hlinked := (removes_deleted h hfirst).1.linked h
    have hkept : ∀ other ∈ rest, (matrix.deleted ⟨axis, index⟩).isActive ⟨axis, other⟩ = true := by
      intro other hother
      refine (isActive_deleted h hsettled hfirst).mpr ⟨hactive other (by simp [hother]), ?_, ?_⟩
      · rintro heq
        obtain rfl : other = index := congrArg Line.index heq
        exact hnew hother
      · simp
    obtain ⟨hrun, hdeleted⟩ := ih hlinked (settled_deleted h hsettled hfirst) hrest hkept
    exact ⟨(Calls.bind_ok (delete_of_isActive h hfirst)).trans hrun,
      .cons h hsettled hfirst hdeleted⟩

/-! ## Choosing a column -/

/-- The table after a column has been chosen. -/
def selected (column : Nat) (matrix : Matrix κ) : Matrix κ :=
  matrix.deletedAll .row (matrix.rowsOf column)

theorem allDeleted_selected (h : matrix.Linked) (hsettled : matrix.Settled)
    (hactive : matrix.isActive (.column column) = true) :
    (matrix.rowsOf column).forM (fun row ↦ delete (.row row)) matrix =
        .ok () (matrix.selected column) ∧
      AllDeleted .row (matrix.rowsOf column) matrix (matrix.selected column) :=
  forM_delete h hsettled
    ((h.ascending (.column column) (h.inRange_of_isActive hactive)).imp Nat.ne_of_lt)
    fun _ hrow ↦ h.isActive_of_mem_crossing hactive hrow

theorem isActive_column_selected (h : matrix.Linked) (hsettled : matrix.Settled)
    (hactive : matrix.isActive (.column column) = true) :
    (matrix.selected column).isActive (.column column) = false := by
  rw [Bool.eq_false_iff]
  intro hkept
  obtain ⟨-, row, hrow, hnot⟩ :=
    ((allDeleted_selected h hsettled hactive).2.crossing column).mp hkept
  exact hnot hrow

theorem removes_selected (h : matrix.Linked) (hsettled : matrix.Settled)
    (hactive : matrix.isActive (.column column) = true) : Removes matrix (matrix.selected column) :=
  ((allDeleted_selected h hsettled hactive).2.deletes.removes h hsettled).1

theorem settled_selected (h : matrix.Linked) (hsettled : matrix.Settled)
    (hactive : matrix.isActive (.column column) = true) : (matrix.selected column).Settled :=
  (allDeleted_selected h hsettled hactive).2.deletes.settled h hsettled

theorem select_of_isActive (h : matrix.Linked) (hsettled : matrix.Settled)
    (hactive : matrix.isActive (.column column) = true) :
    select column matrix = .ok () (matrix.selected column) := by
  have hrequire := requireLine_ok (h.inRange_of_isActive hactive)
  have hrows := (allDeleted_selected h hsettled hactive).1
  rw [List.forM_eq_forM] at hrows
  have hgone := isActive_column_selected h hsettled hactive
  simp [select, hrequire, hactive, hrows, hgone]

/-- The choice of a column that is not active is refused. -/
theorem select_of_not_isActive (hactive : matrix.isActive (.column column) = false) :
    select column matrix = .error (if column < matrix.columnSize then .columnDeleted column
      else .lineOutOfRange (.column column) matrix.columnSize) matrix := by
  by_cases hrange : column < matrix.columnSize
  · have hrequire : requireLine (.column column) matrix = .ok () matrix := requireLine_ok hrange
    rw [if_pos hrange]
    simp [select, hrequire, hactive]
  · rw [if_neg hrange]
    have hrequire : requireLine (.column column) matrix =
        .error (.lineOutOfRange (.column column) matrix.columnSize) matrix :=
      requireLine_error hrange
    exact Calls.bind_error hrequire

/-- The rows that are left when a column is chosen keep their columns. -/
theorem Linked.columnsOf_of_select (h : matrix.Linked) (hsettled : matrix.Settled) {row : Nat}
    {next : Matrix κ} (hselect : select column matrix = .ok () next) (hrow : row ∈ next.activeRows) :
    next.columnsOf row = matrix.columnsOf row := by
  cases hactive : matrix.isActive (.column column) with
  | true =>
    obtain rfl := Calls.next_eq (select_of_isActive h hsettled hactive) hselect
    have hdeleted := (allDeleted_selected h hsettled hactive).2
    have hlinked := hdeleted.deletes.linked h hsettled
    have hkept : (matrix.selected column).isActive (.row row) = true := hlinked.mem_active.mpr hrow
    exact hdeleted.kept row (h.inRange_of_isActive ((hdeleted.parallel row).mp hkept).1)
  | false =>
    rw [select_of_not_isActive hactive] at hselect
    cases hselect

end SetCover.Matrix

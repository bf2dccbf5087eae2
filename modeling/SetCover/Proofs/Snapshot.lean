import SetCover.Proofs.Inserted
import SetCover.Proofs.Likeness

/-!
# What a snapshot shows

A snapshot of a reachable table holds the cells that were inserted and whose row and column are both
active, each once and in row-major order.  Bisection finds a cell if and only if it is among those, the
text has a mark in their places and nowhere else, and two snapshots are the same if and only if the
tables have the same lines, live cells and costs.

Bisection is right on cells in strict order only.  This order comes from the rings: the ring of the
active rows is ascending in every linked table, and so is the ring of every line.  No cell of a deleted
column is listed, since the ring of an active row does not show any.
-/

namespace SetCover

namespace Snapshot

variable {κ : Type} {cells : Array (Nat × Nat)} {first second cell : Nat × Nat}
  {position other low high : Nat}

/-! ## Bisection -/

/-- Row-major order. -/
def Precedes (first second : Nat × Nat) : Prop :=
  first.1 < second.1 ∨ first.1 = second.1 ∧ first.2 < second.2

theorem Precedes.asymm (h : Precedes first second) : ¬Precedes second first := by
  unfold Precedes at *
  omega

theorem cellOrder_eq_lt_iff : cellOrder first second = .lt ↔ Precedes first second := by
  rw [Precedes, cellOrder, compareLex, Ordering.then_eq_lt, compareOn, compareOn, Nat.compare_eq_lt,
    Nat.compare_eq_eq, Nat.compare_eq_lt]

instance : Std.OrientedCmp cellOrder :=
  inferInstanceAs (Std.OrientedCmp (compareLex (compareOn Prod.fst) (compareOn Prod.snd)))

theorem cellOrder_eq_gt_iff : cellOrder first second = .gt ↔ Precedes second first :=
  Std.OrientedCmp.gt_iff_lt.trans cellOrder_eq_lt_iff

theorem cellOrder_eq_eq_iff : cellOrder first second = .eq ↔ first = second := by
  rw [cellOrder, compareLex, Ordering.then_eq_eq, compareOn, compareOn, Nat.compare_eq_eq,
    Nat.compare_eq_eq, Prod.ext_iff]

/-- A cell that comes before another stands before it. -/
theorem position_lt (hsorted : cells.toList.Pairwise Precedes)
    (hfirst : cells[position]? = some first) (hsecond : cells[other]? = some second)
    (hprecedes : Precedes first second) : position < other := by
  rw [← Array.getElem?_toList] at hfirst hsecond
  obtain ⟨hposition, rfl⟩ := List.getElem?_eq_some_iff.mp hfirst
  obtain ⟨hother, rfl⟩ := List.getElem?_eq_some_iff.mp hsecond
  rcases Nat.lt_trichotomy position other with hlt | rfl | hgt
  · exact hlt
  · exact absurd hprecedes hprecedes.asymm
  · exact absurd (List.pairwise_iff_getElem.mp hsorted _ _ hother hposition hgt) hprecedes.asymm

/-- Halving never loses the cell: what is given up holds only cells before it or only cells after it. -/
theorem bisect_eq_true_iff (hsorted : cells.toList.Pairwise Precedes) {steps : Nat}
    (hhigh : high ≤ cells.size) (hsteps : high - low < steps) :
    bisect cells cell steps low high = true ↔
      ∃ position, low ≤ position ∧ position < high ∧ cells[position]? = some cell := by
  induction steps generalizing low high with
  | zero => omega
  | succ steps ih =>
    rw [bisect]
    by_cases hlow : low < high
    swap
    · rw [if_neg hlow]
      constructor
      · exact fun hfalse ↦ absurd hfalse Bool.false_ne_true
      · rintro ⟨position, hle, hlt, -⟩
        omega
    obtain ⟨found, hfound⟩ : ∃ found, cells[(low + high) / 2]? = some found :=
      ⟨_, Array.getElem?_eq_getElem (by omega)⟩
    rw [if_pos hlow]
    simp only [hfound]
    cases horder : cellOrder found cell with
    | lt =>
      have hprecedes := cellOrder_eq_lt_iff.mp horder
      simp only
      rw [ih hhigh (by omega)]
      constructor
      · rintro ⟨position, hle, hlt, hcell⟩
        exact ⟨position, by omega, hlt, hcell⟩
      · rintro ⟨position, -, hlt, hcell⟩
        exact ⟨position, position_lt hsorted hfound hcell hprecedes, hlt, hcell⟩
    | gt =>
      have hprecedes := cellOrder_eq_gt_iff.mp horder
      simp only
      rw [ih (by omega) (by omega)]
      constructor
      · rintro ⟨position, hle, hlt, hcell⟩
        exact ⟨position, hle, by omega, hcell⟩
      · rintro ⟨position, hle, -, hcell⟩
        exact ⟨position, hle, position_lt hsorted hcell hfound hprecedes, hcell⟩
    | eq =>
      obtain rfl := cellOrder_eq_eq_iff.mp horder
      exact iff_of_true rfl ⟨_, by omega, by omega, hfound⟩

variable {snapshot : Snapshot κ} {row column : Nat}

theorem contains_iff_mem (hsorted : snapshot.cells.toList.Pairwise Precedes) :
    snapshot.contains row column = true ↔ (row, column) ∈ snapshot.cells.toList := by
  rw [contains, bisect_eq_true_iff hsorted (Nat.le_refl _) (by omega), Array.mem_toList_iff,
    Array.mem_iff_getElem?]
  constructor
  · rintro ⟨position, -, -, hcell⟩
    exact ⟨position, hcell⟩
  · rintro ⟨position, hcell⟩
    exact ⟨position, Nat.zero_le _, (Array.getElem?_eq_some_iff.mp hcell).1, hcell⟩

/-! ## The picture -/

/-- Blocks of one length lie at multiples of it. -/
theorem getElem?_flatMap {α β : Type} {blocks : List α} {block : α} {content : α → List β}
    {width index offset : Nat} (hwidth : ∀ block ∈ blocks, (content block).length = width)
    (hblock : blocks[index]? = some block) (hoffset : offset < width) :
    (blocks.flatMap content)[index * width + offset]? = (content block)[offset]? := by
  induction blocks generalizing index with
  | nil => cases hblock
  | cons first rest ih =>
    have hfirst : (content first).length = width := hwidth first (by simp)
    rw [List.flatMap_cons]
    cases index with
    | zero =>
      obtain rfl : first = block := Option.some.inj hblock
      rw [Nat.zero_mul, Nat.zero_add, List.getElem?_append_left (by omega)]
    | succ index =>
      have hskip : (index + 1) * width + offset - width = index * width + offset := by
        rw [Nat.add_mul]
        omega
      rw [List.getElem?_append_right (by rw [Nat.add_mul]; omega), hfirst, hskip]
      exact ih (fun other hother ↦ hwidth other (by simp [hother])) hblock

theorem toList_text : snapshot.text.toList = (List.range snapshot.rowSize).flatMap fun row ↦
    (List.range snapshot.columnSize).map (fun column ↦
      if snapshot.contains row column then '1' else '.') ++ ['\n'] := by
  rw [text, String.toList_join, List.flatMap_map]
  simp only [rowText, String.toList_append, String.toList_ofList]
  rfl

theorem length_text :
    snapshot.text.toList.length = snapshot.rowSize * (snapshot.columnSize + 1) := by
  rw [toList_text, List.length_flatMap]
  simp

/-- What stands in a line of the picture. -/
theorem getElem?_text (hrow : row < snapshot.rowSize) (hcolumn : column < snapshot.columnSize) :
    snapshot.text.toList[row * (snapshot.columnSize + 1) + column]? =
      some (if snapshot.contains row column then '1' else '.') := by
  rw [toList_text, getElem?_flatMap (fun _ _ ↦ by simp) (List.getElem?_range hrow) (by omega),
    List.getElem?_append_left (by simpa), List.getElem?_map, List.getElem?_range hcolumn]
  rfl

/-- A line of the picture ends after the last column. -/
theorem getElem?_text_columnSize (hrow : row < snapshot.rowSize) :
    snapshot.text.toList[row * (snapshot.columnSize + 1) + snapshot.columnSize]? = some '\n' := by
  rw [toList_text, getElem?_flatMap (fun _ _ ↦ by simp) (List.getElem?_range hrow) (by omega),
    List.getElem?_append_right (by simp)]
  simp

end Snapshot

/-! ## Snapshots of tables -/

namespace Matrix

open Snapshot

variable {κ : Type} {matrix other : Matrix κ} {inserted entered : Finset Cell} {line : Line}
  {row column : Nat}

/-- A cell is live if it was inserted and its row and its column are active. -/
def Live (matrix : Matrix κ) (inserted : Finset Cell) (cell : Cell) : Prop :=
  cell ∈ inserted ∧ matrix.isActive (.row cell.row) = true ∧
    matrix.isActive (.column cell.column) = true

instance (matrix : Matrix κ) (inserted : Finset Cell) (cell : Cell) :
    Decidable (matrix.Live inserted cell) :=
  inferInstanceAs (Decidable (_ ∧ _ ∧ _))

/-- The ring of an active line shows the live cells on it. -/
theorem Linked.mem_crossing_iff_live (h : matrix.Linked) (hholds : matrix.Holds inserted)
    (hactive : matrix.isActive line = true) {index : Nat} :
    index ∈ matrix.crossing line ↔ matrix.Live inserted (line.meet index) := by
  rw [h.mem_crossing_iff hactive, crosses_iff_hasCell, hholds, Live]
  obtain ⟨axis, position⟩ := line
  cases axis
  · exact and_congr_right fun _ ↦ (and_iff_right hactive).symm
  · exact and_congr_right fun _ ↦ (and_iff_left hactive).symm

variable [Cost κ]

theorem Linked.sorted_snapshot (h : matrix.Linked) :
    matrix.snapshot.cells.toList.Pairwise Precedes := by
  change List.Pairwise Precedes (matrix.activeRows.flatMap fun row ↦
    (matrix.columnsOf row).map fun column ↦ (row, column))
  rw [List.pairwise_flatMap]
  constructor
  · intro row hrow
    have hactive : matrix.isActive (.row row) = true := h.mem_active.mpr hrow
    have hascending : (matrix.columnsOf row).Pairwise (· < ·) :=
      h.ascending _ (h.inRange_of_isActive hactive)
    exact List.pairwise_map.mpr (hascending.imp fun hless ↦ .inr ⟨rfl, hless⟩)
  · apply (h.lines .row).ascending.imp
    intro first second hless
    simp only [List.mem_map]
    rintro _ ⟨column, -, rfl⟩ _ ⟨other, -, rfl⟩
    exact .inl hless

theorem Linked.mem_snapshot_iff (h : matrix.Linked) (hholds : matrix.Holds inserted) :
    (row, column) ∈ matrix.snapshot.cells.toList ↔ matrix.Live inserted ⟨row, column⟩ := by
  rw [mem_cells_snapshot]
  constructor
  · rintro ⟨hrow, hcolumn⟩
    exact (h.mem_crossing_iff_live hholds (h.mem_active.mpr hrow)).mp hcolumn
  · intro hlive
    exact ⟨h.mem_active.mp hlive.2.1, (h.mem_crossing_iff_live hholds hlive.2.1).mpr hlive⟩

theorem Linked.contains_snapshot_iff (h : matrix.Linked) (hholds : matrix.Holds inserted) :
    matrix.snapshot.contains row column = true ↔ matrix.Live inserted ⟨row, column⟩ := by
  rw [contains_iff_mem h.sorted_snapshot, h.mem_snapshot_iff hholds]

/-- Tables with the same lines, live cells and costs look alike. -/
theorem Intact.alike_of_live (h : matrix.Intact) (hother : other.Intact)
    (hholds : matrix.Holds inserted) (hentered : other.Holds entered)
    (hsize : ∀ axis, (matrix.lines axis).size = (other.lines axis).size)
    (hactive : ∀ line, matrix.isActive line = other.isActive line)
    (hlive : ∀ cell, matrix.Live inserted cell ↔ other.Live entered cell)
    (hcosts : ∀ column < matrix.columnSize, matrix.costOf column = other.costOf column) :
    Alike matrix other where
  linked := ⟨h.linked, hother.linked⟩
  settled := ⟨h.settled, hother.settled⟩
  size := hsize
  active axis := h.linked.active_congr hother.linked fun _ ↦ hactive _
  crossing line hline := by
    have hlineOther : other.isActive line = true := hactive line ▸ hline
    apply (h.linked.ascending line (h.linked.inRange_of_isActive hline)).eq_of_mem_iff
      (hother.linked.ascending line (hother.linked.inRange_of_isActive hlineOther))
    intro index
    rw [h.linked.mem_crossing_iff_live hholds hline,
      hother.linked.mem_crossing_iff_live hentered hlineOther, hlive]
  costOf := hcosts

theorem Intact.same_snapshot_iff [LawfulCost κ] (h : matrix.Intact) (hother : other.Intact)
    (hholds : matrix.Holds inserted) (hentered : other.Holds entered)
    (hsize : ∀ axis, (matrix.lines axis).size = (other.lines axis).size) :
    matrix.snapshot.same other.snapshot = true ↔
      (∀ line, matrix.isActive line = other.isActive line) ∧
      (∀ cell, matrix.Live inserted cell ↔ other.Live entered cell) ∧
      ∀ column < matrix.columnSize, matrix.costOf column = other.costOf column := by
  rw [Snapshot.same_iff]
  constructor
  · intro hsame
    have halike := h.linked.alike hother.linked ⟨h.settled, hother.settled⟩ hsame
    refine ⟨halike.isActive_eq, fun cell ↦ ?_, halike.costOf⟩
    rw [← h.linked.mem_snapshot_iff hholds, ← hother.linked.mem_snapshot_iff hentered, hsame]
  · rintro ⟨hactive, hlive, hcosts⟩
    exact (h.alike_of_live hother hholds hentered hsize hactive hlive hcosts).snapshot_eq

/-- Snapshots of reachable tables are faithful and can be searched.  The cells are in strict row-major
order, and they are the ones that were inserted and whose row and column are active.  Bisection answers
whether a cell is one of them, for all rows and columns, deleted ones and those outside the table too.
The text has as many lines as there are rows and in each as many characters as there are columns, a
mark for every live cell and a dot in every other place.  Two tables of the same shape have the same
snapshots if and only if the same lines are active in them, the same cells live, and the costs equal. -/
theorem snapshot_of_reachableWith [LawfulCost κ] (h : matrix.ReachableWith inserted) :
    let snapshot := matrix.snapshot
    snapshot.cells.toList.Pairwise Precedes ∧
    (∀ row column, (row, column) ∈ snapshot.cells.toList ↔ matrix.Live inserted ⟨row, column⟩) ∧
    (∀ row column, snapshot.contains row column = true ↔ matrix.Live inserted ⟨row, column⟩) ∧
    snapshot.text.toList.length = matrix.rowSize * (matrix.columnSize + 1) ∧
    (∀ row < matrix.rowSize,
      (∀ column < matrix.columnSize,
        snapshot.text.toList[row * (matrix.columnSize + 1) + column]? =
          some (if matrix.Live inserted ⟨row, column⟩ then '1' else '.')) ∧
      snapshot.text.toList[row * (matrix.columnSize + 1) + matrix.columnSize]? = some '\n') ∧
    ∀ (other : Matrix κ) (entered : Finset Cell), other.ReachableWith entered →
      matrix.rowSize = other.rowSize → matrix.columnSize = other.columnSize →
      (snapshot.same other.snapshot = true ↔
        (∀ line, matrix.isActive line = other.isActive line) ∧
        (∀ cell, matrix.Live inserted cell ↔ other.Live entered cell) ∧
        ∀ column < matrix.columnSize, matrix.costOf column = other.costOf column) := by
  intro snapshot
  have hintact := h.reachable.intact
  have hcontains (row column : Nat) :
      snapshot.contains row column = true ↔ matrix.Live inserted ⟨row, column⟩ :=
    hintact.linked.contains_snapshot_iff h.holds
  refine ⟨hintact.linked.sorted_snapshot,
    fun _ _ ↦ hintact.linked.mem_snapshot_iff h.holds, hcontains, length_text,
    fun row hrow ↦ ⟨fun column hcolumn ↦ ?_, getElem?_text_columnSize hrow⟩,
    fun other entered hother hrows hcolumns ↦ ?_⟩
  · have htext := @getElem?_text _ snapshot row column hrow hcolumn
    simp only [hcontains] at htext
    exact htext
  · refine hintact.same_snapshot_iff hother.reachable.intact h.holds hother.holds fun axis ↦ ?_
    cases axis
    · exact hrows
    · exact hcolumns

/-- A row is deleted and takes a column with it.  Their cells and those outside the table are not found,
and a table that never had these cells has the same live ones. -/
theorem snapshot_of_reachableWith_fallen :
    let start := Workbench.blank SingleCost 2 3 false
    let operations : List Operation := [.insert 0 1, .insert 1 2, .insert 0 0, .insert 1 1, .insert 2 0,
      .backup, .delete (.row 0)]
    let matrix := (Operation.afterAll operations start).matrix
    let inserted := Operation.insertedAfterAll operations start ∅
    let further : List Operation := [.insert 1 1, .insert 1 2]
    let other := (Operation.afterAll further start).matrix
    let entered := Operation.insertedAfterAll further start ∅
    matrix.snapshot.contains 1 2 = true ∧ matrix.snapshot.contains 0 1 = false ∧
      matrix.snapshot.contains 2 0 = false ∧ matrix.snapshot.contains 1 7 = false ∧
      matrix.snapshot.text.toList[1 * (matrix.columnSize + 1) + 2]? = some '1' ∧
      ∀ cell, matrix.Live inserted cell ↔ other.Live entered cell := by
  intro start operations matrix inserted further other entered
  have hstart : start.matrix.ReachableWith ∅ := .new (new_blank 2 3 false)
  have hmatrix : matrix.ReachableWith inserted := hstart.afterAll operations
  have hother : other.ReachableWith entered := hstart.afterAll further
  have hlive : matrix.Live inserted ⟨1, 2⟩ ∧ ¬matrix.Live inserted ⟨0, 1⟩ ∧
      ¬matrix.Live inserted ⟨2, 0⟩ ∧ ¬matrix.Live inserted ⟨1, 7⟩ := by
    decide +kernel
  have hsize : matrix.rowSize = 2 ∧ matrix.columnSize = 3 ∧ other.rowSize = 2 ∧
      other.columnSize = 3 := by
    decide +kernel
  have hsame : matrix.snapshot.same other.snapshot = true := by decide +kernel
  clear_value matrix inserted other entered
  obtain ⟨-, -, hcontains, -, htext, hequal⟩ := snapshot_of_reachableWith hmatrix
  obtain ⟨hrows, hcolumns, hrowsOther, hcolumnsOther⟩ := hsize
  refine ⟨(hcontains 1 2).mpr hlive.1, Bool.eq_false_iff.mpr ((hcontains 0 1).not.mpr hlive.2.1),
    Bool.eq_false_iff.mpr ((hcontains 2 0).not.mpr hlive.2.2.1),
    Bool.eq_false_iff.mpr ((hcontains 1 7).not.mpr hlive.2.2.2), ?_, ?_⟩
  · have hplace := (htext 1 (by omega)).1 2 (by omega)
    rwa [if_pos hlive.1] at hplace
  · exact ((hequal other entered hother (by omega) (by omega)).mp hsame).2.1

end Matrix

end SetCover

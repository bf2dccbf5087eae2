import SetCover.Proofs.Matrix.Remaining

/-!
# Deletions that cascade

A deletion can be told as it happens.  The ring of the line is followed as it is at every step, and a
line that loses its last cell is deleted in the same way, in the middle of the walk.  On a linked table
this comes to the same as reading the slots beforehand and retiring the lines that have lost their cells:
the cells are taken out of the rings of the other axis, so the walk never leaves the ring that it
started on, and the ring of a line that falls is empty.

The choice of a column follows its ring too.  There every row takes its cell out of this ring, always the
first one that is left, so a walk that looks ahead before each deletion meets the rows of the start.
-/

namespace SetCover.Matrix

open Lines

variable {κ : Type} {matrix next : Matrix κ} {axis : Axis} {line : Line} {slot index steps : Nat}
  {slots : List Nat}

/-- Takes the cell in a slot out of the ring of its line along an axis, and calls `fall` on a line that
has lost its last cell. -/
def dropWith (fall : Line → Edit κ Unit) (axis : Axis) (slot : Nat) : Edit κ Unit := do
  match (← get).indexAt? axis slot with
  | none => throw (.slotVacant slot)
  | some index =>
    if (← get).count ⟨axis, index⟩ = 0 then
      throw (.breach .countUnderflow)
    modify (modifyLines axis fun lines ↦ lines.drop index slot)
    if (← get).count ⟨axis, index⟩ = 0 then
      fall ⟨axis, index⟩

mutual

/-- Deletes a line along its ring, with the given number of nested calls and steps to spend. -/
def cascade : Nat → Line → Edit κ Unit
  | 0, _ => throw (.breach .outOfSteps)
  | steps + 1, line => do
    requireLine line
    retire line
    cascadeFrom steps line (((← get).lines line.axis).rings.next line.index)

/-- Goes on with the deletion of a line from a node of its ring. -/
def cascadeFrom : Nat → Line → Nat → Edit κ Unit
  | 0, _, _ => throw (.breach .outOfSteps)
  | steps + 1, line, node => do
    if node ≠ line.index then
      dropWith (cascade steps) line.axis.cross (node - ((← get).lines line.axis).size)
      cascadeFrom steps line (((← get).lines line.axis).rings.next node)

end

theorem dropWith_retire : dropWith retire = (drop : Axis → Nat → Edit κ Unit) := rfl

/-! ## Lines that fall -/

/-- The deletion of a line without cells ends with the first step. -/
theorem cascade_of_empty (hrange : matrix.InRange line) (hactive : matrix.isActive line = true)
    (hempty : (matrix.lines line.axis).rings.next line.index = line.index) :
    cascade (steps + 2) line matrix = retire line matrix := by
  have hsame : ((matrix.retired line).lines line.axis).rings = (matrix.lines line.axis).rings := by
    rcases line with ⟨_ | _, index⟩ <;> rfl
  have hretire := retire_ok hactive
  rw [cascade, Calls.bind_ok (requireLine_ok hrange), Calls.bind_ok hretire, hretire]
  simp only [Calls.bind_apply, Calls.get_apply, hsame, hempty, cascadeFrom, ne_eq, not_true_eq_false,
    if_false, Calls.pure_apply]

theorem next_of_count_eq_zero {lines : Lines} (h : lines.Linked) (hindex : index < lines.size)
    (hcount : lines.count index = 0) : lines.rings.next index = index := by
  have hslots : lines.slots index = [] :=
    List.length_eq_zero_iff.mp ((h.count index hindex).symm.trans hcount)
  have hring := (h.ring index hindex).adjacent
  rw [hslots] at hring
  exact (List.isChain_cons_cons.mp hring).1.1

/-- What is done to a line that falls is done right after its last cell has been taken out. -/
theorem dropWith_congr {fall other : Line → Edit κ Unit}
    (hindex : matrix.indexAt? axis slot = some index)
    (hfall : (modifyLines axis (fun lines ↦ lines.drop index slot) matrix).count ⟨axis, index⟩ = 0 →
      fall ⟨axis, index⟩ (modifyLines axis (fun lines ↦ lines.drop index slot) matrix) =
        other ⟨axis, index⟩ (modifyLines axis (fun lines ↦ lines.drop index slot) matrix)) :
    dropWith fall axis slot matrix = dropWith other axis slot matrix := by
  simp only [dropWith, Calls.bind_apply, Calls.get_apply, hindex]
  split
  · rfl
  · simp only [Calls.bind_apply, Calls.get_apply, Calls.modify_apply]
    split
    · rename_i hlast
      exact hfall hlast
    · rfl

/-- A line that loses its last cell is deleted by being retired. -/
theorem Droppable.dropWith_cascade (h : Droppable axis (slot :: slots) matrix) (steps : Nat) :
    dropWith (cascade (steps + 2)) axis slot matrix = drop axis slot matrix := by
  obtain ⟨index, hrange, hindex, hslot⟩ := h.holds slot List.mem_cons_self
  have hactive := h.active index (by simp [hindex])
  have hlines : (modifyLines axis (fun lines ↦ lines.drop index slot) matrix).lines axis =
      (matrix.lines axis).drop index slot := by
    rw [lines_modifyLines, if_pos rfl]
  rw [← dropWith_retire]
  refine dropWith_congr hindex fun hlast ↦ cascade_of_empty ?_ ?_ ?_
  · rw [InRange, hlines]
    exact hrange
  · rw [isActive, hlines]
    exact hactive
  · rw [count, hlines] at hlast
    rw [hlines]
    exact next_of_count_eq_zero (h.linked.drop hrange hslot) hrange hlast

/-! ## The walk along a ring -/

theorem lines_retireAll_of_ne {lines : List Line} (haxis : ∀ line ∈ lines, axis ≠ line.axis) :
    (matrix.retireAll lines).lines axis = matrix.lines axis := by
  induction lines generalizing matrix with
  | nil => rfl
  | cons line rest ih =>
    rw [retireAll, List.foldl_cons, ← retireAll, ih fun other hother ↦ haxis other (by simp [hother]),
      retired, lines_modifyLines, if_neg (haxis line List.mem_cons_self)]
    cases axis <;> rfl

/-- Dropping a cell along one axis leaves the lines of the other one alone. -/
theorem lines_cross_retireAll_emptied :
    ((matrix.dropped axis.cross [slot]).retireAll (matrix.emptied axis.cross [slot])).lines axis =
      matrix.lines axis := by
  have haxis : ∀ line ∈ matrix.emptied axis.cross [slot], axis ≠ line.axis := by
    intro line hline
    obtain ⟨index, -, rfl⟩ := List.mem_map.mp hline
    exact axis.ne_cross
  rw [lines_retireAll_of_ne haxis, dropped, lines_modifyLines, if_neg axis.ne_cross]

theorem node_ne {lines : Lines} (hindex : index < lines.size) : lines.node slot ≠ index := by
  rw [Lines.node]
  omega

theorem node_sub_size {lines : Lines} : lines.node slot - lines.size = slot :=
  Nat.add_sub_cancel_left lines.size slot

theorem node_eq_of_size_eq {first second : Lines} (hsize : first.size = second.size) :
    first.node = second.node :=
  funext fun slot ↦ congrArg (· + slot) hsize

theorem Linked.isChain_next (h : matrix.Linked) (hrange : matrix.InRange line) :
    (line.index :: (matrix.slots line).map (matrix.lines line.axis).node ++ [line.index]).IsChain
      fun first second ↦ (matrix.lines line.axis).rings.next first = second :=
  ((h.lines line.axis).ring line.index hrange).adjacent.imp fun _ _ hadjacent ↦ hadjacent.1

/-- The first node after one of a ring is the next one that is left or the head. -/
theorem next_eq_headD {next : Nat → Nat} {nodes : List Nat} {node head : Nat}
    (hchain : (node :: nodes ++ [head]).IsChain fun first second ↦ next first = second) :
    next node = nodes.headD head := by
  cases nodes <;> exact (List.isChain_cons_cons.mp hchain).1

/-- The walk meets the slots that the ring had at the start. -/
theorem cascadeFrom_eq {lines : Lines} (h : Droppable line.axis.cross slots matrix)
    (hlines : matrix.lines line.axis = lines) (hrange : line.index < lines.size)
    (hchain : (slots.map lines.node ++ [line.index]).IsChain fun first second ↦
      lines.rings.next first = second) (hsteps : slots.length + 2 ≤ steps) :
    cascadeFrom steps line ((slots.map lines.node).headD line.index) matrix =
      slots.forM (drop line.axis.cross) matrix := by
  induction slots generalizing matrix steps with
  | nil =>
    obtain ⟨steps, rfl⟩ := Nat.exists_eq_add_of_le' hsteps
    simp [cascadeFrom]
  | cons slot rest ih =>
    obtain ⟨more, rfl⟩ : ∃ more, steps = more + 3 := ⟨steps - 3, by simp at hsteps; omega⟩
    obtain ⟨index, hfound, hindex, hslot⟩ := h.holds slot List.mem_cons_self
    have hdrop := h.drop_eq hindex
    have hne : lines.node slot ≠ line.index := node_ne hrange
    have hnext : lines.rings.next (lines.node slot) = (rest.map lines.node).headD line.index :=
      next_eq_headD hchain
    have hrest := @ih _ (more + 2) (h.tail hindex).1 (lines_cross_retireAll_emptied.trans hlines)
      hchain.tail (by simp at hsteps; omega)
    rw [Calls.forM_cons_ok hdrop, ← hrest, ← hnext]
    simp only [List.map_cons, List.headD_cons, cascadeFrom, if_pos hne, Calls.bind_apply,
      Calls.get_apply, hlines, node_sub_size, h.dropWith_cascade, hdrop,
      lines_cross_retireAll_emptied]

/-- On a linked table a deletion that cascades has the same outcome as one that retires the lines that
fall, be it carried out or refused. -/
theorem Linked.cascade_eq_delete (h : matrix.Linked) (hsteps : matrix.count line + 3 ≤ steps) :
    cascade steps line matrix = delete line matrix := by
  obtain ⟨more, rfl⟩ : ∃ more, steps = more + 1 := ⟨steps - 1, by omega⟩
  cases hactive : matrix.isActive line with
  | false => rw [delete_of_not_isActive hactive, cascade, retire_bind_of_not_isActive hactive]
  | true =>
    have hrange := h.inRange_of_isActive hactive
    have hsize : ((matrix.retired line).lines line.axis).size = (matrix.lines line.axis).size := by
      rcases line with ⟨_ | _, index⟩ <;> rfl
    have hrings : ((matrix.retired line).lines line.axis).rings = (matrix.lines line.axis).rings := by
      rcases line with ⟨_ | _, index⟩ <;> rfl
    have hnode : ((matrix.retired line).lines line.axis).node = (matrix.lines line.axis).node :=
      node_eq_of_size_eq hsize
    have hchain := h.isChain_next hrange
    have hfirst : (matrix.lines line.axis).rings.next line.index =
        ((matrix.slots line).map (matrix.lines line.axis).node).headD line.index :=
      next_eq_headD hchain
    have hwalk : cascadeFrom more line
        (((matrix.slots line).map ((matrix.retired line).lines line.axis).node).headD line.index)
        (matrix.retired line) = (matrix.slots line).forM (drop line.axis.cross) (matrix.retired line) :=
      cascadeFrom_eq (h.droppable_retired hactive) rfl (hsize ▸ hrange)
        (by rw [hnode, hrings]; exact hchain.tail) (by rw [← h.count_eq hrange]; omega)
    calc cascade (more + 1) line matrix
        = cascadeFrom more line (((matrix.retired line).lines line.axis).rings.next line.index)
            (matrix.retired line) :=
          (Calls.bind_ok (requireLine_ok hrange)).trans (Calls.bind_ok (retire_ok hactive))
      _ = (matrix.slots line).forM (drop line.axis.cross) (matrix.retired line) := by
          rw [← hwalk, hrings, hnode, hfirst]
      _ = delete line matrix := (delete_eq_forM hrange hactive).symm

/-! ## Choosing a column -/

/-- Goes on with the choice of a column from a node of its ring.  The row that is deleted takes its cell
out of this ring, so the node after it is read first. -/
def selectFrom (depth column : Nat) : Nat → Nat → Edit κ Unit
  | 0, _ => throw (.breach .outOfSteps)
  | steps + 1, node => do
    if node ≠ column then
      let lines := (← get).lines .column
      match (← get).indexAt? .row (node - lines.size) with
      | none => throw (.slotVacant (node - lines.size))
      | some row =>
        cascade depth (.row row)
        selectFrom depth column steps (lines.rings.next node)

/-- Chooses a column along its ring. -/
def selectAlong (steps column : Nat) : Edit κ Unit := do
  requireLine (.column column)
  unless (← get).isActive (.column column) do
    throw (.columnDeleted column)
  selectFrom steps column steps (((← get).lines .column).rings.next column)
  if (← get).isActive (.column column) then
    cascade steps (.column column)

/-- A line has at most one cell for every line that may cross it. -/
theorem Linked.count_le (h : matrix.Linked) (hrange : matrix.InRange line) :
    matrix.count line ≤ (matrix.lines line.axis.cross).size := by
  have hsubset : matrix.crossing line ⊆ List.range (matrix.lines line.axis.cross).size := by
    intro index hindex
    obtain ⟨slot, -, -, hcrossing⟩ := (h.mem_crossing hrange).mp hindex
    exact List.mem_range.mpr (h.inRange ⟨line.axis.cross, index⟩ ⟨slot, hcrossing⟩)
  have hnodup := (h.ascending line hrange).imp Nat.ne_of_lt
  have hle := (List.subperm_of_subset hnodup hsubset).length_le
  rwa [h.length_crossing hrange, List.length_range] at hle

theorem crossing_eq_cons (hslots : matrix.slots line = slot :: slots)
    (hindex : matrix.indexAt? line.axis.cross slot = some index) :
    matrix.crossing line = index :: slots.filterMap (matrix.indexAt? line.axis.cross) := by
  rw [crossing, hslots, List.filterMap_cons_some hindex]

/-- The first line that crosses takes the first cell with it. -/
theorem slots_deleted_cross (h : matrix.Linked) (hactive : matrix.isActive line = true)
    (hslots : matrix.slots line = slot :: slots)
    (hindex : matrix.indexAt? line.axis.cross slot = some index) :
    (matrix.deleted ⟨line.axis.cross, index⟩).slots line = slots := by
  have hrange := h.inRange_of_isActive hactive
  obtain ⟨found, hfound, hcross, hslot⟩ := h.isActive_cross hactive (hslots ▸ List.mem_cons_self)
  obtain rfl : index = found := Option.some.inj (hindex.symm.trans hfound)
  rw [slots_deleted h hcross, slots_remove h hcross hrange, if_neg line.axis.ne_cross, hslots,
    List.filter_cons_of_neg (by simpa using hslot), List.filter_eq_self]
  intro other hother
  rw [decide_eq_true_iff]
  intro hshared
  -- A second cell of the crossing line would stand behind the first one and have its index.
  have hsame := h.sound _ (h.inRange_of_isActive hcross) other hshared
  have hascending := h.ascending line hrange
  rw [crossing_eq_cons hslots hindex] at hascending
  exact Nat.lt_irrefl index
    (List.rel_of_pairwise_cons hascending (List.mem_filterMap.mpr ⟨other, hother, hsame⟩))

/-- The line that is crossed stays if it has further cells. -/
theorem isActive_deleted_cross (h : matrix.Linked) (hsettled : matrix.Settled)
    (hactive : matrix.isActive line = true) (hslots : matrix.slots line = slot :: slots)
    (hindex : matrix.indexAt? line.axis.cross slot = some index) (hmore : slots ≠ []) :
    (matrix.deleted ⟨line.axis.cross, index⟩).isActive line = true := by
  obtain ⟨found, hfound, hcross, -⟩ := h.isActive_cross hactive (hslots ▸ List.mem_cons_self)
  obtain rfl : index = found := Option.some.inj (hindex.symm.trans hfound)
  refine (isActive_deleted h hsettled hcross).mpr
    ⟨hactive, fun heq ↦ line.axis.ne_cross (congrArg Line.axis heq), fun _ ↦ ?_⟩
  obtain ⟨other, hother⟩ := List.exists_mem_of_ne_nil slots hmore
  obtain ⟨later, hlater, -⟩ :=
    h.isActive_cross hactive (hslots ▸ List.mem_cons_of_mem slot hother)
  have hmem : later ∈ slots.filterMap (matrix.indexAt? line.axis.cross) :=
    List.mem_filterMap.mpr ⟨other, hother, hlater⟩
  have hascending := h.ascending line (h.inRange_of_isActive hactive)
  rw [crossing_eq_cons hslots hindex] at hascending ⊢
  exact ⟨later, List.mem_cons_of_mem index hmem,
    (List.rel_of_pairwise_cons hascending hmem).ne'⟩

/-- The walk of a choice meets the slots that the column had at the start. -/
theorem selectFrom_eq {column depth : Nat} (h : matrix.Linked) (hsettled : matrix.Settled)
    (hrange : matrix.InRange (.column column)) (hslots : matrix.slots (.column column) = slots)
    (hactive : slots ≠ [] → matrix.isActive (.column column) = true)
    (hdepth : (matrix.lines .column).size + 3 ≤ depth) (hsteps : slots.length < steps) :
    selectFrom depth column steps ((slots.map (matrix.lines .column).node).headD column) matrix =
      (matrix.rowsOf column).forM (fun row ↦ delete (.row row)) matrix := by
  induction slots generalizing matrix steps with
  | nil =>
    obtain ⟨steps, rfl⟩ := Nat.exists_eq_add_of_le' hsteps
    simp [selectFrom, rowsOf, crossing, hslots]
  | cons slot rest ih =>
    obtain ⟨steps, rfl⟩ : ∃ more, steps = more + 1 := ⟨steps - 1, by omega⟩
    have hcolumn := hactive (List.cons_ne_nil slot rest)
    obtain ⟨row, hrow, hrowActive, -⟩ : ∃ row, matrix.indexAt? .row slot = some row ∧
        matrix.isActive (.row row) = true ∧ slot ∈ matrix.slots (.row row) :=
      h.isActive_cross hcolumn (hslots ▸ List.mem_cons_self)
    have hremoves := (removes_deleted h hrowActive).1
    have hsize := hremoves.size_eq .column
    have hnode : ((matrix.deleted (.row row)).lines .column).node = (matrix.lines .column).node :=
      node_eq_of_size_eq hsize
    have hleft : (matrix.deleted (.row row)).slots (.column column) = rest :=
      slots_deleted_cross h hcolumn hslots hrow
    have hrows : matrix.rowsOf column = row :: (matrix.deleted (.row row)).rowsOf column := by
      rw [rowsOf, rowsOf, crossing_eq_cons hslots hrow, crossing, hleft,
        indexAt?_congr hremoves.cells_eq]
    have hdelete : delete (.row row) matrix = .ok () (matrix.deleted (.row row)) :=
      delete_of_isActive h hrowActive
    have hcascade : cascade depth (.row row) matrix = .ok () (matrix.deleted (.row row)) := by
      rw [← hdelete]
      have hcount := h.count_le (h.inRange_of_isActive hrowActive)
      exact h.cascade_eq_delete ((Nat.add_le_add_right hcount 3).trans hdepth)
    have hne : (matrix.lines .column).node slot ≠ column := node_ne hrange
    have hnext : (matrix.lines .column).rings.next ((matrix.lines .column).node slot) =
        (rest.map (matrix.lines .column).node).headD column := by
      have hchain := h.isChain_next hrange
      rw [hslots] at hchain
      exact next_eq_headD hchain.tail
    have hrest := @ih _ steps (hremoves.linked h) (settled_deleted h hsettled hrowActive)
      (hremoves.inRange_iff.mpr hrange) hleft
      (isActive_deleted_cross h hsettled hcolumn hslots hrow) (by rwa [hsize])
      (by rw [List.length_cons] at hsteps; omega)
    calc selectFrom depth column (steps + 1) ((matrix.lines .column).node slot) matrix
        = selectFrom depth column steps ((rest.map (matrix.lines .column).node).headD column)
            (matrix.deleted (.row row)) := by
          simp only [selectFrom, if_pos hne, Calls.bind_apply, Calls.get_apply, node_sub_size, hrow,
            hcascade, hnext]
      _ = ((matrix.deleted (.row row)).rowsOf column).forM (fun row ↦ delete (.row row))
            (matrix.deleted (.row row)) := by
          rw [← hrest, hnode]
      _ = (matrix.rowsOf column).forM (fun row ↦ delete (.row row)) matrix := by
          rw [hrows]
          exact Eq.symm (Calls.forM_cons_ok hdelete)

/-- On a linked table whose active lines have cells, a column is chosen along its ring as it is by the
list of its rows. -/
theorem Linked.selectAlong_eq_select {column : Nat} (h : matrix.Linked) (hsettled : matrix.Settled)
    (hsteps : matrix.rowSize + matrix.columnSize + 3 ≤ steps) :
    selectAlong steps column matrix = select column matrix := by
  by_cases hrange : matrix.InRange (.column column)
  · cases hactive : matrix.isActive (.column column) with
    | false => simp [selectAlong, select, requireLine_ok hrange, hactive]
    | true =>
      have hcount : matrix.count (.column column) ≤ matrix.rowSize := h.count_le hrange
      have hfirst : (matrix.lines .column).rings.next column =
          ((matrix.slots (.column column)).map (matrix.lines .column).node).headD column :=
        next_eq_headD (h.isChain_next hrange)
      have hwalk : selectFrom steps column steps ((matrix.lines .column).rings.next column) matrix =
          .ok () (matrix.selected column) := by
        rw [hfirst, selectFrom_eq h hsettled hrange rfl (fun _ ↦ hactive)
          ((Nat.add_le_add_right (Nat.le_add_left _ _) 3).trans hsteps)
          (by rw [← h.count_eq hrange]; omega)]
        exact (allDeleted_selected h hsettled hactive).1
      have hgone := isActive_column_selected h hsettled hactive
      rw [select_of_isActive h hsettled hactive]
      simp [selectAlong, requireLine_ok hrange, hactive, hwalk, hgone]
  · rw [selectAlong, select, Calls.bind_error (requireLine_error hrange),
      Calls.bind_error (requireLine_error hrange)]

end SetCover.Matrix

import SetCover.Proofs.Calls
import SetCover.Proofs.Matrix.Restoration

/-!
# Deleting a line

Deleting a line removes it and then the lines that fall with it, which are those that it crosses and
that have no other cell.  The walk along the ring of the line retires each of them as soon as it loses
that cell; the outcome is the same as if they were removed afterwards, one by one.
-/

namespace SetCover.Matrix

open Lines

variable {κ : Type} {matrix : Matrix κ} {axis : Axis} {line kept : Line} {slots : List Nat}
  {index : Nat}

/-! ## The lines that fall -/

/-- The lines of an axis that lose their only cell with the cells in the given slots. -/
def emptied (axis : Axis) (slots : List Nat) (matrix : Matrix κ) : List Line :=
  ((slots.filterMap (matrix.indexAt? axis)).filter
    fun index ↦ matrix.count ⟨axis, index⟩ = 1).map (⟨axis, ·⟩)

/-- The lines that fall with a line. -/
def fallen (line : Line) (matrix : Matrix κ) : List Line :=
  matrix.emptied line.axis.cross (matrix.slots line)

/-- Removes lines one after the other. -/
def removeAll (lines : List Line) (matrix : Matrix κ) : Matrix κ :=
  lines.foldl (fun matrix line ↦ matrix.remove line) matrix

/-- The table after the deletion of a line and of those that fall with it. -/
def deleted (line : Line) (matrix : Matrix κ) : Matrix κ :=
  matrix.removeAll (line :: matrix.fallen line)

/-! ## Dropping cells -/

/-- Takes lines out of the ring of the active lines and records their deletions. -/
def retireAll (lines : List Line) (matrix : Matrix κ) : Matrix κ :=
  lines.foldl (fun matrix line ↦ matrix.retired line) matrix

theorem retire_ok (hactive : matrix.isActive line = true) :
    retire line matrix = .ok () (matrix.retired line) := by
  simp [retire, retired, hactive]

theorem emptied_cons {slot : Nat} (hindex : matrix.indexAt? axis slot = some index) :
    matrix.emptied axis (slot :: slots) =
      if matrix.count ⟨axis, index⟩ = 1 then ⟨axis, index⟩ :: matrix.emptied axis slots
      else matrix.emptied axis slots := by
  by_cases hone : matrix.count ⟨axis, index⟩ = 1 <;> simp [emptied, hindex, hone]

theorem emptied_congr {first second : Matrix κ}
    (hindex : second.indexAt? = first.indexAt?)
    (hcount : ∀ index ∈ slots.filterMap (first.indexAt? axis),
      second.count ⟨axis, index⟩ = first.count ⟨axis, index⟩) :
    second.emptied axis slots = first.emptied axis slots := by
  rw [emptied, emptied, hindex]
  refine congrArg (List.map _) (List.filter_congr fun index hmem ↦ ?_)
  rw [hcount index hmem]

theorem drop_ok {slot : Nat} (hindex : matrix.indexAt? axis slot = some index)
    (hactive : matrix.isActive ⟨axis, index⟩ = true)
    (hpositive : 0 < matrix.count ⟨axis, index⟩)
    (hcount : (matrix.dropped axis [slot]).count ⟨axis, index⟩ = matrix.count ⟨axis, index⟩ - 1) :
    drop axis slot matrix =
      .ok () ((matrix.dropped axis [slot]).retireAll (matrix.emptied axis [slot])) := by
  have hdropped : modifyLines axis (fun lines ↦ lines.drop index slot) matrix =
      matrix.dropped axis [slot] := by
    have hdrop : dropAll (matrix.indexAt? axis) [slot] = fun lines ↦ lines.drop index slot := by
      funext lines
      simp [dropAll, dropAt, hindex]
    rw [dropped, hdrop]
  have hkept : (matrix.dropped axis [slot]).isActive ⟨axis, index⟩ = true := by
    cases axis <;> simpa [dropped, isActive, Matrix.lines, modifyLines] using hactive
  have hretire := retire_ok hkept
  simp only [drop, Calls.bind_apply, Calls.get_apply, Calls.modify_apply, hindex,
    Nat.ne_of_gt hpositive, if_false, hdropped, hcount, emptied_cons hindex]
  by_cases hone : matrix.count ⟨axis, index⟩ = 1
  · simp [hone, hretire, retireAll, emptied]
  · have hmore : matrix.count ⟨axis, index⟩ - 1 ≠ 0 := by omega
    simp [hone, hmore, retireAll, emptied]

/-- What it takes to drop the cells in the given slots: they hang in rings of active lines, every one
in another line. -/
structure Droppable (axis : Axis) (slots : List Nat) (matrix : Matrix κ) : Prop where
  linked : (matrix.lines axis).Linked
  nodup : slots.Nodup
  indices : (slots.filterMap (matrix.indexAt? axis)).Nodup
  holds : (matrix.lines axis).Holds (matrix.indexAt? axis) slots
  active : ∀ index ∈ slots.filterMap (matrix.indexAt? axis), matrix.isActive ⟨axis, index⟩ = true

theorem lines_retireAll_emptied {slot : Nat} (hindex : matrix.indexAt? axis slot = some index) :
    ((matrix.dropped axis [slot]).retireAll (matrix.emptied axis [slot])).lines axis =
      if matrix.count ⟨axis, index⟩ = 1 then
        ((matrix.lines axis).drop index slot).deactivate index
      else (matrix.lines axis).drop index slot := by
  have hdrop : dropAll (matrix.indexAt? axis) [slot] (matrix.lines axis) =
      (matrix.lines axis).drop index slot := by
    simp [dropAll, dropAt, hindex]
  rw [emptied_cons hindex, ← hdrop]
  split
  · cases axis <;> simp [emptied, retireAll, retired, dropped, modifyLines, Matrix.lines]
  · cases axis <;> simp [emptied, retireAll, dropped, modifyLines, Matrix.lines]

theorem indexAt?_retireAll (lines : List Line) :
    (matrix.retireAll lines).indexAt? = matrix.indexAt? := by
  induction lines generalizing matrix with
  | nil => rfl
  | cons line rest ih =>
    have hcells : (matrix.retired line).cells = matrix.cells := by simp [retired]
    rw [retireAll, List.foldl_cons, ← retireAll, ih, indexAt?_congr hcells]

theorem dropAll_deactivate {lines : Lines} {indexOf : Nat → Option Nat} :
    dropAll indexOf slots (lines.deactivate index) = (dropAll indexOf slots lines).deactivate index := by
  induction slots generalizing lines with
  | nil => rfl
  | cons slot rest ih =>
    have hdrop : dropAt indexOf (lines.deactivate index) slot =
        (dropAt indexOf lines slot).deactivate index := by
      rw [dropAt, dropAt]
      cases indexOf slot <;> rfl
    rw [dropAll, List.foldl_cons, hdrop, ← dropAll, ih]
    rfl

theorem dropped_retired : (matrix.retired ⟨axis, index⟩).dropped axis slots =
    (matrix.dropped axis slots).retired ⟨axis, index⟩ := by
  cases axis <;> simp only [dropped, retired, modifyLines, dropAll_deactivate] <;> rfl

namespace Droppable

variable {slot : Nat}

/-- After one cell has been dropped and its line has fallen, if it does, the others can still be
dropped, and the same lines fall with them. -/
theorem tail (h : Droppable axis (slot :: slots) matrix)
    (hindex : matrix.indexAt? axis slot = some index) :
    Droppable axis slots
      ((matrix.dropped axis [slot]).retireAll (matrix.emptied axis [slot])) ∧
    emptied axis slots ((matrix.dropped axis [slot]).retireAll (matrix.emptied axis [slot])) =
      matrix.emptied axis slots := by
  obtain ⟨found, hfound, hlocated, hslot⟩ := h.holds slot (by simp)
  obtain rfl : index = found := Option.some.inj (hindex.symm.trans hlocated)
  have hlines := lines_retireAll_emptied hindex
  have hindexAt : ((matrix.dropped axis [slot]).retireAll (matrix.emptied axis [slot])).indexAt? =
      matrix.indexAt? :=
    (indexAt?_retireAll _).trans (indexAt?_congr (cells_modifyLines _))
  generalize (matrix.dropped axis [slot]).retireAll (matrix.emptied axis [slot]) = next at *
  have hindices := h.indices
  rw [List.filterMap_cons_some hindex, List.nodup_cons] at hindices
  have hdropped := h.linked.drop hfound hslot
  have hactive : index ∈ ((matrix.lines axis).drop index slot).active :=
    (h.linked.flag index).mp (h.active index (by simp [hindex]))
  have hother {other : Nat} (hmem : other ∈ slots.filterMap (matrix.indexAt? axis)) :
      other ≠ index := by
    rintro rfl
    exact hindices.1 hmem
  refine ⟨⟨?_, h.nodup.of_cons, ?_, ?_, ?_⟩, ?_⟩
  · rw [hlines]
    split
    · exact hdropped.deactivate hactive
    · exact hdropped
  · rw [hindexAt]
    exact hindices.2
  · have hholds := h.linked.holds_dropAt h.nodup h.holds
    simp only [dropAt, hindex, Option.elim] at hholds
    rw [hindexAt, hlines]
    split
    · exact hholds
    · exact hholds
  · intro other hmem
    rw [hindexAt] at hmem
    have hkept := h.active other (by simp [hindex, hmem])
    rw [isActive, hlines]
    split
    · have hsize : ((matrix.lines axis).drop index slot).flags.size =
          ((matrix.lines axis).drop index slot).size := hdropped.flagsSize
      rw [isActive_deactivate hsize hfound, if_neg (hother hmem)]
      exact hkept
    · exact hkept
  · apply emptied_congr hindexAt
    intro other hmem
    have hcount := @count_drop _ _ other slot (h.linked.countsSize ▸ hfound)
    rw [if_neg (hother hmem)] at hcount
    rw [count, hlines]
    split
    · exact hcount
    · exact hcount

/-- The first cell can be dropped. -/
theorem drop_eq (h : Droppable axis (slot :: slots) matrix)
    (hindex : matrix.indexAt? axis slot = some index) : drop axis slot matrix =
      .ok () ((matrix.dropped axis [slot]).retireAll (matrix.emptied axis [slot])) := by
  obtain ⟨found, hrange, hlocated, hslot⟩ := h.holds slot List.mem_cons_self
  obtain rfl : index = found := Option.some.inj (hindex.symm.trans hlocated)
  refine drop_ok hindex (h.active index (by simp [hindex])) ?_ ?_
  · rw [count, h.linked.count index hrange]
    exact List.length_pos_of_mem hslot
  · have hless := @count_drop _ _ index slot (h.linked.countsSize ▸ hrange)
    simpa [count, dropped, lines_modifyLines, dropAll, dropAt, hindex] using hless

end Droppable

/-- Dropping cells removes the lines that lose their only cell with them. -/
theorem forM_drop (h : Droppable axis slots matrix) :
    slots.forM (drop axis) matrix =
      .ok () ((matrix.dropped axis slots).retireAll (matrix.emptied axis slots)) := by
  induction slots generalizing matrix with
  | nil => cases axis <;> rfl
  | cons slot rest ih =>
    obtain ⟨index, -, hindex, -⟩ := h.holds slot List.mem_cons_self
    have hdrop := h.drop_eq hindex
    obtain ⟨hrest, hemptied⟩ := h.tail hindex
    have hmove : ((matrix.dropped axis [slot]).retireAll (matrix.emptied axis [slot])).dropped axis
        rest = (matrix.dropped axis (slot :: rest)).retireAll (matrix.emptied axis [slot]) := by
      have htwo : (matrix.dropped axis [slot]).dropped axis rest =
          matrix.dropped axis (slot :: rest) := by
        cases axis <;> rfl
      rw [emptied_cons hindex]
      split
      · simp only [emptied, List.filterMap_nil, List.filter_nil, List.map_nil, retireAll,
          List.foldl_cons, List.foldl_nil, dropped_retired, htwo]
      · exact htwo
    rw [Calls.forM_cons_ok hdrop, ih hrest, hemptied, hmove, retireAll, retireAll,
      ← List.foldl_append, ← retireAll, emptied_cons hindex, emptied_cons hindex]
    split <;> rfl

/-! ## Deleting a line -/

theorem mem_fallen :
    kept ∈ matrix.fallen line ↔ kept.axis = line.axis.cross ∧ kept.index ∈ matrix.crossing line ∧
      matrix.count kept = 1 := by
  rw [fallen, emptied, List.mem_map]
  constructor
  · rintro ⟨index, hindex, rfl⟩
    obtain ⟨hcrossing, hcount⟩ := List.mem_filter.mp hindex
    exact ⟨rfl, hcrossing, by simpa using hcount⟩
  · rintro ⟨haxis, hcrossing, hcount⟩
    obtain ⟨axis, index⟩ := kept
    obtain rfl : axis = line.axis.cross := haxis
    exact ⟨index, List.mem_filter.mpr ⟨hcrossing, by simpa using hcount⟩, rfl⟩

theorem slots_retired : (matrix.retired line).slots kept = matrix.slots kept := by
  rcases line with ⟨_ | _, index⟩ <;> rcases kept with ⟨_ | _, other⟩ <;> rfl

/-- A line without cells is removed when it is retired. -/
theorem retireAll_eq_removeAll {lines : List Line} (hslots : ∀ line ∈ lines, matrix.slots line = []) :
    matrix.retireAll lines = matrix.removeAll lines := by
  induction lines generalizing matrix with
  | nil => rfl
  | cons line rest ih =>
    have hremove : matrix.remove line = matrix.retired line := by
      rw [remove, hslots line (by simp)]
      rcases line with ⟨_ | _, index⟩ <;> rfl
    have hrest := @ih (matrix.retired line) fun kept hkept ↦ by
      rw [slots_retired]
      exact hslots kept (by simp [hkept])
    rw [retireAll, List.foldl_cons, ← retireAll, hrest, removeAll, removeAll, List.foldl_cons, hremove]

theorem Linked.droppable (h : matrix.Linked) (hactive : matrix.isActive line = true) :
    Droppable line.axis.cross (matrix.slots line) matrix where
  linked := h.lines line.axis.cross
  nodup := h.nodup_slots (h.inRange_of_isActive hactive)
  indices := (h.ascending line (h.inRange_of_isActive hactive)).imp Nat.ne_of_lt
  holds := h.holds_cross hactive
  active := by
    intro index hindex
    obtain ⟨slot, hslot, hlocated⟩ := List.mem_filterMap.mp hindex
    obtain ⟨found, hfound, hcross, -⟩ := h.isActive_cross hactive hslot
    obtain rfl : index = found := Option.some.inj (hlocated.symm.trans hfound)
    exact hcross

theorem slots_remove_of_mem_fallen (h : matrix.Linked) (hactive : matrix.isActive line = true)
    (hkept : kept ∈ matrix.fallen line) : (matrix.remove line).slots kept = [] := by
  obtain ⟨haxis, hcrossing, hcount⟩ := mem_fallen.mp hkept
  obtain ⟨axis, index⟩ := kept
  obtain rfl : axis = line.axis.cross := haxis
  obtain ⟨slot, hslot, hlocated⟩ := List.mem_filterMap.mp hcrossing
  obtain ⟨found, hfound, hcross, hmem⟩ := h.isActive_cross hactive hslot
  obtain rfl : index = found := Option.some.inj (hlocated.symm.trans hfound)
  have hrange := h.inRange_of_isActive hcross
  rw [h.count_eq hrange] at hcount
  obtain ⟨only, honly⟩ := List.length_eq_one_iff.mp hcount
  rw [honly, List.mem_singleton] at hmem
  rw [slots_remove h hactive hrange, if_neg line.axis.cross_ne, honly, ← hmem]
  simp [hslot]

theorem slots_retireAll (lines : List Line) :
    (matrix.retireAll lines).slots kept = matrix.slots kept := by
  induction lines generalizing matrix with
  | nil => rfl
  | cons line rest ih =>
    rw [retireAll, List.foldl_cons, ← retireAll, ih, slots_retired]

theorem deleted_eq_retireAll (h : matrix.Linked) (hactive : matrix.isActive line = true) :
    matrix.deleted line = (matrix.remove line).retireAll (matrix.fallen line) :=
  (retireAll_eq_removeAll fun _ hkept ↦ slots_remove_of_mem_fallen h hactive hkept).symm

/-- The lines that fall with a line do not change any ring. -/
theorem slots_deleted (h : matrix.Linked) (hactive : matrix.isActive line = true) :
    (matrix.deleted line).slots kept = (matrix.remove line).slots kept := by
  rw [deleted_eq_retireAll h hactive, slots_retireAll]

/-- The cells of a line can be dropped when it has been retired. -/
theorem Linked.droppable_retired (h : matrix.Linked) (hactive : matrix.isActive line = true) :
    Droppable line.axis.cross (matrix.slots line) (matrix.retired line) := by
  have hdroppable := h.droppable hactive
  have hindexAt : (matrix.retired line).indexAt? = matrix.indexAt? :=
    indexAt?_congr (by simp [retired])
  have hlines : (matrix.retired line).lines line.axis.cross = matrix.lines line.axis.cross := by
    rcases line with ⟨_ | _, index⟩ <;> rfl
  refine ⟨?_, hdroppable.nodup, ?_, ?_, ?_⟩
  · rw [hlines]
    exact hdroppable.linked
  · rw [hindexAt]
    exact hdroppable.indices
  · rw [hindexAt, hlines]
    exact hdroppable.holds
  · intro index hindex
    rw [hindexAt] at hindex
    rw [isActive, hlines]
    exact hdroppable.active index hindex

/-- The deletion of an active line retires it and drops its cells. -/
theorem delete_eq_forM (hrange : matrix.InRange line) (hactive : matrix.isActive line = true) :
    delete line matrix = (matrix.slots line).forM (drop line.axis.cross) (matrix.retired line) := by
  have hslots : (matrix.retired line).slots line = matrix.slots line := slots_retired
  calc delete line matrix = (retire line >>= fun _ ↦ get >>= fun matrix ↦
        (matrix.slots line).forM (drop line.axis.cross)) matrix := Calls.bind_ok (requireLine_ok hrange)
    _ = ((matrix.retired line).slots line).forM (drop line.axis.cross) (matrix.retired line) :=
        Calls.bind_ok (retire_ok hactive)
    _ = (matrix.slots line).forM (drop line.axis.cross) (matrix.retired line) := by rw [hslots]

theorem delete_of_isActive (h : matrix.Linked) (hactive : matrix.isActive line = true) :
    delete line matrix = .ok () (matrix.deleted line) := by
  have hindexAt : (matrix.retired line).indexAt? = matrix.indexAt? :=
    indexAt?_congr (by simp [retired])
  have hlines : (matrix.retired line).lines line.axis.cross = matrix.lines line.axis.cross := by
    rcases line with ⟨_ | _, index⟩ <;> rfl
  have hmove : (matrix.retired line).dropped line.axis.cross (matrix.slots line) =
      matrix.remove line := by
    rcases line with ⟨_ | _, index⟩ <;> rfl
  have hfallen : (matrix.retired line).emptied line.axis.cross (matrix.slots line) =
      matrix.fallen line :=
    emptied_congr hindexAt fun index _ ↦ by rw [count, hlines]; rfl
  calc delete line matrix = (matrix.slots line).forM (drop line.axis.cross) (matrix.retired line) :=
        delete_eq_forM (h.inRange_of_isActive hactive) hactive
    _ = .ok () ((matrix.remove line).retireAll (matrix.fallen line)) := by
        rw [forM_drop (h.droppable_retired hactive), hmove, hfallen]
    _ = .ok () (matrix.deleted line) := by rw [deleted_eq_retireAll h hactive]

/-- What begins with retiring a line is refused unless the line is active. -/
theorem retire_bind_of_not_isActive {rest : Unit → Edit κ Unit} (hactive : matrix.isActive line = false) :
    (requireLine line >>= fun _ ↦ retire line >>= rest) matrix =
      .error (if line.index < (matrix.lines line.axis).size then .lineDeleted line
        else .lineOutOfRange line (matrix.lines line.axis).size) matrix := by
  by_cases hrange : line.index < (matrix.lines line.axis).size
  · have hretire : retire line matrix = .error (.lineDeleted line) matrix := by
      simp [retire, hactive]
    rw [if_pos hrange]
    exact (Calls.bind_ok (requireLine_ok hrange)).trans (Calls.bind_error hretire)
  · rw [if_neg hrange]
    exact Calls.bind_error (requireLine_error hrange)

/-- The deletion of a line that is not active is refused. -/
theorem delete_of_not_isActive (hactive : matrix.isActive line = false) :
    delete line matrix = .error (if line.index < (matrix.lines line.axis).size then .lineDeleted line
      else .lineOutOfRange line (matrix.lines line.axis).size) matrix :=
  retire_bind_of_not_isActive hactive

end SetCover.Matrix

import SetCover.Matrix.Restoration
import SetCover.Proofs.Arena.Counting
import SetCover.Proofs.Calls
import SetCover.Proofs.Lines.Insertion

/-!
# Linked tables

A table is linked if the lines of both axes are, if every ring is ascending and shows cells of its
line only, and if the ring of a line that is not deleted shows exactly the cells whose crossing line
is not deleted either.  A line is active if it has a cell, live or not, and is not deleted.

`remove` deletes a single line without those that fall with it.  It keeps a table linked, it does
not touch the rings of lines that are deleted already, and `reinstate` takes it back exactly.
-/

namespace SetCover

@[simp]
theorem Axis.cross_ne (axis : Axis) : axis.cross ≠ axis := by
  cases axis <;> decide

@[simp]
theorem Axis.ne_cross (axis : Axis) : axis ≠ axis.cross :=
  axis.cross_ne.symm

theorem Axis.eq_or_eq_cross (axis other : Axis) : other = axis ∨ other = axis.cross := by
  cases axis <;> cases other <;> decide

namespace Matrix

open Lines

variable {κ : Type} {matrix : Matrix κ} {axis other : Axis} {line kept : Line} {slot : Nat}

/-! ## Lines and cells -/

theorem lines_modifyLines (change : Lines → Lines) :
    (modifyLines axis change matrix).lines other =
      if other = axis then change (matrix.lines axis) else matrix.lines other := by
  cases axis <;> cases other <;> rfl

@[simp]
theorem cells_modifyLines (change : Lines → Lines) :
    (modifyLines axis change matrix).cells = matrix.cells := by
  cases axis <;> rfl

@[simp]
theorem costs_modifyLines (change : Lines → Lines) :
    (modifyLines axis change matrix).costs = matrix.costs := by
  cases axis <;> rfl

@[simp]
theorem history_modifyLines (change : Lines → Lines) :
    (modifyLines axis change matrix).history = matrix.history := by
  cases axis <;> rfl

theorem indexAt?_congr {first second : Matrix κ} (hcells : first.cells = second.cells) :
    first.indexAt? = second.indexAt? := by
  funext axis slot
  rw [indexAt?, indexAt?, hcells]

/-- The line is one of the table. -/
def InRange (matrix : Matrix κ) (line : Line) : Prop := line.index < (matrix.lines line.axis).size

theorem requireLine_ok (hrange : matrix.InRange line) :
    requireLine line matrix = .ok () matrix := by
  have hnot : ¬(matrix.lines line.axis).size ≤ line.index := Nat.not_le.mpr hrange
  simp [requireLine, hnot]

theorem requireLine_error (hrange : ¬matrix.InRange line) :
    requireLine line matrix =
      .error (.lineOutOfRange line (matrix.lines line.axis).size) matrix := by
  have hle : (matrix.lines line.axis).size ≤ line.index := Nat.not_lt.mp hrange
  simp [requireLine, hle]

/-- The table has a cell in this line, live or not. -/
def Occupied (matrix : Matrix κ) (line : Line) : Prop :=
  ∃ slot, matrix.indexAt? line.axis slot = some line.index

/-- The deletion of the line is recorded. -/
def IsDeleted (matrix : Matrix κ) (line : Line) : Prop := .deleted line ∈ matrix.history

theorem occupied_congr {first second : Matrix κ} (hcells : first.cells = second.cells) :
    first.Occupied line ↔ second.Occupied line := by
  rw [Occupied, Occupied, indexAt?_congr hcells]

theorem exists_indexAt?_cross {index : Nat} (hindex : matrix.indexAt? axis slot = some index) :
    ∃ crossing, matrix.indexAt? axis.cross slot = some crossing := by
  obtain ⟨cell, hcell, -⟩ := Option.map_eq_some_iff.mp hindex
  exact ⟨cell.along axis.cross, by rw [indexAt?, hcell]; rfl⟩

/-- The linkage of a table. -/
structure Linked (matrix : Matrix κ) : Prop where
  lines : ∀ axis, (matrix.lines axis).Linked
  /-- Cells lie in the table. -/
  inRange : ∀ line, matrix.Occupied line → matrix.InRange line
  /-- No place has two cells. -/
  injective : matrix.cells.Injective
  counted : matrix.cells.Counted
  /-- Rings show cells of their line only. -/
  sound : ∀ line, matrix.InRange line → ∀ slot ∈ matrix.slots line,
    matrix.indexAt? line.axis slot = some line.index
  /-- The ring of a line that is not deleted shows all cells whose crossing line is not deleted. -/
  live : ∀ line, ¬matrix.IsDeleted line → ∀ slot crossing,
    matrix.indexAt? line.axis slot = some line.index →
    matrix.indexAt? line.axis.cross slot = some crossing →
    (slot ∈ matrix.slots line ↔ ¬matrix.IsDeleted ⟨line.axis.cross, crossing⟩)
  ascending : ∀ line, matrix.InRange line → (matrix.crossing line).Pairwise (· < ·)
  active : ∀ line, matrix.isActive line = true ↔ matrix.Occupied line ∧ ¬matrix.IsDeleted line
  recorded : ∀ line, matrix.IsDeleted line → matrix.Occupied line
  nodup : (matrix.history.filterMap Record.line?).Nodup

namespace Linked

theorem mem_active (h : matrix.Linked) :
    matrix.isActive line = true ↔ line.index ∈ matrix.active line.axis :=
  (h.lines line.axis).flag line.index

theorem occupied_of_isActive (h : matrix.Linked) (hactive : matrix.isActive line = true) :
    matrix.Occupied line :=
  ((h.active line).mp hactive).1

theorem not_isDeleted (h : matrix.Linked) (hactive : matrix.isActive line = true) :
    ¬matrix.IsDeleted line :=
  ((h.active line).mp hactive).2

theorem inRange_of_isActive (h : matrix.Linked) (hactive : matrix.isActive line = true) :
    matrix.InRange line :=
  h.inRange line (h.occupied_of_isActive hactive)

theorem nodup_slots (h : matrix.Linked) (hrange : matrix.InRange line) :
    (matrix.slots line).Nodup :=
  (h.lines line.axis).nodup_slots hrange

theorem count_eq (h : matrix.Linked) (hrange : matrix.InRange line) :
    matrix.count line = (matrix.slots line).length :=
  (h.lines line.axis).count line.index hrange

/-- The cells of an active line have active crossing lines, and these show them too. -/
theorem isActive_cross (h : matrix.Linked) (hactive : matrix.isActive line = true)
    (hslot : slot ∈ matrix.slots line) :
    ∃ index, matrix.indexAt? line.axis.cross slot = some index ∧
      matrix.isActive ⟨line.axis.cross, index⟩ = true ∧
      slot ∈ matrix.slots ⟨line.axis.cross, index⟩ := by
  have hlocated := h.sound line (h.inRange_of_isActive hactive) slot hslot
  obtain ⟨index, hindex⟩ := exists_indexAt?_cross hlocated
  have hlive := (h.live line (h.not_isDeleted hactive) slot index hlocated hindex).mp hslot
  refine ⟨index, hindex, (h.active _).mpr ⟨⟨slot, hindex⟩, hlive⟩, ?_⟩
  refine (h.live ⟨line.axis.cross, index⟩ hlive slot line.index hindex ?_).mpr ?_
  · simpa using hlocated
  · simpa using h.not_isDeleted hactive

/-- The cells of an active line hang in the rings of the lines that it crosses. -/
theorem holds_cross (h : matrix.Linked) (hactive : matrix.isActive line = true) :
    (matrix.lines line.axis.cross).Holds (matrix.indexAt? line.axis.cross) (matrix.slots line) := by
  intro slot hslot
  obtain ⟨index, hindex, hcross, hmem⟩ := h.isActive_cross hactive hslot
  exact ⟨index, h.inRange_of_isActive hcross, hindex, hmem⟩

theorem mem_crossing (h : matrix.Linked) (hrange : matrix.InRange line) {index : Nat} :
    index ∈ matrix.crossing line ↔ ∃ slot ∈ matrix.slots line,
      matrix.indexAt? line.axis slot = some line.index ∧
      matrix.indexAt? line.axis.cross slot = some index := by
  rw [crossing, List.mem_filterMap]
  constructor
  · rintro ⟨slot, hslot, hindex⟩
    exact ⟨slot, hslot, h.sound line hrange slot hslot, hindex⟩
  · rintro ⟨slot, hslot, -, hindex⟩
    exact ⟨slot, hslot, hindex⟩

theorem length_crossing (h : matrix.Linked) (hrange : matrix.InRange line) :
    (matrix.crossing line).length = matrix.count line := by
  rw [h.count_eq hrange, crossing, List.length_filterMap_eq_countP, List.countP_eq_length]
  intro slot hslot
  obtain ⟨index, hindex⟩ := exists_indexAt?_cross (h.sound line hrange slot hslot)
  simp [hindex]

end Linked

/-! ## Removing one line -/

/-- Takes a line out of the ring of the active lines and records its deletion. -/
def retired (line : Line) (matrix : Matrix κ) : Matrix κ :=
  modifyLines line.axis (fun lines ↦ lines.deactivate line.index)
    { matrix with history := .deleted line :: matrix.history }

/-- Takes the cells in the given slots out of the rings of their lines along an axis. -/
def dropped (axis : Axis) (slots : List Nat) (matrix : Matrix κ) : Matrix κ :=
  modifyLines axis (dropAll (matrix.indexAt? axis) slots) matrix

/-- Deletes one line and no other. -/
def remove (line : Line) (matrix : Matrix κ) : Matrix κ :=
  retired line (dropped line.axis.cross (matrix.slots line) matrix)

theorem lines_remove :
    (matrix.remove line).lines other =
      if other = line.axis then (matrix.lines line.axis).deactivate line.index
      else dropAll (matrix.indexAt? line.axis.cross) (matrix.slots line) (matrix.lines other) := by
  rcases line with ⟨_ | _, index⟩ <;> cases other <;> rfl

@[simp]
theorem cells_remove : (matrix.remove line).cells = matrix.cells := by
  simp [remove, retired, dropped]

@[simp]
theorem costs_remove : (matrix.remove line).costs = matrix.costs := by
  simp [remove, retired, dropped]

@[simp]
theorem history_remove : (matrix.remove line).history = .deleted line :: matrix.history := by
  simp [remove, retired, dropped]

@[simp]
theorem size_lines_remove : ((matrix.remove line).lines axis).size = (matrix.lines axis).size := by
  rw [lines_remove]
  split
  · subst axis
    rfl
  · simp

@[simp]
theorem indexAt?_remove : (matrix.remove line).indexAt? = matrix.indexAt? :=
  indexAt?_congr cells_remove

@[simp]
theorem occupied_remove : (matrix.remove line).Occupied kept ↔ matrix.Occupied kept :=
  occupied_congr cells_remove

@[simp]
theorem inRange_remove : (matrix.remove line).InRange kept ↔ matrix.InRange kept := by
  simp [InRange]

@[simp]
theorem isDeleted_remove :
    (matrix.remove line).IsDeleted kept ↔ kept = line ∨ matrix.IsDeleted kept := by
  simp [IsDeleted]

theorem isActive_remove (h : matrix.Linked) (hactive : matrix.isActive line = true) :
    (matrix.remove line).isActive kept = (matrix.isActive kept && decide (kept ≠ line)) := by
  rcases kept with ⟨axis, index⟩
  rcases line.axis.eq_or_eq_cross axis with rfl | rfl
  · have hflags := (h.lines line.axis).flagsSize
    have hrange := h.inRange_of_isActive hactive
    rw [isActive, lines_remove, if_pos rfl, isActive_deactivate hflags hrange]
    have hiff : (⟨line.axis, index⟩ : Line) = line ↔ index = line.index := by
      cases line
      simp
    by_cases heq : index = line.index <;> simp [isActive, heq, hiff]
  · have hne : (⟨line.axis.cross, index⟩ : Line) ≠ line := fun heq ↦
      line.axis.cross_ne (congrArg Line.axis heq)
    simp [isActive, lines_remove, hne]

theorem slots_remove (h : matrix.Linked) (hactive : matrix.isActive line = true)
    (hrange : matrix.InRange kept) :
    (matrix.remove line).slots kept =
      if kept.axis = line.axis then matrix.slots kept
      else (matrix.slots kept).filter (· ∉ matrix.slots line) := by
  rcases kept with ⟨axis, index⟩
  rcases line.axis.eq_or_eq_cross axis with rfl | rfl
  · simp only [slots, lines_remove, if_pos]
    rfl
  · have hdrop := (h.lines line.axis.cross).slots_dropAll
      (h.nodup_slots (h.inRange_of_isActive hactive)) (h.holds_cross hactive) hrange
    simpa [slots, lines_remove] using hdrop

/-- Removing a line leaves the rings of deleted lines as they are. -/
theorem slots_remove_of_isDeleted (h : matrix.Linked) (hactive : matrix.isActive line = true)
    (hdeleted : matrix.IsDeleted kept) :
    (matrix.remove line).slots kept = matrix.slots kept := by
  have hrange := h.inRange kept (h.recorded kept hdeleted)
  rw [slots_remove h hactive hrange]
  split
  · rfl
  rename_i haxis
  apply List.filter_eq_self.mpr
  intro slot hslot
  have hlocated := h.sound kept hrange slot hslot
  obtain hcross := (line.axis.eq_or_eq_cross kept.axis).resolve_left haxis
  rw [decide_eq_true_iff]
  intro hmem
  obtain ⟨index, hindex, hindexActive, -⟩ := h.isActive_cross hactive hmem
  rw [← hcross, hlocated] at hindex
  apply h.not_isDeleted hindexActive
  rw [← hcross, ← Option.some.inj hindex]
  exact hdeleted

theorem Linked.remove (h : matrix.Linked) (hactive : matrix.isActive line = true) :
    (matrix.remove line).Linked where
  lines axis := by
    rw [lines_remove]
    split
    · exact (h.lines line.axis).deactivate (h.mem_active.mp hactive)
    · rename_i haxis
      obtain rfl := (line.axis.eq_or_eq_cross axis).resolve_left haxis
      exact (h.lines line.axis.cross).dropAll (h.nodup_slots (h.inRange_of_isActive hactive))
        (h.holds_cross hactive)
  inRange kept hkept := inRange_remove.mpr (h.inRange kept (occupied_remove.mp hkept))
  injective := by
    rw [cells_remove]
    exact h.injective
  counted := by
    rw [cells_remove]
    exact h.counted
  sound kept hrange slot hslot := by
    rw [inRange_remove] at hrange
    rw [indexAt?_remove]
    rw [slots_remove h hactive hrange] at hslot
    apply h.sound kept hrange slot
    split at hslot
    · exact hslot
    · exact List.mem_of_mem_filter hslot
  live kept hkept slot crossing hlocated hcrossing := by
    rw [indexAt?_remove] at hlocated hcrossing
    rw [isDeleted_remove, not_or] at hkept
    have hrange := h.inRange kept ⟨slot, hlocated⟩
    have hlive := h.live kept hkept.2 slot crossing hlocated hcrossing
    rw [slots_remove h hactive hrange, isDeleted_remove, not_or, ← hlive]
    split
    · rename_i haxis
      have hne : (⟨kept.axis.cross, crossing⟩ : Line) ≠ line := by
        rintro rfl
        exact kept.axis.ne_cross haxis
      simp [hne]
    · rename_i haxis
      have hcross := (line.axis.eq_or_eq_cross kept.axis).resolve_left haxis
      have hback : kept.axis.cross = line.axis := by rw [hcross, Axis.cross_cross]
      rw [List.mem_filter, decide_eq_true_iff, and_comm, and_congr_left_iff, not_iff_not]
      intro hslot
      rw [hback] at hcrossing ⊢
      constructor
      · intro hmem
        have hindex := h.sound line (h.inRange_of_isActive hactive) slot hmem
        rw [hcrossing] at hindex
        rw [Option.some.inj hindex]
      · intro heq
        have hcrossing : matrix.indexAt? line.axis slot = some line.index := by
          rw [hcrossing, ← heq]
        refine (h.live _ (h.not_isDeleted hactive) slot kept.index hcrossing ?_).mpr ?_
        · simpa [← hcross] using hlocated
        · simpa [← hcross] using hkept.2
  ascending kept hrange := by
    rw [inRange_remove] at hrange
    have hascending := h.ascending kept hrange
    rw [crossing, indexAt?_remove, slots_remove h hactive hrange]
    split
    · exact hascending
    · exact hascending.sublist ((List.filter_sublist).filterMap _)
  active kept := by
    have hkept := h.active kept
    rw [isActive_remove h hactive, occupied_remove, isDeleted_remove]
    grind
  recorded kept hkept := by
    rw [isDeleted_remove] at hkept
    rw [occupied_remove]
    rcases hkept with rfl | hkept
    · exact h.occupied_of_isActive hactive
    · exact h.recorded kept hkept
  nodup := by
    have hnew : line ∉ matrix.history.filterMap Record.line? := by
      rw [List.mem_filterMap]
      rintro ⟨_ | deleted, hrecord, heq⟩
      · cases heq
      · obtain rfl := Option.some.inj heq
        exact h.not_isDeleted hactive hrecord
    rw [history_remove, List.filterMap_cons]
    exact List.nodup_cons.mpr ⟨hnew, h.nodup⟩

end Matrix

end SetCover

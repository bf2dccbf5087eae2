import SetCover.Proofs.Matrix.Linked

/-!
# Removals on a stack

A table on whose history deletions are pending has come about, one removal after the other, from a
table without history or from a table with a marker on top.  Restoration goes this way back and
arrives at the very table from which it started.
-/

namespace SetCover.Matrix

open Lines

variable {κ : Type} {matrix start first second : Matrix κ} {axis : Axis} {line : Line}
  {costs : Array κ} {history : List Record}

theorem ext_lines (hlines : ∀ axis, first.lines axis = second.lines axis)
    (hcells : first.cells = second.cells) (hcosts : first.costs = second.costs)
    (hhistory : first.history = second.history) : first = second := by
  cases first
  cases second
  obtain rfl := hlines .row
  obtain rfl := hlines .column
  obtain rfl := hcells
  obtain rfl := hcosts
  obtain rfl := hhistory
  rfl

@[simp]
theorem lines_withHistory :
    ({ matrix with history := history } : Matrix κ).lines axis = matrix.lines axis := by
  cases axis <;> rfl

/-! ## Taking one removal back -/

theorem recover_eq_modifyLines (slot : Nat) :
    recover axis matrix slot =
      modifyLines axis (fun lines ↦ recoverAt (matrix.indexAt? axis) lines slot) matrix := by
  rw [recover]
  cases hindex : matrix.indexAt? axis slot with
  | none => cases axis <;> simp [recoverAt, modifyLines, hindex]
  | some index => simp [recoverAt, hindex]

theorem foldl_recover (slots : List Nat) :
    slots.foldl (recover axis) matrix =
      modifyLines axis (slots.foldl (recoverAt (matrix.indexAt? axis))) matrix := by
  induction slots generalizing matrix with
  | nil => cases axis <;> rfl
  | cons slot rest ih =>
    have hindex : (recover axis matrix slot).indexAt? = matrix.indexAt? := by
      rw [recover_eq_modifyLines]
      exact indexAt?_congr (cells_modifyLines _)
    rw [List.foldl_cons, ih, hindex, recover_eq_modifyLines]
    cases axis <;> rfl

theorem reinstate_with_history :
    reinstate line { matrix with history := history } =
      { reinstate line matrix with history := history } := by
  rw [reinstate, reinstate, foldl_recover, foldl_recover]
  rcases line with ⟨_ | _, index⟩ <;> rfl

/-- A removal is taken back exactly, apart from its record. -/
theorem reinstate_remove (h : matrix.Linked) (hactive : matrix.isActive line = true) :
    reinstate line (matrix.remove line) =
      { matrix with history := .deleted line :: matrix.history } := by
  have hback := (h.lines line.axis).reactivate_deactivate (h.mem_active.mp hactive)
  have hslots := (h.lines line.axis).slotsBack_eq (h.inRange_of_isActive hactive)
  have hrecover := (h.lines line.axis.cross).recoverAll_dropAll
    (h.nodup_slots (h.inRange_of_isActive hactive)) (h.holds_cross hactive)
  rw [reinstate, foldl_recover, lines_modifyLines, if_pos rfl, lines_remove, if_pos rfl, hback,
    hslots, indexAt?_congr ((cells_modifyLines _).trans cells_remove)]
  refine ext_lines (fun axis ↦ ?_) (by simp) (by simp) (by simp)
  rcases line.axis.eq_or_eq_cross axis with rfl | rfl
  · simpa [lines_modifyLines, lines_remove] using hback
  · simpa [lines_modifyLines, lines_remove, slots] using hrecover

/-! ## Removals in a row -/

/-- The second table has come about from the first by removals of active lines. -/
inductive Removes (start : Matrix κ) : Matrix κ → Prop
  | refl : Removes start start
  | remove {matrix : Matrix κ} {line : Line} : Removes start matrix →
      matrix.isActive line = true → Removes start (matrix.remove line)

namespace Removes

theorem linked (h : Removes start matrix) (hstart : start.Linked) : matrix.Linked := by
  induction h with
  | refl => exact hstart
  | remove _ hactive ih => exact ih.remove hactive

theorem costs_eq (h : Removes start matrix) : matrix.costs = start.costs := by
  induction h with
  | refl => rfl
  | remove _ _ ih => rw [costs_remove, ih]

theorem cells_eq (h : Removes start matrix) : matrix.cells = start.cells := by
  induction h with
  | refl => rfl
  | remove _ _ ih => rw [cells_remove, ih]

theorem size_eq (h : Removes start matrix) (axis : Axis) :
    (matrix.lines axis).size = (start.lines axis).size := by
  induction h with
  | refl => rfl
  | remove _ _ ih => rw [size_lines_remove, ih]

theorem inRange_iff (h : Removes start matrix) : matrix.InRange line ↔ start.InRange line := by
  rw [InRange, InRange, h.size_eq]

theorem isActive_of (h : Removes start matrix) (hstart : start.Linked)
    (hactive : matrix.isActive line = true) : start.isActive line = true := by
  induction h with
  | refl => exact hactive
  | remove hprior hother ih =>
    rw [isActive_remove (hprior.linked hstart) hother, Bool.and_eq_true] at hactive
    exact ih hactive.1

theorem history_ne_nil (h : Removes start matrix) (hstart : start.history ≠ []) :
    matrix.history ≠ [] := by
  cases h with
  | refl => exact hstart
  | remove _ _ => simp

theorem trans (h : Removes start first) (hnext : Removes first second) : Removes start second := by
  induction hnext with
  | refl => exact h
  | remove _ hactive ih => exact ih.remove hactive

theorem withCosts (h : Removes start matrix) (costs : Array κ) :
    Removes { start with costs := costs } { matrix with costs := costs } := by
  induction h with
  | refl => exact .refl
  | @remove matrix line _ hactive ih =>
    have hremove : { matrix.remove line with costs := costs } =
        ({ matrix with costs := costs } : Matrix κ).remove line := by
      rcases line with ⟨_ | _, index⟩ <;> rfl
    rw [hremove]
    apply ih.remove
    rcases line with ⟨_ | _, index⟩ <;> exact hactive

/-- The rings of lines that are not active stay as they are. -/
theorem crossing_eq (h : Removes start matrix) (hstart : start.Linked) (hrange : start.InRange line)
    (hinactive : start.isActive line = false) : matrix.crossing line = start.crossing line := by
  have hslots : ∀ next : Matrix κ, next.Linked → next.InRange line → ¬next.Occupied line →
      next.slots line = [] := fun next hnext hline hvacant ↦
    List.eq_nil_iff_forall_not_mem.mpr fun slot hslot ↦
      hvacant ⟨slot, hnext.sound line hline slot hslot⟩
  suffices hkept : matrix.slots line = start.slots line ∧
      (matrix.IsDeleted line ∨ ¬matrix.Occupied line) by
    rw [crossing, crossing, hkept.1, indexAt?_congr h.cells_eq]
  induction h with
  | refl =>
    refine ⟨rfl, ?_⟩
    by_contra hnot
    rw [not_or, not_not] at hnot
    exact ne_true_of_eq_false hinactive ((hstart.active line).mpr hnot.symm)
  | @remove matrix other hprior hactive ih =>
    obtain ⟨hsame, hgone⟩ := ih
    have hlinked := hprior.linked hstart
    have hline := hprior.inRange_iff.mpr hrange
    refine ⟨?_, ?_⟩
    · rcases hgone with hdeleted | hvacant
      · rw [slots_remove_of_isDeleted hlinked hactive hdeleted, hsame]
      · rw [hslots _ (hlinked.remove hactive) (inRange_remove.mpr hline)
          (occupied_remove.not.mpr hvacant), ← hsame, hslots _ hlinked hline hvacant]
    · rw [isDeleted_remove, occupied_remove]
      exact hgone.imp .inr id

/-- No line gains cells. -/
theorem count_le (h : Removes start matrix) (hstart : start.Linked) (hrange : start.InRange line) :
    matrix.count line ≤ start.count line := by
  induction h with
  | refl => exact le_refl _
  | @remove matrix other hprior hactive ih =>
    have hlinked := hprior.linked hstart
    have hline := hprior.inRange_iff.mpr hrange
    refine le_trans ?_ ih
    rw [(hlinked.remove hactive).count_eq (inRange_remove.mpr hline), hlinked.count_eq hline,
      slots_remove hlinked hactive hline]
    split
    · exact le_refl _
    · exact List.length_filter_le _ _

/-- Unwinding the removals leads back to where they began. -/
theorem unwind_eq (h : Removes start matrix) (hstart : start.Linked) :
    unwind matrix.history { matrix with history := history } =
      unwind start.history { start with history := history } := by
  induction h with
  | refl => rfl
  | @remove matrix line hprior hactive ih =>
    have hback : reinstate line { matrix.remove line with history := history } =
        { matrix with history := history } := by
      rw [reinstate_with_history, reinstate_remove (hprior.linked hstart) hactive]
    rw [history_remove, ← ih, ← hback]
    rfl

theorem restore_backup (h : Removes start.backup matrix) (hstart : start.backup.Linked) :
    restore matrix = .ok () start :=
  h.unwind_eq hstart

theorem restore_ground (h : Removes start matrix) (hstart : start.Linked)
    (hhistory : start.history = []) : restore matrix = .error .noMarker start := by
  have hunwind : restore matrix =
      unwind start.history { start with history := matrix.history } := h.unwind_eq hstart
  rw [hhistory] at hunwind
  have hground : unwind [] { start with history := matrix.history } =
      .error .noMarker { start with history := [] } := rfl
  rw [hground, ← hhistory] at hunwind
  exact hunwind

end Removes

/-! ## Stacks of markers -/

theorem isDeleted_backup : matrix.backup.IsDeleted line ↔ matrix.IsDeleted line := by
  simp [IsDeleted, backup]

theorem Linked.backup (h : matrix.Linked) : matrix.backup.Linked where
  lines := h.lines
  inRange := h.inRange
  injective := h.injective
  counted := h.counted
  sound := h.sound
  live line hline slot crossing hlocated hcrossing := by
    rw [isDeleted_backup] at hline ⊢
    exact h.live line hline slot crossing hlocated hcrossing
  ascending := h.ascending
  active line := by
    rw [isDeleted_backup]
    exact h.active line
  recorded line hline := h.recorded line (isDeleted_backup.mp hline)
  nodup := h.nodup

theorem Linked.withCosts (h : matrix.Linked) (costs : Array κ) :
    Linked { matrix with costs := costs } :=
  ⟨h.lines, h.inRange, h.injective, h.counted, h.sound, h.live, h.ascending, h.active, h.recorded,
    h.nodup⟩

/-- No active line has lost all its cells. -/
def Settled (matrix : Matrix κ) : Prop :=
  ∀ line, matrix.isActive line = true → 0 < matrix.count line

theorem Linked.settled (h : matrix.Linked) (hhistory : matrix.history = []) : matrix.Settled := by
  intro line hactive
  obtain ⟨slot, hlocated⟩ := h.occupied_of_isActive hactive
  obtain ⟨crossing, hcrossing⟩ := exists_indexAt?_cross hlocated
  have hslot := (h.live line (h.not_isDeleted hactive) slot crossing hlocated hcrossing).mpr
    (by simp [IsDeleted, hhistory])
  rw [h.count_eq (h.inRange_of_isActive hactive)]
  exact List.length_pos_of_mem hslot

/-- The removals on the history go back to a table without history or to a marker, and from there on
in the same way. -/
inductive Stacked : Matrix κ → Prop
  | ground {base matrix : Matrix κ} : base.Linked → base.history = [] → Removes base matrix →
      Stacked matrix
  | marked {outer matrix : Matrix κ} : Stacked outer → outer.Settled →
      Removes outer.backup matrix → Stacked matrix

namespace Stacked

theorem linked (h : matrix.Stacked) : matrix.Linked := by
  induction h with
  | ground hbase _ hremoves => exact hremoves.linked hbase
  | marked _ _ hremoves ih => exact hremoves.linked ih.backup

theorem removes (h : matrix.Stacked) (hremoves : Removes matrix second) : second.Stacked := by
  cases h with
  | ground hbase hhistory hprior => exact .ground hbase hhistory (hprior.trans hremoves)
  | marked houter hsettled hprior => exact .marked houter hsettled (hprior.trans hremoves)

theorem withCosts (h : matrix.Stacked) (costs : Array κ) :
    Stacked { matrix with costs := costs } := by
  induction h with
  | ground hbase hhistory hremoves =>
    exact .ground (hbase.withCosts costs) hhistory (hremoves.withCosts costs)
  | marked _ hsettled hremoves ih => exact .marked ih hsettled (hremoves.withCosts costs)

end Stacked

/-- What holds of a table between calls: its removals are on a stack and no active line is empty. -/
structure Intact (matrix : Matrix κ) : Prop where
  stacked : matrix.Stacked
  settled : matrix.Settled

namespace Intact

theorem linked (h : matrix.Intact) : matrix.Linked := h.stacked.linked

theorem of_linked (h : matrix.Linked) (hhistory : matrix.history = []) : matrix.Intact :=
  ⟨.ground h hhistory .refl, h.settled hhistory⟩

theorem backup (h : matrix.Intact) : matrix.backup.Intact :=
  ⟨.marked h.stacked h.settled .refl, h.settled⟩

/-- Restoration ends at the table below the latest marker or, without one, at a table without
history. -/
theorem restore_cases (h : matrix.Intact) :
    (∃ outer : Matrix κ, outer.Intact ∧ Removes outer.backup matrix ∧
      restore matrix = .ok () outer) ∨
    (∃ base : Matrix κ, base.Intact ∧ base.history = [] ∧ Removes base matrix ∧
      restore matrix = .error .noMarker base) := by
  cases h.stacked with
  | ground hbase hhistory hremoves =>
    exact .inr ⟨_, of_linked hbase hhistory, hhistory, hremoves,
      hremoves.restore_ground hbase hhistory⟩
  | marked houter hsettled hremoves =>
    exact .inl ⟨_, ⟨houter, hsettled⟩, hremoves, hremoves.restore_backup houter.linked.backup⟩

end Intact

end SetCover.Matrix

import SetCover.Proofs.RoundTrip

/-!
# Checkpoints

A checkpoint starts with a marker and ends with a restoration, but the restoration does not know to
which marker it belongs: it goes back to the latest one.  A body that puts markers of its own on the
history and leaves them there therefore moves the end of the checkpoint.  Every such marker costs one
restoration, those of nested checkpoints included, and the table comes back if and only if there is
none.
-/

namespace SetCover

/-- What can be done within a checkpoint.  A body that was cut short is one that ends with the refused
call. -/
inductive Errand where
  | call (operation : Operation) (inner : operation.isInner = true)
      (keepsCosts : operation.setsCost = false)
  /-- A marker that the body does not take back itself. -/
  | mark
  | checkpoint (body : List Errand)

namespace Errand

variable {κ : Type} [Cost κ]

mutual

/-- The workbench after an errand. -/
def after : Errand → Workbench κ → Workbench κ
  | call operation _ _, bench => operation.after bench
  | mark, bench => Operation.backup.after bench
  | checkpoint body, bench => Operation.restore.after (afterAll body (Operation.backup.after bench))

/-- The workbench after several errands. -/
def afterAll : List Errand → Workbench κ → Workbench κ
  | [], bench => bench
  | errand :: rest, bench => afterAll rest (errand.after bench)

end

mutual

/-- The number of markers that an errand leaves behind. -/
def marks : Errand → Nat
  | call _ _ _ => 0
  | mark => 1
  | checkpoint body => marksAll body

/-- The number of markers that several errands leave behind. -/
def marksAll : List Errand → Nat
  | [] => 0
  | errand :: rest => errand.marks + marksAll rest

end

end Errand

namespace Matrix

variable {κ : Type} {start matrix next : Matrix κ} {count : Nat}

/-- The number of markers on the history. -/
def markers (matrix : Matrix κ) : Nat := matrix.history.count .marker

theorem markers_backup : matrix.backup.markers = matrix.markers + 1 := List.count_cons_self

theorem Removes.markers_eq (h : Removes start matrix) : matrix.markers = start.markers := by
  induction h with
  | refl => rfl
  | remove _ _ ih => simpa [markers] using ih

/-! ## Markers above a marker -/

/-- The second table comes from the first by deletions and the given number of markers. -/
inductive Piled (start : Matrix κ) : Nat → Matrix κ → Prop
  | within {next : Matrix κ} : Deletes start next → Piled start 0 next
  | above {outer next : Matrix κ} {count : Nat} : Piled start count outer →
      Deletes outer.backup next → Piled start (count + 1) next

namespace Piled

theorem intact (h : Piled start count matrix) (hstart : start.Intact) : matrix.Intact := by
  induction h with
  | within hdeletes => exact (Descends.of_deletes hstart hdeletes).intact hstart
  | above _ hdeletes ih => exact (Descends.of_deletes ih.backup hdeletes).intact ih.backup

theorem deletes (h : Piled start count matrix) (hnext : Deletes matrix next) :
    Piled start count next := by
  cases h with
  | within hdeletes => exact .within (hdeletes.trans hnext)
  | above houter hdeletes => exact .above houter (hdeletes.trans hnext)

theorem mark (h : Piled start count matrix) : Piled start (count + 1) matrix.backup :=
  .above h .refl

theorem markers_eq (h : Piled start count matrix) (hstart : start.Intact) :
    matrix.markers = start.markers + count := by
  induction h with
  | within hdeletes => exact (hdeletes.removes hstart.linked hstart.settled).1.markers_eq
  | @above outer next count houter hdeletes ih =>
    have hintact := houter.intact hstart
    calc next.markers
        = outer.backup.markers :=
          (hdeletes.removes hintact.linked.backup hintact.settled).1.markers_eq
      _ = outer.markers + 1 := markers_backup
      _ = start.markers + (count + 1) := by rw [ih, Nat.add_assoc]

theorem history_ne_nil (h : Piled start count matrix) (hstart : start.Intact)
    (hmarked : 0 < start.markers) : matrix.history ≠ [] := by
  intro hempty
  have hmarkers := h.markers_eq hstart
  rw [markers, hempty, List.count_nil] at hmarkers
  omega

end Piled

end Matrix

open Workbench SetCover.Matrix

variable {κ : Type} [Cost κ] {start : Matrix κ} {bench : Workbench κ} {count : Nat}

omit [Cost κ] in
/-- A restoration takes the latest marker back, with what was deleted after it. -/
theorem Matrix.Piled.exists_restore (h : start.Piled (count + 1) bench.matrix)
    (hstart : start.Intact) : ∃ outer journal, start.Piled count outer ∧
      Workbench.restore bench = .ok () ⟨outer, bench.stats, journal⟩ := by
  cases h with
  | above houter hdeletes =>
    have hintact := houter.intact hstart
    obtain ⟨journal, hrestore⟩ := Workbench.restore_ok
      (hdeletes.removes hintact.linked.backup hintact.settled).1 hintact.linked bench.stats
      bench.journal
    exact ⟨_, journal, houter, hrestore⟩

namespace Errand

mutual

/-- An errand deletes lines above the marker and leaves its own markers there. -/
theorem piled_after [LawfulCost κ] (errand : Errand) (bench : Workbench κ) (count : Nat)
    (h : start.Piled count bench.matrix) (hstart : start.Intact) (hmarked : 0 < start.markers) :
    start.Piled (count + errand.marks) (errand.after bench).matrix := by
  match errand with
  | .call operation hinner hkeeps =>
    have hleads := Operation.leads_after hinner (h.intact hstart) (h.history_ne_nil hstart hmarked)
    exact h.deletes (hleads.deletes hkeeps)
  | .mark =>
    rw [after, Operation.matrix_after_backup]
    exact h.mark
  | .checkpoint body =>
    have hentered : start.Piled (count + 1) (Operation.backup.after bench).matrix := by
      rw [Operation.matrix_after_backup]
      exact h.mark
    have hbody := piled_afterAll body (Operation.backup.after bench) (count + 1) hentered hstart
      hmarked
    rw [Nat.add_right_comm] at hbody
    obtain ⟨outer, journal, houter, hrestore⟩ := hbody.exists_restore hstart
    have hrun : Operation.restore.run (afterAll body (Operation.backup.after bench)) =
      .ok () ⟨outer, _, journal⟩ := hrestore
    rw [after, Operation.after, Calls.stateAfter, hrun]
    exact houter

/-- The same for several errands. -/
theorem piled_afterAll [LawfulCost κ] (body : List Errand) (bench : Workbench κ) (count : Nat)
    (h : start.Piled count bench.matrix) (hstart : start.Intact) (hmarked : 0 < start.markers) :
    start.Piled (count + marksAll body) (afterAll body bench).matrix := by
  match body with
  | [] => exact h
  | errand :: rest =>
    have hfirst := piled_after errand bench count h hstart hmarked
    rw [marksAll, ← Nat.add_assoc]
    exact piled_afterAll rest (errand.after bench) (count + errand.marks) hfirst hstart hmarked

end

/-- The restoration at the end of a checkpoint is always carried out.  It leaves as many markers on the
history as the body has put there for good, and it leads back to the table on which the checkpoint was
started if and only if there are none. -/
theorem exists_restore_afterAll [LawfulCost κ] (h : bench.matrix.Reachable) (body : List Errand) :
    let inner := afterAll body (Operation.backup.after bench)
    ∃ outer journal, Workbench.restore inner = .ok () ⟨outer, inner.stats, journal⟩ ∧
      outer.markers = bench.matrix.markers + marksAll body ∧
      (outer = bench.matrix ↔ marksAll body = 0) := by
  intro inner
  have hintact := h.intact
  have hstart : (bench.matrix.backup).Piled 0 (Operation.backup.after bench).matrix := by
    rw [Operation.matrix_after_backup]
    exact .within .refl
  have hmarked : 0 < bench.matrix.backup.markers := by
    rw [markers_backup]
    exact Nat.succ_pos _
  have hinner := piled_afterAll body _ 0 hstart hintact.backup hmarked
  rw [Nat.zero_add] at hinner
  cases hmarks : marksAll body with
  | zero =>
    rw [hmarks] at hinner
    cases hinner with
    | within hdeletes =>
      obtain ⟨journal, hrestore⟩ := Workbench.restore_ok
        (hdeletes.removes hintact.linked.backup hintact.settled).1 hintact.linked inner.stats
        inner.journal
      exact ⟨_, journal, hrestore, rfl, by simp⟩
  | succ left =>
    rw [hmarks] at hinner
    obtain ⟨outer, journal, houter, hrestore⟩ := hinner.exists_restore hintact.backup
    have hmarkers : outer.markers = bench.matrix.markers + (left + 1) := by
      rw [houter.markers_eq hintact.backup, markers_backup]
      omega
    refine ⟨outer, journal, hrestore, hmarkers, fun heq ↦ ?_, fun hnone ↦ nomatch hnone⟩
    rw [heq] at hmarkers
    omega

/-- A marker is pending, and the bodies differ in a nested checkpoint that leaves a marker behind. -/
theorem exists_restore_afterAll_nested :
    let bench := Operation.afterAll [.insert 0 0, .insert 0 1, .insert 1 1, .insert 2 2, .backup,
      .delete (.column 0)] (Workbench.blank PairCost 3 3 false)
    let kept := afterAll [.call (.select 1) rfl rfl,
      .checkpoint [.call (.delete (.row 0)) rfl rfl, .call .rowDominance rfl rfl]]
      (Operation.backup.after bench)
    let moved := afterAll [.call (.select 1) rfl rfl,
      .checkpoint [.mark, .call (.delete (.row 2)) rfl rfl]] (Operation.backup.after bench)
    (∃ journal, Workbench.restore kept = .ok () ⟨bench.matrix, kept.stats, journal⟩) ∧
      ∃ outer journal, Workbench.restore moved = .ok () ⟨outer, moved.stats, journal⟩ ∧
        outer ≠ bench.matrix ∧ outer.markers = 2 := by
  intro bench kept moved
  have hreachable : bench.matrix.Reachable := reachable_afterAll_blank 3 3 false _
  have hmarkers : bench.matrix.markers = 1 := by decide +kernel
  clear_value bench
  obtain ⟨outer, journal, hrestore, -, hsame⟩ := exists_restore_afterAll hreachable
    [.call (.select 1) rfl rfl,
      .checkpoint [.call (.delete (.row 0)) rfl rfl, .call .rowDominance rfl rfl]]
  obtain ⟨other, later, hmoved, hcount, hdiffers⟩ := exists_restore_afterAll hreachable
    [.call (.select 1) rfl rfl, .checkpoint [.mark, .call (.delete (.row 2)) rfl rfl]]
  obtain rfl := hsame.mpr rfl
  refine ⟨⟨journal, hrestore⟩, other, later, hmoved, fun heq ↦ ?_, ?_⟩
  · exact absurd (hdiffers.mp heq) (by decide)
  · rw [hcount, hmarkers]
    rfl

/-- One marker too many, and what the checkpoint deleted stays deleted. -/
theorem restore_after_mark :
    let bench := Operation.afterAll [.insert 0 0, .insert 1 1]
      (Workbench.blank SingleCost 2 2 false)
    let outer := (Errand.checkpoint [.call (.delete (.row 0)) rfl rfl, .mark]).after bench
    bench.matrix.activeRows = [0, 1] ∧ bench.matrix.history = [] ∧ outer.matrix.activeRows = [1] ∧
      outer.matrix.history = [.deleted (.column 0), .deleted (.row 0), .marker] := by
  decide +kernel

end Errand

end SetCover

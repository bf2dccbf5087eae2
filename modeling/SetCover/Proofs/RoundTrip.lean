import SetCover.Proofs.Reachable

/-!
# From a marker and back

Between a marker and its restoration lines may be deleted and chosen, rules may be applied, costs may
be set, and further markers may be set and restored, to any depth; calls may be refused on the way.
The restoration leads back to the table from which it all started, entry by entry, except that costs
stay as they were set.
-/

namespace SetCover

/-- Whether an operation leaves the markers of a table alone. -/
def Operation.isInner : Operation → Bool
  | backup => false
  | restore => false
  | clear => false
  | resize .. => false
  | _ => true

/-- What can be done between a marker and its restoration.  Nested detours lie between a marker and a
restoration of their own; one that was cut short is a detour that ends with the refused call. -/
inductive Detour where
  | call (operation : Operation) (inner : operation.isInner = true)
  | nested (body : List Detour)

namespace Detour

variable {κ : Type} [Cost κ]

mutual

/-- The workbench after a detour. -/
def after : Detour → Workbench κ → Workbench κ
  | call operation _, bench => operation.after bench
  | nested body, bench => Operation.restore.after (afterAll body (Operation.backup.after bench))

/-- The workbench after several detours. -/
def afterAll : List Detour → Workbench κ → Workbench κ
  | [], bench => bench
  | detour :: rest, bench => afterAll rest (detour.after bench)

end

mutual

/-- Whether a cost is set on a detour. -/
def setsCost : Detour → Bool
  | call operation _ => operation.setsCost
  | nested body => anySetsCost body

/-- Whether a cost is set on one of several detours. -/
def anySetsCost : List Detour → Bool
  | [] => false
  | detour :: rest => detour.setsCost || anySetsCost rest

end

end Detour

open Workbench SetCover.Matrix

variable {κ : Type} [Cost κ] {matrix start next : Matrix κ} {bench : Workbench κ}

namespace Matrix.Descends

omit [Cost κ]

theorem history_ne_nil (h : Descends matrix next) (hhistory : matrix.history ≠ []) :
    next.history ≠ [] :=
  h.removes.history_ne_nil hhistory

/-- A restoration leads back to the marker, whatever has been done to the costs. -/
theorem restore_ok (h : Descends matrix.backup next) (hmatrix : matrix.Intact)
    (stats : Stats) (journal : Journal κ) :
    ∃ later, Workbench.restore ⟨next, stats, journal⟩ =
      .ok () ⟨{ matrix with costs := next.costs }, stats, later⟩ :=
  Workbench.restore_ok h.removes (hmatrix.linked.withCosts next.costs) stats journal

end Matrix.Descends

namespace Operation

theorem matrix_after_backup (bench : Workbench κ) :
    (backup.after bench).matrix = bench.matrix.backup := by
  have hbackup : Ends backup.run bench.matrix (fun _ next ↦ next = bench.matrix.backup)
      (fun _ next ↦ next = bench.matrix.backup) := ends_backup rfl
  exact of_ends hbackup

/-- Between a marker and its restoration every single call leads on by removals. -/
theorem leads_after [LawfulCost κ] {operation : Operation} (hinner : operation.isInner = true)
    (h : bench.matrix.Intact) (hhistory : bench.matrix.history ≠ []) :
    operation.Leads bench.matrix (operation.after bench).matrix := by
  cases hdescending : operation.isDescending with
  | true =>
    exact of_ends ((ends_descending h hdescending).imp (fun _ _ hnext ↦ hnext)
      fun _ _ hrefused ↦ hrefused.1)
  | false =>
    cases operation with
    | insert row column =>
      -- Cells are not inserted while there is a history.
      obtain ⟨fault, hinsert, -⟩ := @insert_refused _ bench.matrix row column
        fun hready ↦ hhistory hready.2.2
      have hsame : Leads (insert row column) bench.matrix bench.matrix :=
        ⟨.of_deletes h .refl, fun _ ↦ .refl, fun _ ↦ rfl⟩
      exact of_ends (.discard (.edit (.of_error hinsert hsame)))
    | _ => simp_all [isInner, isDescending]

theorem matrix_after_restore (hdescends : Descends matrix.backup bench.matrix)
    (hmatrix : matrix.Intact) :
    (restore.after bench).matrix = { matrix with costs := bench.matrix.costs } := by
  obtain ⟨later, hrestore⟩ := hdescends.restore_ok hmatrix bench.stats bench.journal
  have hrun : restore.run bench =
      .ok () ⟨{ matrix with costs := bench.matrix.costs }, bench.stats, later⟩ := hrestore
  rw [after, Calls.stateAfter, hrun]

end Operation

namespace Detour

mutual

/-- What is done between a marker and its restoration removes lines, costs aside, and it keeps the
costs unless it sets one. -/
theorem descends_after [LawfulCost κ] (detour : Detour) (bench : Workbench κ) (h : bench.matrix.Intact)
    (hhistory : bench.matrix.history ≠ []) :
    Descends bench.matrix (detour.after bench).matrix ∧
      (detour.setsCost = false → (detour.after bench).matrix.costs = bench.matrix.costs) := by
  match detour with
  | .call operation hinner =>
    have hleads := Operation.leads_after hinner h hhistory
    exact ⟨hleads.descends, hleads.costs h⟩
  | .nested body =>
    have hmarked := Operation.matrix_after_backup bench
    obtain ⟨hdescends, hcosts⟩ := descends_afterAll body (Operation.backup.after bench)
      (hmarked ▸ h.backup) (hmarked ▸ List.cons_ne_nil _ _)
    rw [hmarked] at hdescends hcosts
    rw [after, Operation.matrix_after_restore hdescends h]
    exact ⟨⟨.refl, h.settled⟩, hcosts⟩

/-- The same for several detours. -/
theorem descends_afterAll [LawfulCost κ] (body : List Detour) (bench : Workbench κ) (h : bench.matrix.Intact)
    (hhistory : bench.matrix.history ≠ []) :
    Descends bench.matrix (afterAll body bench).matrix ∧
      (anySetsCost body = false → (afterAll body bench).matrix.costs = bench.matrix.costs) := by
  match body with
  | [] => exact ⟨.of_deletes h .refl, fun _ ↦ rfl⟩
  | detour :: rest =>
    obtain ⟨hfirst, hfirstCosts⟩ := descends_after detour bench h hhistory
    obtain ⟨hrest, hrestCosts⟩ := descends_afterAll rest (detour.after bench) (hfirst.intact h)
      (hfirst.history_ne_nil hhistory)
    refine ⟨hfirst.trans hrest, fun hsets ↦ ?_⟩
    rw [anySetsCost, Bool.or_eq_false_iff] at hsets
    exact (hrestCosts hsets.2).trans (hfirstCosts hsets.1)

end

/-- The restoration after a marker and any detours is carried out and leads back to the table on which
the marker was put; only the costs may have been set anew. -/
theorem restore_afterAll [LawfulCost κ] (h : bench.matrix.Reachable) (body : List Detour) :
    let inner := afterAll body (Operation.backup.after bench)
    (∃ journal, Workbench.restore inner =
      .ok () ⟨{ bench.matrix with costs := inner.matrix.costs }, inner.stats, journal⟩) ∧
    (anySetsCost body = false → ∃ journal,
      Workbench.restore inner = .ok () ⟨bench.matrix, inner.stats, journal⟩) := by
  intro inner
  have hmarked := Operation.matrix_after_backup bench
  obtain ⟨hdescends, hcosts⟩ := descends_afterAll body (Operation.backup.after bench)
    (hmarked ▸ h.intact.backup) (hmarked ▸ List.cons_ne_nil _ _)
  rw [hmarked] at hdescends hcosts
  have hrestore := hdescends.restore_ok h.intact inner.stats inner.journal
  refine ⟨hrestore, fun hsets ↦ ?_⟩
  rw [hcosts hsets] at hrestore
  exact hrestore

/-- A choice after which a column falls, a refused deletion, and a detour within the detour. -/
theorem restore_afterAll_nested :
    let bench := Operation.afterAll [.insert 0 0, .insert 0 1, .insert 1 1, .insert 1 2,
      .delete (.column 0)] (Workbench.blank PairCost 2 3 false)
    let inner := afterAll [.call (.delete (.column 0)) rfl,
      .nested [.call (.select 1) rfl, .call .rowDominance rfl], .call (.delete (.row 1)) rfl]
      (Operation.backup.after bench)
    inner.matrix.history = [.deleted (.column 2), .deleted (.row 1), .marker,
      .deleted (.column 0)] ∧
    ∃ journal, Workbench.restore inner = .ok () ⟨bench.matrix, inner.stats, journal⟩ :=
  ⟨by decide +kernel, (restore_afterAll (reachable_afterAll_blank 2 3 false [.insert 0 0,
    .insert 0 1, .insert 1 1, .insert 1 2, .delete (.column 0)]) _).2 rfl⟩

end Detour

end SetCover

import SetCover.Matrix.Consistency
import SetCover.Proofs.Matrix.Remaining

/-!
# The check finds nothing

A table whose lines are linked and of which no active line is empty passes the check.
-/

namespace SetCover.Matrix

variable {κ : Type} {matrix : Matrix κ} {line : Line} {index : Nat}

theorem firstDescent?_eq_none {elements : List Nat} (h : elements.Pairwise (· < ·)) :
    Ascending.firstDescent? elements = none := by
  fun_induction Ascending.firstDescent? elements with
  | case1 first second rest _ ih => exact ih h.of_cons
  | case2 first second rest hnot => exact absurd (List.rel_of_pairwise_cons h (by simp)) hnot
  | case3 => rfl

theorem forM_eq_ok {α ε : Type} {elements : List α} {body : α → Except ε Unit}
    (h : ∀ element ∈ elements, body element = .ok ()) : elements.forM body = .ok () := by
  induction elements with
  | nil => rfl
  | cons first rest ih =>
    have hfirst := h first (by simp)
    have hrest := ih fun element helement ↦ h element (by simp [helement])
    calc (first :: rest).forM body = (body first >>= fun _ ↦ rest.forM body) := rfl
      _ = .ok () := by
        rw [hfirst]
        exact hrest

namespace Linked

theorem checkActive_eq (h : matrix.Linked) (axis : Axis) : matrix.checkActive axis = .ok () := by
  have hdescent : Ascending.firstDescent? (matrix.active axis) = none :=
    firstDescent?_eq_none (h.lines axis).ascending
  rw [checkActive, hdescent]

theorem checkFlags_eq (h : matrix.Linked) (axis : Axis) : matrix.checkFlags axis = .ok () := by
  refine forM_eq_ok fun index _ ↦ if_pos ?_
  rw [beq_iff_eq, Bool.eq_iff_iff, List.contains_iff_mem]
  exact h.mem_active

theorem checkCrossing_eq (h : matrix.Linked) (hactive : matrix.isActive line = true)
    (hindex : index ∈ matrix.crossing line) : matrix.checkCrossing line index = .ok () := by
  have hcross := h.isActive_of_mem_crossing hactive hindex
  have hback := (h.mem_crossing_comm hactive hcross).mpr hindex
  simp [checkCrossing, hcross, hback, pure, Except.pure]

theorem checkLine_eq (h : matrix.Linked) (hsettled : matrix.Settled)
    (hactive : matrix.isActive line = true) : matrix.checkLine line = .ok () := by
  have hrange := h.inRange_of_isActive hactive
  have hdescent := firstDescent?_eq_none (h.ascending line hrange)
  have hlength := h.length_crossing hrange
  have hsome : (matrix.crossing line).isEmpty = false := by
    have hpositive := hsettled line hactive
    rw [← hlength, List.length_pos_iff] at hpositive
    simpa using hpositive
  have hcross : forM (matrix.crossing line) (matrix.checkCrossing line) = .ok () :=
    forM_eq_ok fun index hindex ↦ h.checkCrossing_eq hactive hindex
  simp [checkLine, hdescent, hsome, hlength, hcross]

theorem check_eq (h : matrix.Linked) (hsettled : matrix.Settled) : matrix.check = .ok () := by
  have hrows : forM matrix.activeRows (fun row ↦ matrix.checkLine (.row row)) = .ok () :=
    forM_eq_ok fun row hrow ↦ h.checkLine_eq hsettled (h.mem_active.mpr hrow)
  have hcolumns :
      forM matrix.activeColumns (fun column ↦ matrix.checkLine (.column column)) = .ok () :=
    forM_eq_ok fun column hcolumn ↦ h.checkLine_eq hsettled (h.mem_active.mpr hcolumn)
  simp [check, h.checkActive_eq, h.checkFlags_eq, hrows, hcolumns, bind, Except.bind]

end Linked

end SetCover.Matrix

import SetCover.Proofs.Pending

/-!
# Refusals

A call is refused for what it is given and for the state it is given in, and for no other reason:
whatever it does along the way, to lines that fall with others, goes through.  All that is refused is
refused before anything is changed.  The one exception is a restoration without a marker, which takes
back everything that is pending before it is refused.
-/

namespace SetCover

/-! ## Values that a cost takes -/

/-- The values that are not refused as a cost are those that are neither negative nor infinite. -/
theorem nonnegative_and_finite_iff (value : Float) : 0.0 ≤ value ∧ value.isFinite = true ↔
    ¬(value.isNaN = true ∨ value < 0.0 ∨ value.isInf = true) := by
  have hle : 0.0 ≤ value ↔
      Float.Model.UnpackedFloat.le (.zero .positive) value.toModel.unpack = true :=
    ⟨of_decide_eq_true, decide_eq_true⟩
  have hlt : value < 0.0 ↔
      Float.Model.UnpackedFloat.lt value.toModel.unpack (.zero .positive) = true :=
    ⟨of_decide_eq_true, decide_eq_true⟩
  rw [hle, hlt, Float.isFinite, Float.isNaN, Float.isInf, Float.Model.isFinite, Float.Model.isNaN,
    Float.Model.isInf]
  cases value.toModel.unpack with
  | infinity sign => cases sign <;> decide
  | notANumber => decide
  | zero sign => cases sign <;> decide
  | finite sign mantissa exponent hmantissa =>
    cases sign with
    | positive =>
      change true = true ∧ true = true ↔ ¬(false = true ∨ false = true ∨ false = true)
      decide
    | negative =>
      change false = true ∧ true = true ↔ ¬(false = true ∨ true = true ∨ false = true)
      decide

/-- Every component takes all finite values and no others. -/
class TakesFinite (κ : Type) [Cost κ] : Prop where
  isOk_withComponent_iff (cost : κ) {index : Nat} (value : Float) : index < Cost.dimension κ →
    ((Cost.withComponent cost index value).isOk = true ↔ value.isFinite = true)

theorem isOk_requireFinite_bind {α : Type} (value : Float) (result : α) :
    (do requireFinite value; return result : Except Fault α).isOk = value.isFinite := by
  unfold requireFinite
  cases value.isFinite <;> rfl

instance : TakesFinite SingleCost where
  isOk_withComponent_iff cost index value hindex := by
    obtain rfl : index = 0 := Nat.lt_one_iff.mp hindex
    exact iff_of_eq (congrArg (· = true) (isOk_requireFinite_bind value _))

instance : TakesFinite PairCost where
  isOk_withComponent_iff cost index value hindex := by
    match index, hindex with
    | 0, _ => exact iff_of_eq (congrArg (· = true) (isOk_requireFinite_bind value _))
    | 1, _ => exact iff_of_eq (congrArg (· = true) (isOk_requireFinite_bind value _))

/-! ## Calls that are refused on a condition -/

/-- The call is refused if the condition holds, and only then.  What is refused changes nothing. -/
structure Calls.RefusedIff {ε σ α : Type} (call : EStateM ε σ α) (state : σ) (condition : Prop) :
    Prop where
  refused : condition → ∃ fault, call state = .error fault state
  carriedOut : ¬condition → ∃ result next, call state = .ok result next

namespace Matrix

open Calls

variable {κ : Type} {matrix : Matrix κ}

/-- A line that is not active need not be told from one outside the table. -/
theorem Linked.refusedIff_of_isActive {α : Type} {call : Edit κ α} {line : Line} (h : matrix.Linked)
    (hrefused : matrix.isActive line = false → ∃ fault, call matrix = .error fault matrix)
    (hcarried : matrix.isActive line = true → ∃ result next, call matrix = .ok result next) :
    RefusedIff call matrix (¬matrix.InRange line ∨ matrix.isActive line = false) where
  refused
    | .inl houtside => hrefused (Bool.eq_false_iff.mpr fun hactive ↦
        houtside (h.inRange_of_isActive hactive))
    | .inr hinactive => hrefused hinactive
  carriedOut hcondition := hcarried (Bool.not_eq_false _ ▸ (not_or.mp hcondition).2)

theorem refusedIff_delete (h : matrix.Linked) (line : Line) :
    RefusedIff (delete line) matrix (¬matrix.InRange line ∨ matrix.isActive line = false) :=
  h.refusedIff_of_isActive (fun hinactive ↦ ⟨_, delete_of_not_isActive hinactive⟩)
    fun hactive ↦ ⟨_, _, delete_of_isActive h hactive⟩

theorem refusedIff_select (h : matrix.Linked) (hsettled : matrix.Settled) (column : Nat) :
    RefusedIff (select column) matrix
      (¬matrix.InRange (.column column) ∨ matrix.isActive (.column column) = false) :=
  h.refusedIff_of_isActive (fun hinactive ↦ ⟨_, select_of_not_isActive hinactive⟩)
    fun hactive ↦ ⟨_, _, select_of_isActive h hsettled hactive⟩

theorem refusedIff_insert (h : matrix.Linked) (row column : Nat) :
    RefusedIff (insert row column) matrix (¬matrix.InRange (.row row) ∨
      ¬matrix.InRange (.column column) ∨ matrix.history ≠ []) where
  refused hcondition := by
    obtain ⟨fault, hinsert, -⟩ := @insert_refused _ matrix row column (by tauto)
    exact ⟨fault, hinsert⟩
  carriedOut hcondition := by
    obtain ⟨hrow, hcolumn, hhistory⟩ : matrix.InRange (.row row) ∧ matrix.InRange (.column column) ∧
        matrix.history = [] := by tauto
    by_cases hcell : matrix.HasCell ⟨row, column⟩
    · exact ⟨_, _, insert_present h hhistory hrow hcolumn hcell⟩
    · obtain ⟨next, hinsert, -⟩ := insert_new h hhistory hrow hcolumn hcell
      exact ⟨_, next, hinsert⟩

variable [Cost κ]

theorem refusedIff_setCost [TakesFinite κ] (column component : Nat) (value : Float) :
    RefusedIff (setCost column component value) matrix (¬matrix.InRange (.column column) ∨
      ¬component < Cost.dimension κ ∨ value.isNaN = true ∨ value < 0.0 ∨ value.isInf = true) := by
  by_cases hrange : matrix.InRange (.column column)
  swap
  · exact ⟨fun _ ↦ ⟨_, Calls.bind_error (requireLine_error hrange)⟩,
      fun hnot ↦ absurd (.inl hrange) hnot⟩
  by_cases hcomponent : component < Cost.dimension κ
  swap
  · refine ⟨fun _ ↦ ?_, fun hnot ↦ absurd (.inr (.inl hcomponent)) hnot⟩
    rw [setCost_inside hrange, if_neg hcomponent]
    exact ⟨_, rfl⟩
  rw [or_iff_right (not_not.mpr hrange), or_iff_right (not_not.mpr hcomponent)]
  have hvalues := nonnegative_and_finite_iff value
  rw [← TakesFinite.isOk_withComponent_iff (matrix.costOf column) value hcomponent] at hvalues
  constructor
  · intro hcondition
    rw [setCost_inside hrange, if_pos hcomponent]
    split_ifs with hvalue
    · cases hcost : Cost.withComponent (matrix.costOf column) component value with
      | error fault => exact ⟨fault, rfl⟩
      | ok cost => exact absurd hcondition (hvalues.mp ⟨hvalue, by rw [hcost]; rfl⟩)
    · exact ⟨_, rfl⟩
  · intro hcondition
    obtain ⟨hvalue, hcost⟩ := hvalues.mpr hcondition
    rw [setCost_inside hrange, if_pos hcomponent, if_pos hvalue]
    cases hset : Cost.withComponent (matrix.costOf column) component value with
    | error fault =>
      rw [hset] at hcost
      cases hcost
    | ok cost => exact ⟨_, _, rfl⟩

theorem refusedIff_resize (rowSize columnSize dimension : Nat) :
    RefusedIff (resize rowSize columnSize dimension) matrix (dimension ≠ Cost.dimension κ) where
  refused hcondition := by
    rw [resize, Matrix.new, if_neg hcondition]
    exact ⟨_, rfl⟩
  carriedOut hcondition := by
    rw [resize, Matrix.new, if_pos (not_ne_iff.mp hcondition)]
    exact ⟨_, _, rfl⟩

/-- What a reachable table refuses.  A deletion or a choice is refused if the line is not active or not
in the table, an insertion if it is not in the table or something is pending, a cost if there is no such
column or component or the value is not a number, negative or infinite, and a new shape if the dimension
is that of another kind of cost.  All of these leave the table as it is.  A restoration is refused if
there is no marker.  Nothing is pending then, every cell is live, and the table is the one that it was
when its history was last empty, costs aside. -/
theorem refusals_of_reachable [LawfulCost κ] [TakesFinite κ] (h : matrix.Reachable) :
    (∀ line, RefusedIff (delete line) matrix
      (¬matrix.InRange line ∨ matrix.isActive line = false)) ∧
    (∀ column, RefusedIff (select column) matrix
      (¬matrix.InRange (.column column) ∨ matrix.isActive (.column column) = false)) ∧
    (∀ row column, RefusedIff (insert row column) matrix
      (¬matrix.InRange (.row row) ∨ ¬matrix.InRange (.column column) ∨ matrix.history ≠ [])) ∧
    (∀ column component value, RefusedIff (setCost column component value) matrix
      (¬matrix.InRange (.column column) ∨ ¬component < Cost.dimension κ ∨
        value.isNaN = true ∨ value < 0.0 ∨ value.isInf = true)) ∧
    ¬((-0.0 : Float).isNaN = true ∨ (-0.0 : Float) < 0.0 ∨ (-0.0 : Float).isInf = true) ∧
    (∀ rowSize columnSize dimension, RefusedIff (resize rowSize columnSize dimension) matrix
      (dimension ≠ Cost.dimension κ)) ∧
    (.marker ∈ matrix.history → ∃ outer, restore matrix = .ok () outer) ∧
    (.marker ∉ matrix.history → ∃ base, restore matrix = .error .noMarker base ∧
      base.history = [] ∧
      (∀ cell, matrix.HasCell cell → base.isActive (.row cell.row) = true ∧
        base.isActive (.column cell.column) = true ∧ cell.column ∈ base.columnsOf cell.row ∧
        cell.row ∈ base.rowsOf cell.column) ∧
      (∃ origin, PendingSince origin matrix) ∧
      ∀ origin, PendingSince origin matrix → base = { origin with costs := matrix.costs }) := by
  obtain ⟨hlinked, hsettled⟩ : matrix.Linked ∧ matrix.Settled := ⟨h.intact.linked, h.intact.settled⟩
  obtain ⟨origin, hpending⟩ := h.exists_pendingSince
  obtain ⟨horigin, hhistory⟩ := hpending.of_origin
  have hbase := horigin.intact.linked.withCosts matrix.costs
  have hrestore := hpending.above.restore_cases hbase hhistory
  refine ⟨refusedIff_delete hlinked, refusedIff_select hlinked hsettled, refusedIff_insert hlinked,
    refusedIff_setCost, (nonnegative_and_finite_iff (-0.0)).mp (by decide), refusedIff_resize,
    fun hmarked ↦ ?_, fun hunmarked ↦ ?_⟩
  · obtain ⟨outer, houter, -⟩ := (hrestore.resolve_right fun hnone ↦ hnone.1 hmarked).2
    exact ⟨outer, houter⟩
  · have hground := (hrestore.resolve_left fun hsome ↦ hunmarked hsome.1).2
    refine ⟨_, hground, hhistory, fun cell hcell ↦ ?_, ⟨origin, hpending⟩, fun other hother ↦ ?_⟩
    · apply hbase.live_of_hasCell hhistory
      rw [HasCell, hpending.above.cells_eq] at hcell
      exact hcell
    · obtain ⟨hotherReachable, hotherHistory⟩ := hother.of_origin
      have hotherGround := (hother.above.restore_cases
        (hotherReachable.intact.linked.withCosts matrix.costs) hotherHistory).resolve_left
        fun hsome ↦ hunmarked hsome.1
      exact (EStateM.Result.error.inj (hground.symm.trans hotherGround.2)).2

/-- A column that fell with a row cannot be deleted, and nothing can be inserted meanwhile; negative
zero is a cost.  What was deleted between a marker and its restoration is back already, and the
restoration that is refused brings back the rest. -/
theorem refusals_of_reachable_pending :
    let start := Operation.afterAll [.insert 0 0, .insert 0 1, .insert 1 1]
      (Workbench.blank PairCost 2 2 false)
    let bench := Operation.afterAll [.delete (.row 0), .backup, .delete (.row 1), .restore,
      .setCost 1 1 2.0] start
    bench.matrix.history = [.deleted (.column 0), .deleted (.row 0)] ∧
      (∃ fault, delete (.column 0) bench.matrix = .error fault bench.matrix) ∧
      (∃ fault, insert 1 0 bench.matrix = .error fault bench.matrix) ∧
      (∃ next, setCost 1 1 (-0.0) bench.matrix = .ok () next) ∧
      restore bench.matrix = .error .noMarker { start.matrix with costs := bench.matrix.costs } := by
  intro start bench
  have hstart : start.matrix.Reachable := reachable_afterAll_blank 2 2 false _
  have hbench : bench.matrix.Reachable := hstart.afterAll _
  have hempty : start.matrix.history = [] := by
    decide +kernel
  have hpending : PendingSince start.matrix bench.matrix := by
    refine (PendingSince.start hstart hempty).afterAll ?_
    decide +kernel
  obtain ⟨hhistory, hinactive, hrange⟩ :
      bench.matrix.history = [.deleted (.column 0), .deleted (.row 0)] ∧
        bench.matrix.isActive (.column 0) = false ∧ bench.matrix.columns.size = 2 := by
    decide +kernel
  clear_value bench start
  obtain ⟨hdelete, -, hinsert, hsetCost, hzero, -, -, hrestore⟩ := refusals_of_reachable hbench
  have hcolumn : bench.matrix.InRange (.column 1) := Nat.one_lt_two.trans_eq hrange.symm
  obtain ⟨_, next, hset⟩ := (hsetCost 1 1 (-0.0)).carriedOut fun hcondition ↦ by
    rcases hcondition with houtside | hcomponent | hvalue
    · exact houtside hcolumn
    · exact hcomponent Nat.one_lt_two
    · exact hzero hvalue
  obtain ⟨base, hground, -, -, -, hbase⟩ := hrestore (by simp [hhistory])
  exact ⟨hhistory, (hdelete _).refused (.inr hinactive),
    (hinsert 1 0).refused (.inr (.inr (by simp [hhistory]))), ⟨next, hset⟩,
    hbase _ hpending ▸ hground⟩

end Matrix

end SetCover

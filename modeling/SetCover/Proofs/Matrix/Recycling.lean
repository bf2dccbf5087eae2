import SetCover.Matrix.Consistency
import SetCover.Matrix.Text
import SetCover.Proofs.Arena.Recycling
import SetCover.Proofs.Calls
import SetCover.Proofs.Matrix.Linked
import SetCover.Search.Branching

/-!
# Tables with spare slots

A table that was cleared differs from a new one in nothing but the slots that its cells have left.  No
view shows these, and every change of the table does the same without them.
-/

namespace SetCover.Matrix

open SetCover.Calls

variable {κ α β : Type} {matrix first second : Matrix κ}

/-- The table with spare slots for cells. -/
def padded (matrix : Matrix κ) (spare : Nat) : Matrix κ :=
  { matrix with cells := matrix.cells.padded spare }

/-! ## Views -/

section Views

variable (matrix : Matrix κ) (spare : Nat)

@[simp]
theorem padded_zero : matrix.padded 0 = matrix := by
  rw [padded, Arena.padded_zero]

@[simp]
theorem lines_padded : (matrix.padded spare).lines = matrix.lines := rfl

@[simp]
theorem indexAt?_padded : (matrix.padded spare).indexAt? = matrix.indexAt? := by
  funext axis slot
  simp [indexAt?, padded]

@[simp]
theorem crossing_padded : (matrix.padded spare).crossing = matrix.crossing := by
  funext line
  rw [crossing, indexAt?_padded]
  rfl

@[simp]
theorem rowsOf_padded : (matrix.padded spare).rowsOf = matrix.rowsOf := by
  funext column
  rw [rowsOf, crossing_padded, rowsOf]

@[simp]
theorem columnsOf_padded : (matrix.padded spare).columnsOf = matrix.columnsOf := by
  funext row
  rw [columnsOf, crossing_padded, columnsOf]

@[simp]
theorem gap?_padded : (matrix.padded spare).gap? = matrix.gap? := by
  funext line position
  rw [gap?, indexAt?_padded, lines_padded, gap?]

theorem shortestCrossing?_padded :
    (matrix.padded spare).shortestCrossing? = matrix.shortestCrossing? := by
  funext line
  rw [shortestCrossing?, crossing_padded]
  rfl

@[simp]
theorem dominatedRows_padded : (matrix.padded spare).dominatedRows = matrix.dominatedRows := by
  funext row
  have hdominates : (matrix.padded spare).rowDominates = matrix.rowDominates := by
    funext row other
    rw [rowDominates, columnsOf_padded]
    rfl
  rw [dominatedRows, shortestCrossing?_padded, rowsOf_padded, hdominates, dominatedRows]

variable [Cost κ]

@[simp]
theorem dominator?_padded : (matrix.padded spare).dominator? = matrix.dominator? := by
  funext column
  have hdominates : (matrix.padded spare).columnDominates = matrix.columnDominates := by
    funext column other
    rw [columnDominates, rowsOf_padded]
    rfl
  rw [dominator?, shortestCrossing?_padded, columnsOf_padded, hdominates, dominator?]

@[simp]
theorem disjointRows_padded : (matrix.padded spare).disjointRows = matrix.disjointRows := by
  have hgroups : (matrix.padded spare).groups = matrix.groups := by
    rw [groups, rowsOf_padded]
    rfl
  have hcheapest : (matrix.padded spare).cheapest = matrix.cheapest := by
    funext row
    rw [cheapest, cheapest?, columnsOf_padded]
    rfl
  rw [disjointRows, hgroups, hcheapest]
  rfl

@[simp]
theorem snapshot_padded : (matrix.padded spare).snapshot = matrix.snapshot := by
  rw [snapshot, columnsOf_padded]
  rfl

omit [Cost κ] in
@[simp]
theorem text_padded : (matrix.padded spare).text = matrix.text := by
  have hrow : (matrix.padded spare).rowText = matrix.rowText := by
    funext row
    rw [rowText, columnsOf_padded, rowText]
  rw [text, hrow]
  rfl

omit [Cost κ] in
@[simp]
theorem check_padded : (matrix.padded spare).check = matrix.check := by
  have hcrossing : (matrix.padded spare).checkCrossing = matrix.checkCrossing := by
    funext line index
    rw [checkCrossing, crossing_padded]
    rfl
  have hline : (matrix.padded spare).checkLine = matrix.checkLine := by
    funext line
    rw [checkLine, crossing_padded, hcrossing]
    rfl
  rw [check, hline]
  rfl

end Views

/-! ## Calls -/

/-- The first table is the second one but for spare slots.  If there are any, the search for a vacant
slot must not have gone past them. -/
def Akin (first second : Matrix κ) : Prop :=
  ∃ spare, first = second.padded spare ∧ (spare = 0 ∨ second.cells.Tight)

namespace Akin

theorem refl (matrix : Matrix κ) : Akin matrix matrix :=
  ⟨0, (padded_zero matrix).symm, .inl rfl⟩

theorem map {change : Matrix κ → Matrix κ} (h : Akin first second)
    (hpadded : ∀ matrix spare, change (matrix.padded spare) = (change matrix).padded spare)
    (htight : ∀ matrix, matrix.cells.Tight → (change matrix).cells.Tight) :
    Akin (change first) (change second) := by
  obtain ⟨spare, rfl, hspare⟩ := h
  exact ⟨spare, hpadded second spare, hspare.imp_right (htight second)⟩

theorem vacancy_eq (h : Akin first second) : first.cells.vacancy = second.cells.vacancy := by
  obtain ⟨spare, rfl, rfl | htight⟩ := h
  · rw [padded_zero]
  · exact htight.vacancy_padded spare

/-- A view that is blind to spare slots shows the same. -/
theorem view_eq {view : Matrix κ → α} (h : Akin first second)
    (hpadded : ∀ matrix spare, view (matrix.padded spare) = view matrix) :
    view first = view second := by
  obtain ⟨spare, rfl, -⟩ := h
  exact hpadded second spare

end Akin

variable {rest : Matrix κ → Edit κ β} {change : Matrix κ → Matrix κ}

theorem respects_get (hpadded : ∀ matrix spare, rest (matrix.padded spare) = rest matrix)
    (hrest : ∀ matrix, Respects Akin (rest matrix)) : Respects Akin (get >>= rest) :=
  .get_bind (fun _ _ h ↦ h.view_eq hpadded) hrest

theorem respects_modify
    (hpadded : ∀ matrix spare, change (matrix.padded spare) = (change matrix).padded spare)
    (htight : ∀ matrix, matrix.cells.Tight → (change matrix).cells.Tight) :
    Respects Akin (modify change : Edit κ PUnit) :=
  .modifying fun _ _ h ↦ h.map hpadded htight

theorem modifyLines_padded (axis : Axis) (change : Lines → Lines) (matrix : Matrix κ) (spare : Nat) :
    modifyLines axis change (matrix.padded spare) = (modifyLines axis change matrix).padded spare := by
  cases axis <;> rfl

theorem respects_modifyLines (axis : Axis) (change : Lines → Lines) :
    Respects Akin (modify (modifyLines axis change) : Edit κ PUnit) :=
  respects_modify (modifyLines_padded axis change) fun matrix h ↦ by rwa [cells_modifyLines]

theorem respects_requireLine (line : Line) : Respects Akin (requireLine line : Edit κ Unit) :=
  respects_get (fun _ _ ↦ rfl) fun _ ↦ iteInduction (fun _ ↦ .throw _) fun _ ↦ .pure ()

theorem respects_retire (line : Line) : Respects Akin (retire line : Edit κ Unit) :=
  respects_get (fun _ _ ↦ rfl) fun _ ↦ .throwUnless <|
    .bind (respects_modify (fun _ _ ↦ rfl) fun _ h ↦ h) fun _ ↦ respects_modifyLines _ _

theorem respects_drop (axis : Axis) (slot : Nat) : Respects Akin (drop axis slot : Edit κ Unit) := by
  refine respects_get (fun _ _ ↦ by rw [indexAt?_padded]) fun matrix ↦ ?_
  cases matrix.indexAt? axis slot with
  | none => exact .throw _
  | some index =>
    exact respects_get (fun _ _ ↦ rfl) fun _ ↦ .throwIf <|
      .bind (respects_modifyLines _ _) fun _ ↦ respects_get (fun _ _ ↦ rfl) fun _ ↦
        iteInduction (fun _ ↦ respects_retire _) fun _ ↦ .pure ()

theorem respects_delete (line : Line) : Respects Akin (delete line : Edit κ Unit) :=
  .bind (respects_requireLine line) fun _ ↦ .bind (respects_retire line) fun _ ↦
    respects_get (fun _ _ ↦ rfl) fun _ ↦ .forM (respects_drop _) _

theorem respects_select (column : Nat) : Respects Akin (select column : Edit κ Unit) :=
  .bind (respects_requireLine _) fun _ ↦ respects_get (fun _ _ ↦ rfl) fun _ ↦ .throwUnless <|
    respects_get (fun _ _ ↦ by rw [rowsOf_padded]) fun _ ↦
      .bind (.forM (fun _ ↦ respects_delete _) _) fun _ ↦ respects_get (fun _ _ ↦ rfl) fun _ ↦
        iteInduction (fun _ ↦ respects_delete _) fun _ ↦ .pure ()

theorem respects_backup : Respects Akin (modify backup : Edit κ PUnit) :=
  respects_modify (fun _ _ ↦ rfl) fun _ h ↦ h

theorem foldl_recover_padded (axis : Axis) (slots : List Nat) (matrix : Matrix κ) (spare : Nat) :
    slots.foldl (recover axis) (matrix.padded spare) =
      (slots.foldl (recover axis) matrix).padded spare := by
  induction slots generalizing matrix with
  | nil => rfl
  | cons slot rest ih =>
    have hfirst :
        recover axis (matrix.padded spare) slot = (recover axis matrix slot).padded spare := by
      rw [recover, recover, indexAt?_padded]
      cases matrix.indexAt? axis slot with
      | none => rfl
      | some index => exact modifyLines_padded ..
    rw [List.foldl_cons, List.foldl_cons, hfirst, ih]

theorem cells_foldl_recover (axis : Axis) (slots : List Nat) (matrix : Matrix κ) :
    (slots.foldl (recover axis) matrix).cells = matrix.cells := by
  induction slots generalizing matrix with
  | nil => rfl
  | cons slot rest ih =>
    have hfirst : (recover axis matrix slot).cells = matrix.cells := by
      rw [recover]
      cases matrix.indexAt? axis slot with
      | none => rfl
      | some index => exact cells_modifyLines _
    rw [List.foldl_cons, ih, hfirst]

theorem respects_reinstate (line : Line) : Respects Akin (modify (reinstate line) : Edit κ PUnit) := by
  refine respects_modify (fun matrix spare ↦ ?_) fun matrix h ↦ ?_
  · simp only [reinstate, modifyLines_padded, lines_padded, foldl_recover_padded]
  · rw [reinstate, cells_foldl_recover, cells_modifyLines]
    exact h

theorem respects_restore : Respects Akin (restore : Edit κ Unit) := by
  have hunwind (history : List Record) : Respects Akin (unwind history : Edit κ Unit) := by
    induction history with
    | nil => exact .bind (respects_modify (fun _ _ ↦ rfl) fun _ h ↦ h) fun _ ↦ .throw _
    | cons record history ih =>
      cases record with
      | marker => exact respects_modify (fun _ _ ↦ rfl) fun _ h ↦ h
      | deleted line => exact .bind (respects_reinstate line) fun _ ↦ ih
  exact respects_get (fun _ _ ↦ rfl) fun _ ↦ hunwind _

theorem respects_attach (line : Line) (slot : Nat) (gap : Nat × Nat) :
    Respects Akin (attach line slot gap : Edit κ Unit) := by
  refine .bind (respects_modifyLines _ _) fun _ ↦ respects_get (fun _ _ ↦ rfl) fun _ ↦
    iteInduction (fun _ ↦ respects_get (fun _ _ ↦ rfl) fun matrix ↦ ?_) fun _ ↦ .pure ()
  cases (matrix.lines line.axis).activate? line.index with
  | none => exact .throw _
  | some lines => exact respects_modifyLines _ _

/-- The slot of a new cell is the same, though it may be a spare one. -/
theorem Akin.insertCell (h : Akin first second) (cell : Cell) :
    Akin { first with cells := first.cells.insert cell }
      { second with cells := second.cells.insert cell } := by
  obtain ⟨spare, rfl, rfl | htight⟩ := h
  · rw [padded_zero]
    exact refl _
  · obtain ⟨left, hleft⟩ := htight.exists_insert_padded cell spare
    exact ⟨left, congrArg (fun cells ↦ { second with cells := cells }) hleft,
      .inr (Arena.tight_insert second.cells cell)⟩

theorem respects_insert (row column : Nat) : Respects Akin (insert row column : Edit κ Bool) := by
  refine .bind (respects_requireLine _) fun _ ↦ .bind (respects_requireLine _) fun _ ↦
    respects_get (fun _ _ ↦ rfl) fun _ ↦ .throwUnless <|
      respects_get (fun _ _ ↦ by rw [gap?_padded]) fun _ ↦
        respects_get (fun _ _ ↦ by rw [gap?_padded]) fun _ ↦ ?_
  split
  · exact .pure _
  · exact .throw _
  · -- where the new cell goes is no view, but tables with spare slots agree on it
    exact .get_bind (fun _ _ h ↦ by rw [h.vacancy_eq]) fun _ ↦
      .bind (.modifying fun _ _ h ↦ h.insertCell _) fun _ ↦
        .bind (respects_attach _ _ _) fun _ ↦ .bind (respects_attach _ _ _) fun _ ↦ .pure _

variable [Cost κ]

theorem respects_setCost (column component : Nat) (value : Float) :
    Respects Akin (setCost column component value : Edit κ Unit) := by
  refine .bind (respects_requireLine _) fun _ ↦ .throwUnless <| .throwUnless <|
    respects_get (fun _ _ ↦ rfl) fun matrix ↦ ?_
  split
  · exact .throw _
  · exact respects_modify (fun _ _ ↦ rfl) fun _ h ↦ h

theorem respects_resize (rowSize columnSize dimension : Nat) :
    Respects Akin (resize rowSize columnSize dimension : Edit κ Unit) := by
  unfold resize
  split
  · exact .throw _
  · exact fun _ _ _ ↦ .of_ok rfl rfl (.refl _)

theorem respects_clear : Respects Akin (modify clear : Edit κ PUnit) :=
  respects_modify
    (fun matrix spare ↦ congrArg (fun cells ↦ { matrix.clear with cells := cells })
      (matrix.cells.releaseFrom_padded (Nat.zero_le _) spare))
    fun _ h ↦ h.releaseFrom 0

/-- A cleared table is a new one but for the slots that its cells have left. -/
theorem Linked.akin_clear {fresh : Matrix κ} (h : matrix.Linked)
    (hfresh : Matrix.new matrix.rowSize matrix.columnSize (Cost.dimension κ) = .ok fresh) :
    Akin matrix.clear fresh := by
  rw [Matrix.new, if_pos rfl] at hfresh
  obtain rfl := Except.ok.inj hfresh
  exact ⟨matrix.cells.slots.size, congrArg (fun cells ↦ { matrix.clear with cells := cells })
    h.counted.releaseFrom_zero, .inr (Nat.le_refl 0)⟩

end SetCover.Matrix

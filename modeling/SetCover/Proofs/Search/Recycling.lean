import SetCover.Proofs.Search.Inheritance
import SetCover.Search.Branching

/-!
# Searches on tables with spare slots

On tables that differ in spare slots only, the rules, the lower bound and whole searches give the same
answers, count and report the same and leave such tables behind.
-/

namespace SetCover.Workbench

open SetCover.Matrix SetCover.Calls

variable {κ α β : Type} {first second : Workbench κ} {body : Work κ α}

/-- The tables are the same but for spare slots in the first one, and what was counted and reported is
the same. -/
structure Akin (first second : Workbench κ) : Prop where
  matrix : first.matrix.Akin second.matrix
  stats : first.stats = second.stats
  journal : first.journal = second.journal

theorem respects_table {rest : Matrix κ → Work κ β}
    (hpadded : ∀ matrix spare, rest (matrix.padded spare) = rest matrix)
    (hrest : ∀ matrix, Respects Akin (rest matrix)) : Respects Akin (table >>= rest) :=
  .get_bind (fun _ _ h ↦ h.matrix.view_eq hpadded) fun bench : Workbench κ ↦ hrest bench.matrix

theorem respects_edit {change : Edit κ α} (h : Respects Matrix.Akin change) :
    Respects Akin (edit change) :=
  .onPart Workbench.matrix (fun bench matrix ↦ { bench with matrix := matrix })
    (fun hcall ↦ by rw [edit, hcall]) (fun hcall ↦ by rw [edit, hcall]) Akin.matrix
    (fun hakin hnext ↦ ⟨hnext, hakin.stats, hakin.journal⟩) h

theorem respects_count (change : Stats → Stats) : Respects Akin (count change : Work κ Unit) :=
  .modifying fun _ _ h ↦ ⟨h.matrix, congrArg change h.stats, h.journal⟩

theorem respects_report {events : Matrix κ → List (Event κ)}
    (hpadded : ∀ matrix spare, events (matrix.padded spare) = events matrix) :
    Respects Akin (report events) := by
  refine .modifying fun first second h ↦ ?_
  rw [h.journal, h.matrix.view_eq hpadded]
  split
  · exact ⟨h.matrix, h.stats, rfl⟩
  · exact h

theorem respects_inherited : Inherited fun {_} (work : Work κ _) ↦ Respects Akin work where
  pure := .pure
  throw := .throw
  bind := .bind
  table := respects_table
  edit _ := respects_edit
  report _ := respects_report
  count change _ := respects_count change

theorem respects_note (event : Event κ) : Respects Akin (note event) :=
  respects_inherited.note event

theorem respects_backup : Respects Akin (backup : Work κ Unit) :=
  respects_table (fun _ _ ↦ rfl) fun _ ↦
    .bind (respects_note _) fun _ ↦ respects_edit Matrix.respects_backup

theorem respects_restore : Respects Akin (restore : Work κ Unit) :=
  .bind (respects_report fun _ _ ↦ rfl) fun _ ↦ respects_edit Matrix.respects_restore

theorem respects_undoing (h : Respects Akin body) : Respects Akin (undoing body) := by
  refine .bind respects_backup fun _ first second hakin ↦ ?_
  rcases (h _ _ hakin).cases with
    ⟨_, _, _, hfirst, hsecond, hnext⟩ | ⟨_, _, _, hfirst, hsecond, hnext⟩
  · rcases (respects_restore _ _ hnext).cases with
      ⟨_, _, _, hleft, hright, hlast⟩ | ⟨_, _, _, hleft, hright, hlast⟩
    · exact .of_ok (by simp only [hfirst]; rw [hleft]) (by simp only [hsecond]; rw [hright]) hlast
    · exact .of_error (by simp only [hfirst]; rw [hleft]) (by simp only [hsecond]; rw [hright]) hlast
  · rcases (respects_restore _ _ hnext).cases with
      ⟨_, _, _, hleft, hright, hlast⟩ | ⟨_, _, _, hleft, hright, hlast⟩
    all_goals
      exact .of_error (by simp only [hfirst]; rw [hleft]) (by simp only [hsecond]; rw [hright]) hlast

theorem respects_onCopy (h : Respects Akin body) : Respects Akin (onCopy body) := by
  refine .onPart id (fun bench next ↦ { next with matrix := bench.matrix }) (fun hcall ↦ ?_)
    (fun hcall ↦ ?_) id (fun hakin hnext ↦ ⟨hakin.matrix, hnext.stats, hnext.journal⟩) h
  all_goals
    rw [id_eq] at hcall
    rw [onCopy, hcall]

/-! ## Branch and bound -/

variable [Cost κ] {base cost : κ} {best : Option κ} {selected : List Nat} {depth : Nat}

theorem respects_closeLeaf (cost : κ) (selected : List Nat) (best : Option κ) (depth : Nat) :
    Respects Akin (closeLeaf cost selected best depth) :=
  .bind (respects_count _) fun _ ↦
    iteInduction (fun _ ↦ .bind (respects_note _) fun _ ↦ .pure _) fun _ ↦ .pure none

theorem respects_isCutOff (config : Config) (cost : κ) (best : Option κ) (depth : Nat) :
    Respects Akin (isCutOff config cost best depth) :=
  iteInduction (fun _ ↦ .bind respects_inherited.lowerBound fun _ ↦
    iteInduction (fun _ ↦ .pure false) fun _ ↦
      .bind (respects_note _) fun _ ↦ .bind (respects_count _) fun _ ↦ .pure true) fun _ ↦ .pure false

theorem respects_branch {explore : κ → Option κ → Work κ (Option (Cover κ))}
    (h : ∀ cost best, Respects Akin (explore cost best)) (cost : κ) (selected : List Nat)
    (best : Option κ) (depth : Nat) : Respects Akin (branch explore cost selected best depth) := by
  refine respects_table (fun _ _ ↦ by rw [rowsOf_padded]; rfl) fun matrix ↦ ?_
  split
  · exact .throw _
  · exact .bind (respects_note _) fun _ ↦
      .bind (respects_undoing (.bind (respects_inherited.select _) fun _ ↦ h _ _)) fun _ ↦
        iteInduction (fun _ ↦ .pure _) fun _ ↦
          .bind (respects_undoing (.bind (respects_inherited.delete _) fun _ ↦ h _ _)) fun _ ↦ .pure _

theorem respects_searchWithin (config : Config) (levels : Nat) (base : κ) (best : Option κ)
    (depth : Nat) : Respects Akin (searchWithin config levels base best depth) := by
  induction levels generalizing base best depth with
  | zero => exact .throw _
  | succ levels ih =>
    exact .bind (respects_count _) fun _ ↦ respects_undoing <|
      .bind (respects_inherited.reduce config) fun _ ↦ respects_table (fun _ _ ↦ rfl) fun _ ↦
        iteInduction (fun _ ↦ respects_closeLeaf _ _ _ _) fun _ ↦
          .bind (respects_isCutOff _ _ _ _) fun _ ↦ iteInduction (fun _ ↦ .pure none) fun _ ↦
            respects_branch (fun _ _ ↦ ih _ _ _) _ _ _ _

theorem respects_solve (config : Config) : Respects Akin (solve config : Work κ (Answer κ)) := by
  refine .bind (respects_count _) fun _ ↦ respects_table (fun _ _ ↦ rfl) fun matrix ↦ ?_
  have hsearch : Respects Akin (search config (Cost.zero : κ) none 0) :=
    respects_table (fun _ _ ↦ rfl) fun _ ↦ respects_searchWithin _ _ _ _ _
  split
  · exact .bind (respects_note _) fun _ ↦ .pure _
  · refine .bind (respects_onCopy hsearch) fun found ↦ ?_
    cases found with
    | none => exact .throw _
    | some cover =>
      exact .get_bind (fun _ _ h ↦ by rw [h.stats]) fun _ ↦ .bind (respects_note _) fun _ ↦ .pure _

end SetCover.Workbench

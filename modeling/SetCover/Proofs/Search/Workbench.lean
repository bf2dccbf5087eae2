import SetCover.Proofs.Matrix.Remaining
import SetCover.Search.Workbench

/-!
# Calls on a workbench

What a call on a workbench does to the table does not depend on the statistics and on the journal, so
it is stated for the table alone.  `undoing` hands the table back as it got it, whatever happens in
between, provided that nothing but deletions does.
-/

namespace SetCover.Workbench

open SetCover.Matrix

variable {κ α β γ : Type} {matrix : Matrix κ} {line : Line} {column : Nat}

/-- A call on a table that is carried out ends as the first predicate says, and one that is refused
as the second says, whatever was counted and reported before. -/
def Ends (work : Work κ α) (matrix : Matrix κ) (done : α → Matrix κ → Prop)
    (refused : Fault → Matrix κ → Prop) : Prop :=
  ∀ stats journal, Calls.Ends work ⟨matrix, stats, journal⟩ (fun result next ↦ done result next.matrix)
    (fun fault next ↦ refused fault next.matrix)

namespace Ends

variable {work : Work κ α} {rest : α → Work κ β} {done weaker : α → Matrix κ → Prop}
  {after : β → Matrix κ → Prop} {refused milder : Fault → Matrix κ → Prop} {result : α}
  {fault : Fault}

theorem imp (h : Ends work matrix done refused)
    (hdone : ∀ result next, done result next → weaker result next)
    (hrefused : ∀ fault next, refused fault next → milder fault next) :
    Ends work matrix weaker milder :=
  fun stats journal ↦ (h stats journal).imp (fun result next ↦ hdone result next.matrix)
    fun fault next ↦ hrefused fault next.matrix

theorem mono (h : Ends work matrix done refused)
    (hdone : ∀ result next, done result next → weaker result next) :
    Ends work matrix weaker refused :=
  h.imp hdone fun _ _ hrefused ↦ hrefused

theorem and (h : Ends work matrix done refused) (hother : Ends work matrix weaker milder) :
    Ends work matrix (fun result next ↦ done result next ∧ weaker result next)
      (fun fault next ↦ refused fault next ∧ milder fault next) :=
  fun stats journal ↦ (h stats journal).and (hother stats journal)

theorem pure (hdone : done result matrix) : Ends (Pure.pure result : Work κ α) matrix done refused :=
  fun _ _ ↦ Calls.Ends.pure hdone

theorem throw (hrefused : refused fault matrix) :
    Ends (MonadExcept.throw fault : Work κ α) matrix done refused :=
  fun _ _ ↦ Calls.Ends.throw hrefused

theorem bind (h : Ends work matrix (fun result next ↦ Ends (rest result) next after refused) refused) :
    Ends (work >>= rest) matrix after refused :=
  fun stats journal ↦ (h stats journal).andThen
    fun _ next hnext ↦ hnext next.stats next.journal

theorem andThen (h : Ends work matrix done refused)
    (hrest : ∀ result next, done result next → Ends (rest result) next after refused) :
    Ends (work >>= rest) matrix after refused :=
  bind (h.mono hrest)

theorem table {rest : Matrix κ → Work κ β} (h : Ends (rest matrix) matrix after refused) :
    Ends (Workbench.table >>= rest) matrix after refused :=
  fun stats journal ↦ h stats journal

theorem get {rest : Workbench κ → Work κ β}
    (h : ∀ stats journal, Ends (rest ⟨matrix, stats, journal⟩) matrix after refused) :
    Ends (MonadState.get >>= rest) matrix after refused :=
  fun stats journal ↦ h stats journal stats journal

theorem count {change : Stats → Stats} {done : Unit → Matrix κ → Prop} (hdone : done () matrix) :
    Ends (Workbench.count change) matrix done refused :=
  fun _ _ ↦ hdone

theorem report {events : Matrix κ → List (Event κ)} {done : Unit → Matrix κ → Prop}
    (hdone : done () matrix) : Ends (Workbench.report events) matrix done refused := by
  intro stats journal
  change done () (if journal.recording = true then _ else _ : Workbench κ).matrix
  split <;> exact hdone

theorem note {event : Event κ} {done : Unit → Matrix κ → Prop} (hdone : done () matrix) :
    Ends (Workbench.note event) matrix done refused :=
  report hdone

theorem discard {done : Unit → Matrix κ → Prop}
    (h : Ends work matrix (fun _ next ↦ done () next) refused) :
    Ends (Functor.discard work) matrix done refused := by
  intro stats journal
  have hend := h stats journal
  rw [Calls.Ends] at hend
  split at hend
  · rename_i result next hwork
    have hdiscard : Functor.discard work ⟨matrix, stats, journal⟩ = .ok () next := by
      simp only [Functor.discard, Functor.mapConst, EStateM.map, Function.comp, hwork]
    exact .of_ok hdiscard hend
  · rename_i fault next hwork
    have hdiscard : Functor.discard work ⟨matrix, stats, journal⟩ = .error fault next := by
      simp only [Functor.discard, Functor.mapConst, EStateM.map, Function.comp, hwork]
    exact .of_error hdiscard hend

/-- A call of the table does on the workbench what it does on the table. -/
theorem edit {change : Edit κ α} (h : Calls.Ends change matrix done refused) :
    Ends (Workbench.edit change) matrix done refused := by
  intro stats journal
  rw [Calls.Ends] at h
  split at h
  · rename_i result next hchange
    have hedit : Workbench.edit change ⟨matrix, stats, journal⟩ = .ok result ⟨next, stats, journal⟩ := by
      simp only [Workbench.edit, hchange]
    exact .of_ok hedit h
  · rename_i fault next hchange
    have hedit : Workbench.edit change ⟨matrix, stats, journal⟩ =
        .error fault ⟨next, stats, journal⟩ := by
      simp only [Workbench.edit, hchange]
    exact .of_error hedit h

theorem foldlM {step : β → γ → Work κ β} (invariant : List γ → β → Matrix κ → Prop)
    (hstep : ∀ first others value matrix, invariant (first :: others) value matrix →
      Ends (step value first) matrix (invariant others) refused)
    {elements : List γ} {value : β} (h : invariant elements value matrix) :
    Ends (elements.foldlM step value) matrix (invariant []) refused :=
  fun _ _ ↦ Calls.Ends.foldlM (fun left value (bench : Workbench κ) ↦ invariant left value bench.matrix)
    (fun first others value bench hbench ↦
      hstep first others value bench.matrix hbench bench.stats bench.journal) h

theorem forM {body : γ → Work κ Unit} (invariant : List γ → Matrix κ → Prop)
    (hbody : ∀ first others matrix, invariant (first :: others) matrix →
      Ends (body first) matrix (fun _ ↦ invariant others) refused)
    {elements : List γ} (h : invariant elements matrix) :
    Ends (elements.forM body) matrix (fun _ ↦ invariant []) refused :=
  fun _ _ ↦ Calls.Ends.forM (fun left (bench : Workbench κ) ↦ invariant left bench.matrix)
    (fun first others bench hbench ↦
      hbody first others bench.matrix hbench bench.stats bench.journal) h

end Ends

theorem ends_true (work : Work κ α) (matrix : Matrix κ) :
    Ends work matrix (fun _ _ ↦ True) fun _ _ ↦ True := by
  intro stats journal
  rw [Calls.Ends]
  split <;> trivial

variable {done : Unit → Matrix κ → Prop} {refused : Fault → Matrix κ → Prop}

theorem ends_reportingDeletions {announcement : List (Event κ)} {change : Edit κ Unit}
    (h : Calls.Ends change matrix done refused) :
    Ends (reportingDeletions announcement change) matrix done refused :=
  Ends.table ((Ends.edit h).andThen fun _ _ hdone ↦ Ends.report hdone)

theorem ends_delete (h : matrix.Linked) (hactive : matrix.isActive line = true)
    (hdone : done () (matrix.deleted line)) : Ends (delete line) matrix done refused :=
  ends_reportingDeletions (.of_ok (delete_of_isActive h hactive) hdone)

theorem ends_select (h : matrix.Linked) (hsettled : matrix.Settled)
    (hactive : matrix.isActive (.column column) = true)
    (hdone : done () (matrix.selected column)) : Ends (select column) matrix done refused :=
  ends_reportingDeletions (.of_ok (select_of_isActive h hsettled hactive) hdone)

theorem ends_backup (hdone : done () matrix.backup) : Ends backup matrix done refused :=
  Ends.table (Ends.bind (Ends.note (Ends.edit (.of_ok rfl hdone))))

theorem restore_ok {start : Matrix κ} (h : Removes start.backup matrix) (hstart : start.Linked)
    (stats : Stats) (journal : Journal κ) :
    ∃ later, restore ⟨matrix, stats, journal⟩ = .ok () ⟨start, stats, later⟩ := by
  have hedit : ∀ later, edit Matrix.restore ⟨matrix, stats, later⟩ = .ok () ⟨start, stats, later⟩ := by
    intro later
    simp only [edit, h.restore_backup hstart.backup]
  rcases journal with ⟨_ | _, events⟩
  · exact ⟨_, hedit _⟩
  · exact ⟨_, hedit _⟩

/-- What only removes lines leaves no trace on the table between a marker and its restoration. -/
theorem ends_undoing {body : Work κ α} {done : α → Matrix κ → Prop} (h : matrix.Linked)
    (hbody : Ends body matrix.backup
      (fun result next ↦ Removes matrix.backup next ∧ done result matrix)
      (fun fault next ↦ Removes matrix.backup next ∧ refused fault matrix)) :
    Ends (undoing body) matrix done refused := by
  refine Ends.bind (ends_backup fun stats journal ↦ ?_)
  have hend := hbody stats journal
  rw [Calls.Ends] at hend
  split at hend
  · rename_i result next hrun
    obtain ⟨later, hrestore⟩ := restore_ok hend.1 h next.stats next.journal
    simp only [Calls.Ends, hrun, hrestore]
    exact hend.2
  · rename_i fault next hrun
    obtain ⟨later, hrestore⟩ := restore_ok hend.1 h next.stats next.journal
    simp only [Calls.Ends, hrun, hrestore]
    exact hend.2

/-- Whatever is done to a copy of a table, the table stays. -/
theorem ends_onCopy {body : Work κ α} {done : α → Matrix κ → Prop}
    (hbody : Ends body matrix (fun result _ ↦ done result matrix)
      (fun fault _ ↦ refused fault matrix)) : Ends (onCopy body) matrix done refused := by
  intro stats journal
  have hend := hbody stats journal
  rw [Calls.Ends] at hend ⊢
  split at hend
  · rename_i result next hrun
    simpa only [onCopy, hrun] using hend
  · rename_i fault next hrun
    simpa only [onCopy, hrun] using hend

/-! ## Calls that keep the table -/

/-- The call hands the table back as it got it; its answer is as the first predicate says, and it is
refused only as the second says. -/
def Yields (work : Work κ α) (matrix : Matrix κ) (answers : α → Prop) (causes : Fault → Prop) : Prop :=
  Ends work matrix (fun result next ↦ next = matrix ∧ answers result)
    (fun fault next ↦ next = matrix ∧ causes fault)

namespace Yields

variable {work : Work κ α} {rest : α → Work κ β} {answers weaker : α → Prop} {after : β → Prop}
  {causes : Fault → Prop} {result : α} {fault : Fault}

theorem pure (h : answers result) : Yields (Pure.pure result : Work κ α) matrix answers causes :=
  Ends.pure ⟨rfl, h⟩

theorem throw (h : causes fault) : Yields (MonadExcept.throw fault : Work κ α) matrix answers causes :=
  Ends.throw ⟨rfl, h⟩

theorem of_answer (h : Yields work matrix answers causes) {stats : Stats} {journal : Journal κ}
    (hanswer : Calls.answer work ⟨matrix, stats, journal⟩ = .ok result) : answers result := by
  obtain ⟨_, -, hresult⟩ := (h stats journal).of_answer hanswer
  exact hresult

theorem imp (h : Yields work matrix answers causes)
    (himp : ∀ result, answers result → weaker result) : Yields work matrix weaker causes :=
  Ends.mono h fun result _ hresult ↦ hresult.imp_right (himp result)

theorem bind (h : Yields work matrix answers causes)
    (hrest : ∀ result, answers result → Yields (rest result) matrix after causes) :
    Yields (work >>= rest) matrix after causes := by
  refine Ends.andThen h fun result next hresult ↦ ?_
  obtain ⟨rfl, hanswer⟩ := hresult
  exact hrest result hanswer

theorem count {change : Stats → Stats} {rest : Unit → Work κ β}
    (h : Yields (rest ()) matrix after causes) :
    Yields (Workbench.count change >>= rest) matrix after causes :=
  Ends.bind (Ends.count h)

theorem report {events : Matrix κ → List (Event κ)} {rest : Unit → Work κ β}
    (h : Yields (rest ()) matrix after causes) :
    Yields (Workbench.report events >>= rest) matrix after causes :=
  Ends.bind (Ends.report h)

theorem note {event : Event κ} {rest : Unit → Work κ β} (h : Yields (rest ()) matrix after causes) :
    Yields (Workbench.note event >>= rest) matrix after causes :=
  Yields.report h

theorem table {rest : Matrix κ → Work κ β} (h : Yields (rest matrix) matrix after causes) :
    Yields (Workbench.table >>= rest) matrix after causes :=
  Ends.table h

theorem get {rest : Workbench κ → Work κ β}
    (h : ∀ stats journal, Yields (rest ⟨matrix, stats, journal⟩) matrix after causes) :
    Yields (MonadState.get >>= rest) matrix after causes :=
  Ends.get h

/-- What only removes lines is undone. -/
theorem undoing (h : matrix.Linked) (hbody : Ends work matrix.backup
    (fun result next ↦ Removes matrix.backup next ∧ answers result)
    (fun fault next ↦ Removes matrix.backup next ∧ causes fault)) :
    Yields (Workbench.undoing work) matrix answers causes :=
  ends_undoing h (hbody.imp (fun _ _ hdone ↦ ⟨hdone.1, rfl, hdone.2⟩)
    fun _ _ hrefused ↦ ⟨hrefused.1, rfl, hrefused.2⟩)

/-- A call that keeps the table keeps what was removed from it before. -/
theorem removes {next : Matrix κ} (h : Yields work next answers causes)
    (hremoves : Removes matrix next) :
    Ends work next (fun result last ↦ Removes matrix last ∧ answers result)
      (fun fault last ↦ Removes matrix last ∧ causes fault) :=
  Ends.imp h (fun _ _ hdone ↦ ⟨hdone.1 ▸ hremoves, hdone.2⟩)
    fun _ _ hrefused ↦ ⟨hrefused.1 ▸ hremoves, hrefused.2⟩

theorem onCopy (h : Yields work matrix answers causes) :
    Yields (Workbench.onCopy work) matrix answers causes :=
  ends_onCopy (Ends.imp h (fun _ _ hdone ↦ ⟨rfl, hdone.2⟩) fun _ _ hrefused ↦ ⟨rfl, hrefused.2⟩)

end Yields

/-- The call is carried out, hands the table back as it got it and answers as the predicate says. -/
def Completes (work : Work κ α) (matrix : Matrix κ) (answers : α → Prop) : Prop :=
  Yields work matrix answers fun _ ↦ False

theorem Completes.ends {work : Work κ α} {answers : α → Prop}
    {refused : Fault → Matrix κ → Prop} (h : Completes work matrix answers) :
    Ends work matrix (fun result next ↦ next = matrix ∧ answers result) refused := by
  unfold Completes Yields at h
  exact h.imp (fun _ _ hdone ↦ hdone) fun _ _ hrefused ↦ hrefused.2.elim

theorem Completes.yields {work : Work κ α} {answers : α → Prop} {causes : Fault → Prop}
    (h : Completes work matrix answers) : Yields work matrix answers causes :=
  h.ends

theorem Completes.and {work : Work κ α} {answers others : α → Prop} {causes : Fault → Prop}
    (h : Completes work matrix answers) (hothers : Yields work matrix others causes) :
    Completes work matrix fun result ↦ answers result ∧ others result := by
  unfold Completes Yields at *
  exact (h.and hothers).imp (fun _ _ hdone ↦ ⟨hdone.1.1, hdone.1.2, hdone.2.2⟩)
    fun _ _ hrefused ↦ hrefused.1

theorem Completes.exists_answer {work : Work κ α} {answers : α → Prop}
    (h : Completes work matrix answers) (stats : Stats) (journal : Journal κ) :
    ∃ result, Calls.answer work ⟨matrix, stats, journal⟩ = .ok result ∧ answers result := by
  obtain ⟨result, _, hresult, -, hanswer⟩ :=
    (@Completes.ends _ _ _ _ _ (fun _ _ ↦ False) h stats journal).exists_answer
  exact ⟨result, hresult, hanswer⟩

/-- What is known of the answers of a call is known of its only answer. -/
theorem Completes.answers_of_yields {work : Work κ α} {result : α} {answers : α → Prop}
    {causes : Fault → Prop} (h : Completes work matrix (· = result))
    (hyields : Yields work matrix answers causes) : answers result := by
  obtain ⟨other, -, rfl, hother⟩ := (h.and hyields).exists_answer Stats.zero (Journal.empty false)
  exact hother

end SetCover.Workbench

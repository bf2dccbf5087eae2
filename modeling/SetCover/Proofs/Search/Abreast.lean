import SetCover.Proofs.Search.Workbench

/-!
# Calls on two workbenches

Two calls go abreast if they are carried out on their tables with one result and one change of the
statistics, and leave tables behind that are related again, or if both are refused.  What was counted
before and what the journals hold does not matter.  Like what is known of one call, this is read off
from the text of the two.
-/

namespace SetCover.Workbench

open SetCover.Matrix

variable {κ α β γ : Type}

/-! ## One call -/

/-- The call is carried out with the result, leads from the first table to the second, and changes the
statistics as given. -/
def Reaches (work : Work κ α) (matrix : Matrix κ) (change : Stats → Stats) (result : α)
    (next : Matrix κ) : Prop :=
  ∀ stats journal, ∃ later, work ⟨matrix, stats, journal⟩ = .ok result ⟨next, change stats, later⟩

/-- The call is refused. -/
def Refuses (work : Work κ α) (matrix : Matrix κ) : Prop :=
  ∀ stats journal, ∃ fault bench, work ⟨matrix, stats, journal⟩ = .error fault bench

section

variable {work : Work κ α} {rest : α → Work κ β} {matrix next last : Matrix κ}
  {change further : Stats → Stats} {result : α} {answer : β} {line : Line} {column : Nat}

namespace Reaches

theorem pure (result : α) : Reaches (Pure.pure result : Work κ α) matrix id result matrix :=
  fun _ journal ↦ ⟨journal, rfl⟩

theorem bind (h : Reaches work matrix change result next)
    (hrest : Reaches (rest result) next further answer last) :
    Reaches (work >>= rest) matrix (further ∘ change) answer last := by
  intro stats journal
  obtain ⟨later, hwork⟩ := h stats journal
  obtain ⟨latest, hlast⟩ := hrest (change stats) later
  exact ⟨latest, (Calls.bind_ok hwork).trans hlast⟩

/-- The second call counts nothing. -/
theorem bind_silent (h : Reaches work matrix change result next)
    (hrest : Reaches (rest result) next id answer last) :
    Reaches (work >>= rest) matrix change answer last :=
  fun stats journal ↦ bind h hrest stats journal

/-- The first call counts nothing. -/
theorem silent_bind (h : Reaches work matrix id result next)
    (hrest : Reaches (rest result) next change answer last) :
    Reaches (work >>= rest) matrix change answer last :=
  fun stats journal ↦ bind h hrest stats journal

theorem map (h : Reaches work matrix change result next) (convert : α → β) :
    Reaches (work >>= fun result ↦ Pure.pure (convert result)) matrix change (convert result) next := by
  intro stats journal
  obtain ⟨later, hwork⟩ := h stats journal
  exact ⟨later, Calls.bind_ok hwork⟩

theorem table {rest : Matrix κ → Work κ β} (h : Reaches (rest matrix) matrix change answer next) :
    Reaches (Workbench.table >>= rest) matrix change answer next :=
  fun stats journal ↦ h stats journal

theorem get {rest : Workbench κ → Work κ β}
    (h : ∀ stats journal, Reaches (rest ⟨matrix, stats, journal⟩) matrix change answer next) :
    Reaches (MonadState.get >>= rest) matrix change answer next :=
  fun stats journal ↦ h stats journal stats journal

theorem count (change : Stats → Stats) : Reaches (Workbench.count change) matrix change () matrix :=
  fun _ journal ↦ ⟨journal, rfl⟩

theorem report (events : Matrix κ → List (Event κ)) :
    Reaches (Workbench.report events) matrix id () matrix := by
  intro stats journal
  obtain ⟨recording, reported⟩ := journal
  cases recording
  · exact ⟨_, rfl⟩
  · exact ⟨_, rfl⟩

theorem edit {change : Edit κ α} (h : change matrix = .ok result next) :
    Reaches (Workbench.edit change) matrix id result next := by
  intro stats journal
  refine ⟨journal, ?_⟩
  simp only [Workbench.edit, h, id]

theorem reportingDeletions {announcement : List (Event κ)} {change : Edit κ Unit}
    (h : change matrix = .ok () next) :
    Reaches (Workbench.reportingDeletions announcement change) matrix id () next := by
  have hreported : Reaches (Workbench.edit change >>= fun _ ↦ Workbench.report fun later ↦
      announcement ++ (later.deletedSince matrix.depth).map .deleted) matrix (id ∘ id) () next :=
    bind (edit h) (report _)
  exact table hreported

theorem delete (h : matrix.Linked) (hactive : matrix.isActive line = true) :
    Reaches (Workbench.delete line) matrix id () (matrix.deleted line) :=
  reportingDeletions (delete_of_isActive h hactive)

theorem select (h : matrix.Linked) (hsettled : matrix.Settled)
    (hactive : matrix.isActive (.column column) = true) :
    Reaches (Workbench.select column) matrix id () (matrix.selected column) :=
  reportingDeletions (select_of_isActive h hsettled hactive)

theorem backup : Reaches Workbench.backup matrix id () matrix.backup := by
  have hmarked : Reaches (Workbench.note (.backedUp matrix.depth) >>= fun _ ↦
      Workbench.edit (modify Matrix.backup)) matrix (id ∘ id) () matrix.backup :=
    bind (report _) (edit rfl)
  exact table hmarked

/-- What only removes lines is undone, but not uncounted. -/
theorem undoing (h : Reaches work matrix.backup change result next) (hmatrix : matrix.Linked)
    (hremoves : Removes matrix.backup next) :
    Reaches (Workbench.undoing work) matrix change result matrix := by
  intro stats journal
  obtain ⟨marked, hbackup⟩ := @backup _ matrix stats journal
  obtain ⟨later, hwork⟩ := h stats marked
  obtain ⟨latest, hrestore⟩ := restore_ok hremoves hmatrix (change stats) later
  refine ⟨latest, (Calls.bind_ok hbackup).trans ?_⟩
  simp only [id, hwork, hrestore]

theorem onCopy (h : Reaches work matrix change result next) :
    Reaches (Workbench.onCopy work) matrix change result matrix := by
  intro stats journal
  obtain ⟨later, hwork⟩ := h stats journal
  refine ⟨later, ?_⟩
  simp only [Workbench.onCopy, hwork]

/-- What is known of the call holds of where it leads. -/
theorem of_ends (h : Reaches work matrix change result next) {done : α → Matrix κ → Prop}
    {refused : Fault → Matrix κ → Prop} (hends : Ends work matrix done refused) :
    done result next := by
  obtain ⟨later, hwork⟩ := h Stats.zero (Journal.empty false)
  have hend := hends Stats.zero (Journal.empty false)
  rw [Calls.Ends, hwork] at hend
  exact hend

end Reaches

namespace Refuses

theorem throw (fault : Fault) : Refuses (MonadExcept.throw fault : Work κ α) matrix :=
  fun _ _ ↦ ⟨_, _, rfl⟩

theorem bind (h : Refuses work matrix) : Refuses (work >>= rest) matrix := by
  intro stats journal
  obtain ⟨fault, bench, hwork⟩ := h stats journal
  exact ⟨fault, bench, Calls.bind_error hwork⟩

theorem andThen (h : Reaches work matrix change result next) (hrest : Refuses (rest result) next) :
    Refuses (work >>= rest) matrix := by
  intro stats journal
  obtain ⟨later, hwork⟩ := h stats journal
  obtain ⟨fault, bench, hfault⟩ := hrest (change stats) later
  exact ⟨fault, bench, (Calls.bind_ok hwork).trans hfault⟩

theorem undoing (h : Refuses work matrix.backup) : Refuses (Workbench.undoing work) matrix := by
  intro stats journal
  obtain ⟨marked, hbackup⟩ := @Reaches.backup _ matrix stats journal
  obtain ⟨fault, bench, hwork⟩ := h stats marked
  cases hrestore : restore bench with
  | ok result next =>
    refine ⟨fault, next, (Calls.bind_ok hbackup).trans ?_⟩
    simp only [id, hwork, hrestore]
  | error other next =>
    refine ⟨fault, next, (Calls.bind_ok hbackup).trans ?_⟩
    simp only [id, hwork, hrestore]

theorem onCopy (h : Refuses work matrix) : Refuses (Workbench.onCopy work) matrix := by
  intro stats journal
  obtain ⟨fault, bench, hwork⟩ := h stats journal
  refine ⟨fault, { bench with matrix := matrix }, ?_⟩
  simp only [Workbench.onCopy, hwork]

/-- What is never refused is not refused. -/
theorem not_ends (h : Refuses work matrix) {done : α → Matrix κ → Prop} :
    ¬Ends work matrix done fun _ _ ↦ False := by
  intro hends
  obtain ⟨fault, bench, hwork⟩ := h Stats.zero (Journal.empty false)
  exact (hends Stats.zero (Journal.empty false)).error hwork

end Refuses

end

/-! ## Two calls -/

/-- The two calls lead to one result, one change of the statistics and related tables, or both are
refused. -/
def Abreast (work other : Work κ α) (first second : Matrix κ)
    (related : α → Matrix κ → Matrix κ → Prop) : Prop :=
  (∃ change result left right, Reaches work first change result left ∧
      Reaches other second change result right ∧ related result left right) ∨
    Refuses work first ∧ Refuses other second

namespace Abreast

variable {work other : Work κ α} {rest others : α → Work κ β} {first second : Matrix κ}
  {related weaker : α → Matrix κ → Matrix κ → Prop} {after : β → Matrix κ → Matrix κ → Prop}
  {result : α}

theorem pure (h : related result first second) :
    Abreast (Pure.pure result : Work κ α) (Pure.pure result) first second related :=
  .inl ⟨id, result, first, second, .pure result, .pure result, h⟩

theorem throw (fault cause : Fault) : Abreast (MonadExcept.throw fault : Work κ α)
    (MonadExcept.throw cause) first second related :=
  .inr ⟨.throw fault, .throw cause⟩

theorem imp (h : Abreast work other first second related)
    (himp : ∀ result left right, related result left right → weaker result left right) :
    Abreast work other first second weaker := by
  obtain ⟨change, result, left, right, hwork, hother, hrelated⟩ | hrefused := h
  · exact .inl ⟨change, result, left, right, hwork, hother, himp _ _ _ hrelated⟩
  · exact .inr hrefused

theorem bind (h : Abreast work other first second related)
    (hrest : ∀ result left right, related result left right →
      Abreast (rest result) (others result) left right after) :
    Abreast (work >>= rest) (other >>= others) first second after := by
  obtain ⟨change, result, left, right, hwork, hother, hrelated⟩ | hrefused := h
  · obtain ⟨further, answer, last, latest, hlast, hlatest, hafter⟩ | hrefused :=
      hrest result left right hrelated
    · exact .inl ⟨further ∘ change, answer, last, latest, hwork.bind hlast, hother.bind hlatest, hafter⟩
    · exact .inr ⟨.andThen hwork hrefused.1, .andThen hother hrefused.2⟩
  · exact .inr ⟨hrefused.1.bind, hrefused.2.bind⟩

theorem table {rest others : Matrix κ → Work κ β}
    (h : Abreast (rest first) (others second) first second after) :
    Abreast (Workbench.table >>= rest) (Workbench.table >>= others) first second after := by
  obtain ⟨change, answer, left, right, hrest, hothers, hafter⟩ | hrefused := h
  · exact .inl ⟨change, answer, left, right, .table hrest, .table hothers, hafter⟩
  · exact .inr hrefused

theorem countOnly {change : Stats → Stats} {related : Unit → Matrix κ → Matrix κ → Prop}
    (h : related () first second) :
    Abreast (Workbench.count change) (Workbench.count change) first second related :=
  .inl ⟨change, (), first, second, .count change, .count change, h⟩

theorem count {change : Stats → Stats} {rest others : Unit → Work κ β}
    (h : Abreast (rest ()) (others ()) first second after) :
    Abreast (Workbench.count change >>= rest) (Workbench.count change >>= others) first second
      after :=
  bind (countOnly ⟨rfl, rfl⟩)
    fun _ left right (hsame : left = first ∧ right = second) ↦ by rwa [hsame.1, hsame.2]

theorem report {events reports : Matrix κ → List (Event κ)} {rest others : Unit → Work κ β}
    (h : Abreast (rest ()) (others ()) first second after) :
    Abreast (Workbench.report events >>= rest) (Workbench.report reports >>= others) first second
      after :=
  bind (.inl ⟨id, (), first, second, .report events, .report reports, rfl, rfl⟩)
    fun _ left right (hsame : left = first ∧ right = second) ↦ by rwa [hsame.1, hsame.2]

theorem note {event notice : Event κ} {rest others : Unit → Work κ β}
    (h : Abreast (rest ()) (others ()) first second after) :
    Abreast (Workbench.note event >>= rest) (Workbench.note notice >>= others) first second after :=
  report h

theorem ite {condition : Prop} [Decidable condition] {third fourth : Work κ α}
    (h : condition → Abreast work other first second related)
    (hnot : ¬condition → Abreast third fourth first second related) :
    Abreast (if condition then work else third) (if condition then other else fourth) first second
      related := by
  by_cases hcondition : condition
  · rw [if_pos hcondition, if_pos hcondition]
    exact h hcondition
  · rw [if_neg hcondition, if_neg hcondition]
    exact hnot hcondition

theorem foldlM {step turn : β → γ → Work κ β}
    (invariant : List γ → Matrix κ → Matrix κ → Prop)
    (hstep : ∀ element rest value left right, invariant (element :: rest) left right →
      Abreast (step value element) (turn value element) left right fun _ ↦ invariant rest)
    {elements : List γ} {value : β} (h : invariant elements first second) :
    Abreast (elements.foldlM step value) (elements.foldlM turn value) first second
      fun _ ↦ invariant [] := by
  induction elements generalizing value first second with
  | nil => exact pure h
  | cons element rest ih =>
    rw [List.foldlM_cons, List.foldlM_cons]
    exact (hstep element rest value first second h).bind fun _ _ _ hnext ↦ ih hnext

theorem forM {body turn : γ → Work κ Unit} (invariant : List γ → Matrix κ → Matrix κ → Prop)
    (hbody : ∀ element rest left right, invariant (element :: rest) left right →
      Abreast (body element) (turn element) left right fun _ ↦ invariant rest)
    {elements : List γ} (h : invariant elements first second) :
    Abreast (elements.forM body) (elements.forM turn) first second fun _ ↦ invariant [] := by
  induction elements generalizing first second with
  | nil => exact pure h
  | cons element rest ih => exact (hbody element rest first second h).bind fun _ _ _ hnext ↦ ih hnext

/-- What is known of each of the two calls holds of where it leads. -/
theorem and {done finished : α → Matrix κ → Prop} {refused denied : Fault → Matrix κ → Prop}
    (h : Abreast work other first second related) (hwork : Ends work first done refused)
    (hother : Ends other second finished denied) :
    Abreast work other first second fun result left right ↦
      related result left right ∧ done result left ∧ finished result right := by
  obtain ⟨change, result, left, right, hreaches, hcomes, hrelated⟩ | hrefused := h
  · exact .inl ⟨change, result, left, right, hreaches, hcomes, hrelated, hreaches.of_ends hwork,
      hcomes.of_ends hother⟩
  · exact .inr hrefused

/-- Calls that are never refused are carried out. -/
theorem exists_reaches {done : α → Matrix κ → Prop} (h : Abreast work other first second related)
    (hwork : Ends work first done fun _ _ ↦ False) :
    ∃ change result left right, Reaches work first change result left ∧
      Reaches other second change result right ∧ related result left right :=
  h.resolve_right fun hrefused ↦ hrefused.1.not_ends hwork

end Abreast

/-- Both calls hand their tables back as they got them. -/
def Stay (work other : Work κ α) (first second : Matrix κ) : Prop :=
  Abreast work other first second fun _ left right ↦ left = first ∧ right = second

namespace Abreast

variable {body other : Work κ α} {first second : Matrix κ}

theorem undoing (hlinked : first.Linked ∧ second.Linked)
    (h : Abreast body other first.backup second.backup fun _ left right ↦
      Removes first.backup left ∧ Removes second.backup right) :
    Stay (Workbench.undoing body) (Workbench.undoing other) first second := by
  obtain ⟨change, result, left, right, hbody, hother, hremoves⟩ | hrefused := h
  · exact .inl ⟨change, result, first, second, hbody.undoing hlinked.1 hremoves.1,
      hother.undoing hlinked.2 hremoves.2, rfl, rfl⟩
  · exact .inr ⟨hrefused.1.undoing, hrefused.2.undoing⟩

theorem onCopy (h : Stay body other first second) :
    Stay (Workbench.onCopy body) (Workbench.onCopy other) first second := by
  obtain ⟨change, result, left, right, hbody, hother, -⟩ | hrefused := h
  · exact .inl ⟨change, result, first, second, hbody.onCopy, hother.onCopy, rfl, rfl⟩
  · exact .inr ⟨hrefused.1.onCopy, hrefused.2.onCopy⟩

end Abreast

end SetCover.Workbench

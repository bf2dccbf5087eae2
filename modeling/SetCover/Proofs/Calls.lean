/-!
# Calls in a row

A call takes a state to a result or a fault, with a state in either case.  In a row of calls the next
one starts from the state and the result of the one before, and a fault ends the row.

`Ends` says what is known of both outcomes.  Its lemmas follow the text of a call, so what a call made
of others does is read off from what these do.
-/

namespace SetCover.Calls

variable {ε σ α β γ : Type} {call : EStateM ε σ α} {rest : α → EStateM ε σ β} {state next : σ}
  {result : α} {fault : ε}

/-! ## Single steps -/

@[simp]
theorem get_apply (state : σ) : (get : EStateM ε σ σ) state = .ok state state := rfl

@[simp]
theorem modify_apply (change : σ → σ) (state : σ) :
    (modify change : EStateM ε σ PUnit) state = .ok ⟨⟩ (change state) := rfl

@[simp]
theorem throw_apply (fault : ε) (state : σ) :
    (throw fault : EStateM ε σ α) state = .error fault state := rfl

@[simp]
theorem pure_apply (result : α) (state : σ) :
    (pure result : EStateM ε σ α) state = .ok result state := rfl

@[simp]
theorem bind_apply (call : EStateM ε σ α) (rest : α → EStateM ε σ β) (state : σ) :
    (call >>= rest) state =
      match call state with
      | .ok result next => rest result next
      | .error fault next => .error fault next := rfl

@[simp]
theorem map_apply (change : α → β) (call : EStateM ε σ α) (state : σ) :
    (change <$> call) state =
      match call state with
      | .ok result next => .ok (change result) next
      | .error fault next => .error fault next := rfl

theorem bind_ok (h : call state = .ok result next) : (call >>= rest) state = rest result next := by
  rw [bind_apply, h]

theorem bind_error (h : call state = .error fault next) :
    (call >>= rest) state = .error fault next := by
  rw [bind_apply, h]

/-- A call has one outcome. -/
theorem next_eq {other : α} {last : σ} (h : call state = .ok result next)
    (hother : call state = .ok other last) : next = last :=
  (EStateM.Result.ok.inj (h.symm.trans hother)).2

theorem forM_cons_ok {body : γ → EStateM ε σ Unit} {first : γ} {others : List γ}
    (h : body first state = .ok () next) :
    (first :: others).forM body state = others.forM body next :=
  bind_ok h

/-! ## Outcomes -/

/-- A call that is carried out ends as the first predicate says, and one that is refused as the
second says. -/
def Ends (call : EStateM ε σ α) (state : σ) (done : α → σ → Prop) (refused : ε → σ → Prop) : Prop :=
  match call state with
  | .ok result next => done result next
  | .error fault next => refused fault next

namespace Ends

variable {done weaker : α → σ → Prop} {refused milder : ε → σ → Prop} {after : β → σ → Prop}

theorem of_ok (h : call state = .ok result next) (hdone : done result next) :
    Ends call state done refused := by
  rw [Ends, h]
  exact hdone

theorem of_error (h : call state = .error fault next) (hrefused : refused fault next) :
    Ends call state done refused := by
  rw [Ends, h]
  exact hrefused

theorem error (h : Ends call state done refused) (hcall : call state = .error fault next) :
    refused fault next := by
  rw [Ends, hcall] at h
  exact h

theorem imp (h : Ends call state done refused)
    (hdone : ∀ result next, done result next → weaker result next)
    (hrefused : ∀ fault next, refused fault next → milder fault next) :
    Ends call state weaker milder := by
  rw [Ends] at h ⊢
  split at h
  · exact hdone _ _ h
  · exact hrefused _ _ h

theorem mono (h : Ends call state done refused)
    (hdone : ∀ result next, done result next → weaker result next) : Ends call state weaker refused :=
  h.imp hdone fun _ _ hrefused ↦ hrefused

theorem and (h : Ends call state done refused) (hother : Ends call state weaker milder) :
    Ends call state (fun result next ↦ done result next ∧ weaker result next)
      (fun fault next ↦ refused fault next ∧ milder fault next) := by
  rw [Ends] at h hother ⊢
  cases hcall : call state <;> rw [hcall] at h hother <;> exact ⟨h, hother⟩

theorem pure (hdone : done result state) :
    Ends (Pure.pure result : EStateM ε σ α) state done refused :=
  hdone

theorem throw (hrefused : refused fault state) :
    Ends (MonadExcept.throw fault : EStateM ε σ α) state done refused :=
  hrefused

theorem bind (h : Ends call state (fun result next ↦ Ends (rest result) next after refused) refused) :
    Ends (call >>= rest) state after refused := by
  rw [Ends] at h
  split at h
  · rename_i result next hcall
    rw [Ends, bind_ok hcall]
    exact h
  · rename_i fault next hcall
    exact of_error (bind_error hcall) h

/-- After a call that ends as known, the row goes on from there. -/
theorem andThen (h : Ends call state done refused)
    (hrest : ∀ result next, done result next → Ends (rest result) next after refused) :
    Ends (call >>= rest) state after refused :=
  bind (h.mono hrest)

/-- What holds before every round of a loop and of the elements that are left holds after it. -/
theorem foldlM {step : β → γ → EStateM ε σ β} (invariant : List γ → β → σ → Prop)
    (hstep : ∀ first others value state, invariant (first :: others) value state →
      Ends (step value first) state (invariant others) refused)
    {elements : List γ} {value : β} (h : invariant elements value state) :
    Ends (elements.foldlM step value) state (invariant []) refused := by
  induction elements generalizing value state with
  | nil => exact pure h
  | cons first others ih =>
    rw [List.foldlM_cons]
    exact (hstep first others value state h).andThen fun _ _ hnext ↦ ih hnext

theorem forM {body : γ → EStateM ε σ Unit} (invariant : List γ → σ → Prop)
    (hbody : ∀ first others state, invariant (first :: others) state →
      Ends (body first) state (fun _ ↦ invariant others) refused)
    {elements : List γ} (h : invariant elements state) :
    Ends (elements.forM body) state (fun _ ↦ invariant []) refused := by
  induction elements generalizing state with
  | nil => exact pure h
  | cons first others ih =>
    exact (hbody first others state h).andThen fun _ _ hnext ↦ ih hnext

end Ends

/-! ## Two calls side by side -/

/-- The state that a call leaves behind. -/
def stateAfter (call : EStateM ε σ α) (state : σ) : σ :=
  match call state with
  | .ok _ next => next
  | .error _ next => next

theorem stateAfter_map (change : α → β) (call : EStateM ε σ α) (state : σ) :
    stateAfter (change <$> call) state = stateAfter call state := by
  simp only [stateAfter, Functor.map, EStateM.map]
  cases call state <;> rfl

theorem ends_stateAfter (call : EStateM ε σ α) (state : σ) :
    Ends call state (fun _ next ↦ next = stateAfter call state)
      (fun _ next ↦ next = stateAfter call state) := by
  rw [Ends, stateAfter]
  cases call state <;> rfl

/-- The result of a call or its fault. -/
def answer (call : EStateM ε σ α) (state : σ) : Except ε α :=
  match call state with
  | .ok result _ => .ok result
  | .error fault _ => .error fault

theorem answer_of_ok (h : call state = .ok result next) : answer call state = .ok result := by
  rw [answer, h]

theorem ok_of_answer (h : answer call state = .ok result) :
    call state = .ok result (stateAfter call state) := by
  rw [answer] at h
  rw [stateAfter]
  split at h
  · rename_i hcall
    rw [hcall, Except.ok.inj h]
  · cases h

theorem Ends.of_answer {done : α → σ → Prop} {refused : ε → σ → Prop}
    (h : Ends call state done refused) (hanswer : answer call state = .ok result) :
    ∃ next, done result next := by
  rw [Ends] at h
  rw [answer] at hanswer
  split at h
  · rename_i value next hcall
    rw [hcall] at hanswer
    obtain rfl := Except.ok.inj hanswer
    exact ⟨next, h⟩
  · rename_i fault next hcall
    rw [hcall] at hanswer
    cases hanswer

/-- What is never refused is carried out. -/
theorem Ends.exists_ok {done : α → σ → Prop} (h : Ends call state done fun _ _ ↦ False) :
    ∃ result next, call state = .ok result next ∧ done result next := by
  rw [Ends] at h
  split at h
  · rename_i result next hcall
    exact ⟨result, next, hcall, h⟩
  · exact h.elim

/-- What is never refused has an answer. -/
theorem Ends.exists_answer {done : α → σ → Prop} (h : Ends call state done fun _ _ ↦ False) :
    ∃ result next, answer call state = .ok result ∧ done result next := by
  obtain ⟨result, next, hcall, hdone⟩ := h.exists_ok
  exact ⟨result, next, answer_of_ok hcall, hdone⟩

/-- Two calls on states of different kinds give the same answer and leave related states behind. -/
structure Agree {τ : Type} (call : EStateM ε σ α) (other : EStateM ε τ α) (state : σ)
    (counterpart : τ) (related : σ → τ → Prop) : Prop where
  answer : Calls.answer call state = Calls.answer other counterpart
  related : related (stateAfter call state) (stateAfter other counterpart)

namespace Agree

variable {τ : Type} {other : EStateM ε τ α} {counterpart image : τ} {related : σ → τ → Prop}

theorem of_ok (h : call state = .ok result next) (hother : other counterpart = .ok result image)
    (hrelated : related next image) : Agree call other state counterpart related where
  answer := by rw [Calls.answer, Calls.answer, h, hother]
  related := by
    rw [stateAfter, stateAfter, h, hother]
    exact hrelated

theorem of_error (h : call state = .error fault next)
    (hother : other counterpart = .error fault image) (hrelated : related next image) :
    Agree call other state counterpart related where
  answer := by rw [Calls.answer, Calls.answer, h, hother]
  related := by
    rw [stateAfter, stateAfter, h, hother]
    exact hrelated

theorem cases (h : Agree call other state counterpart related) :
    (∃ result next image, call state = .ok result next ∧ other counterpart = .ok result image ∧
        related next image) ∨
      ∃ fault next image, call state = .error fault next ∧ other counterpart = .error fault image ∧
        related next image := by
  obtain ⟨hanswer, hrelated⟩ := h
  unfold Calls.answer at hanswer
  unfold stateAfter at hrelated
  split at hanswer
  · split at hanswer
    · rename_i hcall _ _ _ hother
      rw [hcall, hother] at hrelated
      obtain rfl := Except.ok.inj hanswer
      exact .inl ⟨_, _, _, hcall, hother, hrelated⟩
    · cases hanswer
  · split at hanswer
    · cases hanswer
    · rename_i hcall _ _ _ hother
      rw [hcall, hother] at hrelated
      obtain rfl := Except.error.inj hanswer
      exact .inr ⟨_, _, _, hcall, hother, hrelated⟩

theorem map (h : Agree call other state counterpart related) (change : α → β) :
    Agree (change <$> call) (change <$> other) state counterpart related := by
  rcases h.cases with ⟨_, _, _, hcall, hother, hrelated⟩ | ⟨_, _, _, hcall, hother, hrelated⟩
  · exact of_ok (bind_ok hcall) (bind_ok hother) hrelated
  · exact of_error (bind_error hcall) (bind_error hother) hrelated

theorem bind {others : α → EStateM ε τ β} (h : Agree call other state counterpart related)
    (hrest : ∀ result next image, related next image →
      Agree (rest result) (others result) next image related) :
    Agree (call >>= rest) (other >>= others) state counterpart related := by
  rcases h.cases with ⟨result, next, image, hcall, hother, hrelated⟩ |
    ⟨fault, next, image, hcall, hother, hrelated⟩
  · rcases (hrest result next image hrelated).cases with
      ⟨_, _, _, hcalled, hothers, hlast⟩ | ⟨_, _, _, hcalled, hothers, hlast⟩
    · exact of_ok ((bind_ok hcall).trans hcalled) ((bind_ok hother).trans hothers) hlast
    · exact of_error ((bind_ok hcall).trans hcalled) ((bind_ok hother).trans hothers) hlast
  · exact of_error (bind_error hcall) (bind_error hother) hrelated

end Agree

/-- The call gives the same answer in related states and leaves related states behind. -/
def Respects (related : σ → σ → Prop) (call : EStateM ε σ α) : Prop :=
  ∀ state counterpart, related state counterpart → Agree call call state counterpart related

namespace Respects

variable {related : σ → σ → Prop}

theorem pure (result : α) : Respects related (Pure.pure result : EStateM ε σ α) :=
  fun _ _ h ↦ .of_ok rfl rfl h

theorem throw (fault : ε) : Respects related (MonadExcept.throw fault : EStateM ε σ α) :=
  fun _ _ h ↦ .of_error rfl rfl h

theorem modifying {change : σ → σ}
    (h : ∀ state counterpart, related state counterpart → related (change state) (change counterpart)) :
    Respects related (modify change : EStateM ε σ PUnit) :=
  fun _ _ hrelated ↦ .of_ok rfl rfl (h _ _ hrelated)

theorem bind (h : Respects related call) (hrest : ∀ result, Respects related (rest result)) :
    Respects related (call >>= rest) :=
  fun _ _ hrelated ↦ (h _ _ hrelated).bind fun result _ _ hnext ↦ hrest result _ _ hnext

/-- What is read off a state may decide on what is done, if it is the same in related states. -/
theorem get_bind {rest : σ → EStateM ε σ β}
    (hsame : ∀ state counterpart, related state counterpart → rest state = rest counterpart)
    (hrest : ∀ state, Respects related (rest state)) : Respects related (get >>= rest) := by
  intro state counterpart hrelated
  have hrest_eq := congrFun (hsame state counterpart hrelated) counterpart
  rcases (hrest state state counterpart hrelated).cases with
    ⟨_, _, _, hcall, hother, hnext⟩ | ⟨_, _, _, hcall, hother, hnext⟩
  · exact .of_ok hcall (hrest_eq.symm.trans hother) hnext
  · exact .of_error hcall (hrest_eq.symm.trans hother) hnext

theorem throwIf {condition : Prop} [Decidable condition] {rest : Unit → EStateM ε σ β}
    (h : Respects related (rest ())) :
    Respects related (if condition then MonadExcept.throw fault >>= rest else rest ()) :=
  iteInduction (fun _ ↦ bind (throw fault) fun _ ↦ h) fun _ ↦ h

theorem throwUnless {condition : Prop} [Decidable condition] {rest : Unit → EStateM ε σ β}
    (h : Respects related (rest ())) :
    Respects related (if condition then rest () else MonadExcept.throw fault >>= rest) :=
  iteInduction (fun _ ↦ h) fun _ ↦ bind (throw fault) fun _ ↦ h

/-- A call that works on a part of the state respects what relates whole states if it respects what
relates the parts. -/
theorem onPart {τ : Type} {whole : τ → τ → Prop} {outer : EStateM ε τ α} (part : τ → σ)
    (update : τ → σ → τ)
    (hdone : ∀ {state result next}, call (part state) = .ok result next →
      outer state = .ok result (update state next))
    (hrefused : ∀ {state fault next}, call (part state) = .error fault next →
      outer state = .error fault (update state next))
    (hpart : ∀ {state counterpart}, whole state counterpart → related (part state) (part counterpart))
    (hupdate : ∀ {state counterpart next image}, whole state counterpart → related next image →
      whole (update state next) (update counterpart image))
    (h : Respects related call) : Respects whole outer := by
  intro state counterpart hwhole
  rcases (h _ _ (hpart hwhole)).cases with
    ⟨_, _, _, hcall, hother, hnext⟩ | ⟨_, _, _, hcall, hother, hnext⟩
  · exact .of_ok (hdone hcall) (hdone hother) (hupdate hwhole hnext)
  · exact .of_error (hrefused hcall) (hrefused hother) (hupdate hwhole hnext)

theorem forM {body : γ → EStateM ε σ Unit} (h : ∀ element, Respects related (body element))
    (elements : List γ) : Respects related (elements.forM body) := by
  induction elements with
  | nil => exact pure ()
  | cons first others ih => exact bind (h first) fun _ ↦ ih

end Respects

end SetCover.Calls

import SetCover.Proofs.Search.Completion
import SetCover.Proofs.Search.Inheritance

/-!
# Calls that depend on the table alone

What was counted and reported before a call does not matter for what the call does to the table, nor
for its answer.  This is inherited by the rules from what they are made of; and the switch for the
lower bound does not matter for a reduction.
-/

namespace SetCover.Workbench

open SetCover.Matrix

variable {κ α β : Type} {matrix : Matrix κ}

/-- The answer of a call and the table after it depend on nothing but the table before it. -/
def Determined (work : Work κ α) : Prop :=
  ∀ matrix, ∃ outcome : EStateM.Result Fault (Matrix κ) α,
    Ends work matrix (fun result next ↦ outcome = .ok result next)
      (fun fault next ↦ outcome = .error fault next)

namespace Determined

variable {work : Work κ α} {rest : α → Work κ β}

theorem pure (result : α) : Determined (Pure.pure result : Work κ α) :=
  fun _ ↦ ⟨_, Ends.pure rfl⟩

theorem throw (fault : Fault) : Determined (MonadExcept.throw fault : Work κ α) :=
  fun _ ↦ ⟨_, Ends.throw rfl⟩

theorem bind (h : Determined work) (hrest : ∀ result, Determined (rest result)) :
    Determined (work >>= rest) := by
  intro matrix
  obtain ⟨outcome, hwork⟩ := h matrix
  cases outcome with
  | ok result next =>
    obtain ⟨last, hlast⟩ := hrest result next
    refine ⟨last, Ends.bind (hwork.imp (fun other later heq ↦ ?_) fun _ _ heq ↦ nomatch heq)⟩
    obtain ⟨rfl, rfl⟩ := EStateM.Result.ok.inj heq
    exact hlast
  | error fault next =>
    refine ⟨.error fault next,
      Ends.bind (hwork.imp (fun _ _ heq ↦ nomatch heq) fun other later heq ↦ ?_)⟩
    obtain ⟨rfl, rfl⟩ := EStateM.Result.error.inj heq
    rfl

theorem count (change : Stats → Stats) : Determined (Workbench.count change : Work κ Unit) :=
  fun _ ↦ ⟨_, Ends.count rfl⟩

theorem report (events : Matrix κ → List (Event κ)) : Determined (Workbench.report events) :=
  fun _ ↦ ⟨_, Ends.report rfl⟩

theorem edit (change : Edit κ α) : Determined (Workbench.edit change) := by
  refine fun matrix ↦ ⟨change matrix, Ends.edit ?_⟩
  rw [Calls.Ends]
  cases change matrix <;> rfl

theorem inherited : Inherited (@Determined κ) where
  pure := pure
  throw := throw
  bind := bind
  table _ hrest matrix := (hrest matrix matrix).imp fun _ houtcome ↦ Ends.table houtcome
  edit change _ := edit change
  report events _ := report events
  count change _ := count change

/-- What keeps the table has one answer, whatever was counted and reported before. -/
theorem exists_answer {answers : α → Prop} (h : Determined work)
    (hwork : Completes work matrix answers) : ∃ result, Completes work matrix (· = result) := by
  obtain ⟨outcome, houtcome⟩ := h matrix
  unfold Completes Yields at *
  have hends : Ends work matrix (fun result next ↦ next = matrix ∧ outcome = .ok result next)
      fun _ _ ↦ False :=
    (hwork.and houtcome).imp (fun _ _ hdone ↦ ⟨hdone.1.1, hdone.2⟩) fun _ _ hrefused ↦ hrefused.1.2
  obtain ⟨result, next, -, -, rfl⟩ := (hends Stats.zero (Journal.empty false)).exists_ok
  refine ⟨result, hends.imp (fun other later hdone ↦ ⟨hdone.1, ?_⟩) fun _ _ hrefused ↦ hrefused.elim⟩
  exact (EStateM.Result.ok.inj hdone.2).1.symm

end Determined

variable [Cost κ]

/-! ## Bounds and reductions -/

theorem reduceWithin_lowerBound (config : Config) (bounded : Bool) (rounds : Nat) :
    (reduceWithin { config with lowerBound := bounded } rounds : Work κ Reduction) =
      reduceWithin config rounds := by
  induction rounds with
  | zero => rfl
  | succ rounds ih =>
    have honce : (reduceOnce { config with lowerBound := bounded } : Work κ Reduction) =
        reduceOnce config := rfl
    rw [reduceWithin, reduceWithin, ih, honce]

/-- Reductions know nothing of the lower bound. -/
theorem reduce_lowerBound (config : Config) (bounded : Bool) :
    (reduce { config with lowerBound := bounded } : Work κ Reduction) = reduce config := by
  rw [reduce, reduce]
  exact congrArg (table >>= ·) (funext fun matrix ↦ reduceWithin_lowerBound config bounded _)

/-- A reduction leads to the same choice and the same table, whatever was counted and reported before
and with or without bounds. -/
theorem exists_reduce (h : matrix.Linked) (hsettled : matrix.Settled) (config : Config) :
    ∃ chosen next, Reduces matrix chosen next ∧ ∀ bounded,
      Ends (reduce { config with lowerBound := bounded }) matrix
        (fun reduction later ↦ reduction.selected = chosen ∧ later = next) fun _ _ ↦ False := by
  obtain ⟨outcome, houtcome⟩ := @Determined.inherited κ |>.reduce config matrix
  have hreduces := (@ends_reduce κ _ matrix (fun _ _ ↦ False) h hsettled config).and houtcome
  obtain ⟨reduction, next, -, hnext, rfl⟩ :=
    ((hreduces Stats.zero (Journal.empty false)).imp (fun _ _ hdone ↦ hdone)
      fun _ _ hrefused ↦ hrefused.1).exists_ok
  refine ⟨reduction.selected, next.matrix, hnext, fun bounded ↦ ?_⟩
  rw [reduce_lowerBound]
  refine hreduces.imp (fun other later hdone ↦ ?_) fun _ _ hrefused ↦ hrefused.1
  obtain ⟨rfl, rfl⟩ := EStateM.Result.ok.inj hdone.2
  exact ⟨rfl, rfl⟩

end SetCover.Workbench

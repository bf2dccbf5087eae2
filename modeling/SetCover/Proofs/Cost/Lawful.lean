import SetCover.Cost.Pair
import SetCover.Cost.Single

/-!
# Costs as vectors

A lawful cost is its components: they are added one by one, the cost of nothing has only zeros, and
costs are compared at the first component in which they differ.  Single costs and pairs are lawful.
-/

namespace SetCover

/-- Lists of doubles are compared at the first position in which they differ. -/
def compareComponents (left right : List Float) : Ordering :=
  (left.zip right).foldr (fun pair order ↦ (compareOn totalOrderKey pair.1 pair.2).then order) .eq

theorem totalOrderKey_injective : Function.Injective totalOrderKey := by
  intro first second h
  have hbits : first.toBits = second.toBits := by
    unfold totalOrderKey at h
    grind
  obtain ⟨⟨_, _⟩⟩ := first
  obtain ⟨⟨_, _⟩⟩ := second
  cases hbits
  rfl

theorem compareComponents_eq_eq_iff {left right : List Float} (hlength : left.length = right.length) :
    compareComponents left right = .eq ↔ left = right := by
  induction left generalizing right with
  | nil => simp [compareComponents, List.length_eq_zero_iff.mp hlength.symm]
  | cons first rest ih =>
    cases right with
    | nil => cases hlength
    | cons second others =>
      have hkeys : compareOn totalOrderKey first second = .eq ↔ first = second := by
        rw [compareOn, Std.LawfulEqCmp.compare_eq_iff_eq, totalOrderKey_injective.eq_iff]
      change (compareOn totalOrderKey first second).then (compareComponents rest others) = .eq ↔ _
      rw [Ordering.then_eq_eq, hkeys, ih (Nat.succ.inj hlength), List.cons.injEq]

/-- The laws of costs. -/
class LawfulCost (κ : Type) [Cost κ] : Prop where
  length_components (cost : κ) : (Cost.components cost).length = Cost.dimension κ
  /-- A cost is no more than its components. -/
  components_injective : Function.Injective (Cost.components : κ → List Float)
  components_zero : Cost.components (Cost.zero : κ) = List.replicate (Cost.dimension κ) 0.0
  components_add (left right : κ) : Cost.components (left + right) =
    List.zipWith (· + ·) (Cost.components left) (Cost.components right)
  compare_eq (left right : κ) :
    compare left right = compareComponents (Cost.components left) (Cost.components right)
  /-- A component that cannot be set is reported as such. -/
  withComponent_refused (cost : κ) (index : Nat) (value : Float) (fault : Fault) :
    Cost.withComponent cost index value = .error fault → ∀ cause, fault ≠ .breach cause

/-- Costs are equal in their order only if they are equal. -/
theorem LawfulCost.compare_isEq_iff {κ : Type} [Cost κ] [LawfulCost κ] (left right : κ) :
    (compare left right).isEq = true ↔ left = right := by
  have hlength : (Cost.components left).length = (Cost.components right).length := by
    rw [LawfulCost.length_components, LawfulCost.length_components]
  rw [Ordering.isEq_iff_eq_eq, LawfulCost.compare_eq, compareComponents_eq_eq_iff hlength,
    LawfulCost.components_injective.eq_iff]

theorem LawfulCost.lt_or_eq_of_le {κ : Type} [Cost κ] [LawfulCost κ] {left right : κ}
    (h : left ≤ right) : left < right ∨ left = right := by
  rcases Ordering.isLE_iff_eq_lt_or_eq_eq.mp h with hless | hequal
  · exact .inl hless
  · exact .inr ((LawfulCost.compare_isEq_iff left right).mp (Ordering.isEq_iff_eq_eq.mpr hequal))

theorem LawfulCost.le_antisymm {κ : Type} [Cost κ] [LawfulCost κ] {left right : κ}
    (h : left ≤ right) (hback : right ≤ left) : left = right := by
  have hequal : compare left right = .eq := Std.OrientedCmp.isLE_antisymm h hback
  exact (LawfulCost.compare_isEq_iff left right).mp (Ordering.isEq_iff_eq_eq.mpr hequal)

instance : LawfulCost SingleCost where
  length_components _ := rfl
  components_injective := by
    rintro ⟨first⟩ ⟨second⟩ h
    obtain ⟨rfl, -⟩ := List.cons.inj h
    rfl
  components_zero := rfl
  components_add _ _ := rfl
  compare_eq left right := by
    change compareOn (fun cost : SingleCost ↦ totalOrderKey cost.value) left right = _
    simp [compareComponents, Cost.components, compareOn]
  withComponent_refused cost index value fault h := by
    change (do SingleCost.requireIndex index; requireFinite value; return ⟨value⟩ :
      Except Fault SingleCost) = .error fault at h
    unfold SingleCost.requireIndex requireFinite at h
    split at h
    · split at h
      · cases h
      · obtain rfl := Except.error.inj h
        simp
    · obtain rfl := Except.error.inj h
      simp

instance : LawfulCost PairCost where
  length_components _ := rfl
  components_injective := by
    rintro ⟨first, second⟩ ⟨third, fourth⟩ h
    obtain ⟨rfl, h⟩ := List.cons.inj h
    obtain ⟨rfl, -⟩ := List.cons.inj h
    rfl
  components_zero := rfl
  components_add _ _ := rfl
  compare_eq left right := by
    change PairCost.order left right = _
    simp [compareComponents, Cost.components, compareOn, PairCost.order, compareLex]
  withComponent_refused cost index value fault h := by
    have hfinite {update : PairCost} (h : (do requireFinite value; return update :
        Except Fault PairCost) = .error fault) : ∀ cause, fault ≠ .breach cause := by
      unfold requireFinite at h
      split at h
      · cases h
      · obtain rfl := Except.error.inj h
        simp
    match index with
    | 0 => exact hfinite h
    | 1 => exact hfinite h
    | index + 2 =>
      obtain rfl := Except.error.inj h
      simp

end SetCover

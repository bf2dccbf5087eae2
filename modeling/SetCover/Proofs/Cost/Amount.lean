import Mathlib.Algebra.BigOperators.Pi
import Mathlib.Algebra.Order.BigOperators.Group.Finset
import Mathlib.Algebra.Order.Group.PiLex
import Mathlib.Order.Fin.Tuple
import SetCover.Proofs.Cost.Lawful
import SetCover.Proofs.Cost.Whole

/-!
# What costs amount to

A cost with whole components stands for a vector of natural numbers.  As long as every component stays
below 2^53, costs are added like the vectors and compared like them, lexicographically.
-/

namespace SetCover

/-- What a cost amounts to, component by component. -/
abbrev Amount (κ : Type) [Cost κ] := Fin (Cost.dimension κ) → Nat

variable {κ : Type} [Cost κ] {cost other : κ} {amount further : Amount κ}

/-- No component reaches 2^53. -/
def Amount.Fits (amount : Amount κ) : Prop := ∀ index, amount index < 2 ^ 53

theorem Amount.Fits.of_le (h : further.Fits) (hle : amount ≤ further) : amount.Fits :=
  fun index ↦ (hle index).trans_lt (h index)

/-- The components of the cost are the doubles of whole numbers below 2^53. -/
structure Stands (cost : κ) (amount : Amount κ) : Prop where
  components : Cost.components cost = List.ofFn fun index ↦ Float.ofNat (amount index)
  fits : amount.Fits

/-! ## Comparing -/

theorem compareOn_ofNat {left right : Nat} (hleft : left < 2 ^ 53) (hright : right < 2 ^ 53) :
    compareOn totalOrderKey (Float.ofNat left) (Float.ofNat right) = compare left right := by
  rw [Whole.ofNat_eq_double hleft, Whole.ofNat_eq_double hright, Whole.compareOn_double hleft hright]

theorem toLex_lt_iff {dimension : Nat} {first second : Fin (dimension + 1) → Nat} :
    toLex first < toLex second ↔ first 0 < second 0 ∨
      first 0 = second 0 ∧ toLex (Fin.tail first) < toLex (Fin.tail second) := by
  have hcons := @Fin.pi_lex_lt_cons_cons dimension (fun _ ↦ Nat) (first 0) (second 0)
    (Fin.tail first) (Fin.tail second) (· < ·)
  rw [Fin.cons_self_tail, Fin.cons_self_tail] at hcons
  exact hcons

theorem compareComponents_ofFn {dimension : Nat} {first second : Fin dimension → Nat}
    (hfirst : ∀ index, first index < 2 ^ 53) (hsecond : ∀ index, second index < 2 ^ 53) :
    (compareComponents (List.ofFn fun index ↦ Float.ofNat (first index))
        (List.ofFn fun index ↦ Float.ofNat (second index)) = .lt ↔ toLex first < toLex second) ∧
      (compareComponents (List.ofFn fun index ↦ Float.ofNat (first index))
        (List.ofFn fun index ↦ Float.ofNat (second index)) = .eq ↔ first = second) := by
  induction dimension with
  | zero =>
    obtain rfl := Subsingleton.elim first second
    exact ⟨iff_of_false (by simp [compareComponents]) (lt_irrefl _), iff_of_true rfl rfl⟩
  | succ dimension ih =>
    have hhead := compareOn_ofNat (hfirst 0) (hsecond 0)
    obtain ⟨hlt, heq⟩ := @ih (Fin.tail first) (Fin.tail second) (fun index ↦ hfirst index.succ)
      fun index ↦ hsecond index.succ
    simp only [List.ofFn_succ]
    change ((compareOn totalOrderKey _ _).then (compareComponents _ _) = .lt ↔ _) ∧
      ((compareOn totalOrderKey _ _).then (compareComponents _ _) = .eq ↔ _)
    rw [hhead, Ordering.then_eq_lt, Ordering.then_eq_eq, compare_lt_iff_lt, compare_eq_iff_eq,
      toLex_lt_iff]
    refine ⟨or_congr_right (and_congr_right fun _ ↦ hlt), ?_⟩
    rw [← Fin.cons_self_tail first, ← Fin.cons_self_tail second, Fin.cons_inj]
    exact and_congr_right fun _ ↦ heq

namespace Stands

variable [LawfulCost κ]

theorem compare_eq_lt_iff (h : Stands cost amount) (hother : Stands other further) :
    compare cost other = .lt ↔ toLex amount < toLex further := by
  rw [LawfulCost.compare_eq, h.components, hother.components]
  exact (compareComponents_ofFn h.fits hother.fits).1

theorem compare_eq_eq_iff (h : Stands cost amount) (hother : Stands other further) :
    compare cost other = .eq ↔ amount = further := by
  rw [LawfulCost.compare_eq, h.components, hother.components]
  exact (compareComponents_ofFn h.fits hother.fits).2

theorem lt_iff (h : Stands cost amount) (hother : Stands other further) :
    cost < other ↔ toLex amount < toLex further :=
  h.compare_eq_lt_iff hother

theorem le_iff (h : Stands cost amount) (hother : Stands other further) :
    cost ≤ other ↔ toLex amount ≤ toLex further := by
  have hsplit : (compare cost other).isLE = true ↔
      compare cost other = .lt ∨ compare cost other = .eq := by
    cases compare cost other <;> simp
  calc cost ≤ other ↔ compare cost other = .lt ∨ compare cost other = .eq := hsplit
    _ ↔ toLex amount < toLex further ∨ toLex amount = toLex further :=
      or_congr (h.compare_eq_lt_iff hother) (h.compare_eq_eq_iff hother)
    _ ↔ toLex amount ≤ toLex further := le_iff_lt_or_eq.symm

theorem unique (h : Stands cost amount) (hother : Stands other amount) : cost = other :=
  LawfulCost.components_injective (h.components.trans hother.components.symm)

/-! ## Adding -/

theorem add (h : Stands cost amount) (hother : Stands other further)
    (hfits : Amount.Fits (amount + further)) : Stands (cost + other) (amount + further) where
  components := by
    rw [LawfulCost.components_add, h.components, hother.components]
    apply List.ext_getElem (by simp)
    intro position hposition _
    have hbound : position < Cost.dimension κ := by simpa using hposition
    have hfirst := h.fits ⟨position, hbound⟩
    have hsecond := hother.fits ⟨position, hbound⟩
    have hsum : amount ⟨position, hbound⟩ + further ⟨position, hbound⟩ < 2 ^ 53 :=
      hfits ⟨position, hbound⟩
    simp only [List.getElem_zipWith, List.getElem_ofFn, Pi.add_apply]
    rw [Whole.ofNat_eq_double hfirst, Whole.ofNat_eq_double hsecond, Whole.ofNat_eq_double hsum,
      Whole.double_add hsum]
  fits := hfits

end Stands

theorem stands_zero [LawfulCost κ] : Stands (Cost.zero : κ) 0 where
  components := by
    have hzero : (0.0 : Float) = Float.ofNat 0 := rfl
    rw [LawfulCost.components_zero, hzero]
    exact (List.ofFn_const _ _).symm
  fits index := by norm_num

/-- The cost adds the amount to whatever it is added to, as long as the sum fits. -/
def Adds (cost : κ) (amount : Amount κ) : Prop :=
  ∀ {spent : κ} {base : Amount κ}, Stands spent base → Amount.Fits (base + amount) →
    Stands (spent + cost) (base + amount)

theorem Stands.adds [LawfulCost κ] (h : Stands cost amount) : Adds cost amount :=
  fun hspent hfits ↦ hspent.add h hfits

/-- A sum stands for the sum of the amounts. -/
theorem Stands.sumFrom {α : Type} {costOf : α → κ} {amountOf : α → Amount κ}
    {elements : List α} (h : Stands cost amount)
    (helements : ∀ element ∈ elements, Adds (costOf element) (amountOf element))
    (hfits : Amount.Fits (amount + (elements.map amountOf).sum)) :
    Stands (Cost.sumFrom cost (elements.map costOf)) (amount + (elements.map amountOf).sum) := by
  induction elements generalizing cost amount with
  | nil => simpa using h
  | cons first rest ih =>
    rw [List.map_cons, List.sum_cons, ← add_assoc] at hfits
    rw [List.map_cons, List.map_cons, List.sum_cons, ← add_assoc, Cost.sumFrom_cons]
    have hfirst := helements first (by simp) h (hfits.of_le fun index ↦ Nat.le_add_right _ _)
    exact ih hfirst (fun element hmem ↦ helements element (by simp [hmem])) hfits

theorem stands_sum [LawfulCost κ] {α : Type} {costOf : α → κ} {amountOf : α → Amount κ}
    {elements : List α} (helements : ∀ element ∈ elements, Adds (costOf element) (amountOf element))
    (hfits : Amount.Fits (elements.map amountOf).sum) :
    Stands (Cost.sumFrom Cost.zero (elements.map costOf)) (elements.map amountOf).sum := by
  rw [← zero_add (elements.map amountOf).sum] at hfits ⊢
  exact stands_zero.sumFrom helements hfits

end SetCover

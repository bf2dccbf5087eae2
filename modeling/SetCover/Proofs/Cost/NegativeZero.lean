import SetCover.Proofs.Cost.Amount

/-!
# Negative zeros

A finite value that is not below zero may still be a negative zero.  Added to a whole number it changes
nothing, just as zero does.  The order of doubles, however, puts it before zero, and a component that
decides takes no account of those behind it.  So costs with negative zeros add up like the costs without
the signs; but their order may go against that of the amounts, unless the negative zeros are all in the
last component, which has nothing to overrule.
-/

namespace SetCover

namespace Whole

variable {number further : Nat}

/-- Adding a negative zero changes nothing. -/
theorem double_add_negativeZero (hnumber : number < 2 ^ 53) :
    double number + -0.0 = double number := by
  have hadd : double number + -0.0 = .ofModel (Float.Model.pack (Float.Model.UnpackedFloat.add
      Float.Model.Format.binary64 (double number).toModel.unpack (-0.0 : Float).toModel.unpack)) := rfl
  have hzero : (-0.0 : Float).toModel.unpack = .zero .negative := rfl
  rw [hadd, hzero, unpack_double hnumber, double]
  congr 2
  rcases Nat.eq_zero_or_pos number with rfl | hpos
  · rfl
  · rw [unpacked, dif_neg hpos.ne']
    rfl

theorem double_inj (hnumber : number < 2 ^ 53) (hfurther : further < 2 ^ 53) :
    double number = double further ↔ number = further := by
  refine ⟨fun h ↦ ?_, congrArg double⟩
  have hcompare := compareOn_double hnumber hfurther
  rw [h, compareOn_double hfurther hfurther, Std.compare_self] at hcompare
  exact compare_eq_iff_eq.mp hcompare.symm

/-- Negative zero comes before every whole number. -/
theorem compareOn_double_negativeZero (hnumber : number < 2 ^ 53) :
    compareOn totalOrderKey (double number) (-0.0) = .gt := by
  have hzero : (totalOrderKey (-0.0)).toNat = 2 ^ 63 - 1 := by decide
  have hkey := toNat_totalOrderKey hnumber
  have hkeys : compareOn totalOrderKey (double number) (-0.0) =
      compareOfLessAndEq (totalOrderKey (double number)) (totalOrderKey (-0.0)) := rfl
  rw [hkeys, compareOfLessAndEq]
  simp only [UInt64.lt_iff_toNat_lt, ← UInt64.toNat_inj, hkey, hzero]
  rw [if_neg (by omega), if_neg (by omega)]

end Whole

/-- The value, with zero in place of negative zero. -/
def unsignZero (value : Float) : Float := if value = -0.0 then 0.0 else value

section Values

variable {value other : Float} {number further : Nat}

theorem unsignZero_of_ne (hvalue : value ≠ -0.0) : unsignZero value = value := if_neg hvalue

theorem eq_of_unsignZero (hnumber : number < 2 ^ 53) (h : unsignZero value = Float.ofNat number) :
    value = Float.ofNat number ∨ value = -0.0 ∧ number = 0 := by
  by_cases hvalue : value = -0.0
  · have hzero : (0.0 : Float) = Float.ofNat 0 := rfl
    rw [unsignZero, if_pos hvalue, hzero, Whole.ofNat_eq_double hnumber,
      Whole.ofNat_eq_double (by norm_num), Whole.double_inj (by norm_num) hnumber] at h
    exact .inr ⟨hvalue, h.symm⟩
  · rw [unsignZero_of_ne hvalue] at h
    exact .inl h

theorem ofNat_add_of_unsignZero (h : unsignZero value = Float.ofNat number)
    (hsum : further + number < 2 ^ 53) :
    Float.ofNat further + value = Float.ofNat (further + number) := by
  have hfurther : further < 2 ^ 53 := by omega
  rw [Whole.ofNat_eq_double hfurther, Whole.ofNat_eq_double hsum]
  rcases eq_of_unsignZero (by omega) h with rfl | ⟨rfl, rfl⟩
  · rw [Whole.ofNat_eq_double (by omega), Whole.double_add hsum]
  · rw [add_zero, Whole.double_add_negativeZero hfurther]

/-- A greater number has the greater double, whether or not the other one is a negative zero. -/
theorem compareOn_of_unsignZero (hvalue : unsignZero value = Float.ofNat number)
    (hother : unsignZero other = Float.ofNat further) (hless : further < number)
    (hnumber : number < 2 ^ 53) : compareOn totalOrderKey value other = .gt := by
  rcases eq_of_unsignZero hnumber hvalue with rfl | ⟨-, rfl⟩
  · rcases eq_of_unsignZero (by omega) hother with rfl | ⟨rfl, -⟩
    · rw [compareOn_ofNat hnumber (by omega), compare_gt_iff_gt.mpr hless]
    · rw [Whole.ofNat_eq_double hnumber, Whole.compareOn_double_negativeZero hnumber]
  · exact absurd hless (Nat.not_lt_zero further)

end Values

/-! ## Costs -/

/-- Of two lists that are those of amounts but for negative zeros, the one of the greater amount comes
second.  Where the lists go on, a negative zero would decide against those behind it. -/
theorem compareComponents_eq_gt {dimension : Nat} {first second : Fin dimension → Nat}
    {left right : List Float}
    (hleft : left.map unsignZero = List.ofFn fun index ↦ Float.ofNat (first index))
    (hright : right.map unsignZero = List.ofFn fun index ↦ Float.ofNat (second index))
    (hleads : ∀ value ∈ left.dropLast, value ≠ -0.0)
    (hothers : ∀ value ∈ right.dropLast, value ≠ -0.0) (hfirst : ∀ index, first index < 2 ^ 53)
    (hless : toLex second < toLex first) : compareComponents left right = .gt := by
  induction dimension generalizing left right with
  | zero =>
    obtain rfl := Subsingleton.elim first second
    exact absurd hless (lt_irrefl _)
  | succ dimension ih =>
    rw [List.ofFn_succ, List.map_eq_cons_iff] at hleft hright
    obtain ⟨value, rest, rfl, hvalue, hrest⟩ := hleft
    obtain ⟨other, others, rfl, hother, hothersRest⟩ := hright
    change (compareOn totalOrderKey value other).then (compareComponents rest others) = .gt
    rw [Ordering.then_eq_gt]
    rcases toLex_lt_iff.mp hless with hhead | ⟨hhead, htail⟩
    · exact .inl (compareOn_of_unsignZero hvalue hother hhead (hfirst 0))
    · -- Behind equal heads the amounts still differ, so neither head is the last component.
      have hmore : dimension ≠ 0 := by
        rintro rfl
        rw [Subsingleton.elim (Fin.tail second) (Fin.tail first)] at htail
        exact lt_irrefl _ htail
      have hlength : rest.length = dimension := by
        simpa using congrArg List.length hrest
      have hothersLength : others.length = dimension := by
        simpa using congrArg List.length hothersRest
      rw [List.dropLast_cons_of_ne_nil (List.ne_nil_of_length_pos (by omega)),
        List.forall_mem_cons] at hleads hothers
      have heq : value = other := by
        calc value = unsignZero value := (unsignZero_of_ne hleads.1).symm
          _ = Float.ofNat (first 0) := hvalue
          _ = Float.ofNat (second 0) := by rw [hhead]
          _ = unsignZero other := hother.symm
          _ = other := unsignZero_of_ne hothers.1
      rw [heq, compareOn, Std.compare_self]
      exact .inr ⟨rfl, ih hrest hothersRest hleads.2 hothers.2 (fun index ↦ hfirst index.succ) htail⟩

section Costs

variable {κ : Type} [Cost κ] {cost plain other otherPlain : κ} {amount further : Amount κ}

/-- The second cost is the first one with zero in place of every negative zero. -/
def Unsigns (cost plain : κ) : Prop :=
  Cost.components plain = (Cost.components cost).map unsignZero

/-- No component but the last one is a negative zero. -/
def LeadsUnsigned (cost : κ) : Prop :=
  ∀ value ∈ (Cost.components cost).dropLast, value ≠ -0.0

variable [LawfulCost κ]

/-- With negative zeros a cost adds the same as without. -/
theorem Unsigns.adds (h : Unsigns cost plain) (hplain : Stands plain amount) : Adds cost amount := by
  intro spent base hspent hfits
  have hunsigned := h.symm.trans hplain.components
  have hlength := congrArg List.length hunsigned
  rw [List.length_map, List.length_ofFn] at hlength
  refine ⟨?_, hfits⟩
  rw [LawfulCost.components_add, hspent.components]
  apply List.ext_getElem (by simp [hlength])
  intro position hposition _
  have hbound : position < Cost.dimension κ := by simpa [hlength] using hposition
  have hvalue := List.getElem_of_eq hunsigned (by simpa [hlength] using hbound)
  rw [List.getElem_map, List.getElem_ofFn] at hvalue
  rw [List.getElem_zipWith, List.getElem_ofFn, List.getElem_ofFn]
  exact ofNat_add_of_unsignZero hvalue (hfits ⟨position, hbound⟩)

/-- With negative zeros in the last components only, the order does not go against that of the
amounts. -/
theorem Unsigns.toLex_le (h : Unsigns cost plain) (hplain : Stands plain amount)
    (hleads : LeadsUnsigned cost) (hother : Unsigns other otherPlain)
    (hotherPlain : Stands otherPlain further) (hotherLeads : LeadsUnsigned other)
    (hle : cost ≤ other) : toLex amount ≤ toLex further := by
  by_contra hnot
  have hgreater : compare cost other = .gt := by
    rw [LawfulCost.compare_eq]
    exact compareComponents_eq_gt (h.symm.trans hplain.components)
      (hother.symm.trans hotherPlain.components) hleads hotherLeads hplain.fits (not_le.mp hnot)
  have hisLE : (compare cost other).isLE = true := hle
  rw [hgreater] at hisLE
  cases hisLE

end Costs

end SetCover

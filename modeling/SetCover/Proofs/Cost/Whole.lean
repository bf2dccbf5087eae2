import Mathlib.Algebra.Order.Group.Nat
import Mathlib.Data.Nat.Log
import Mathlib.Tactic.Positivity
import Mathlib.Tactic.Ring
import SetCover.Cost.Basic

/-!
# Whole doubles

A whole number below 2^53 has a double of its own: its mantissa is shifted up to 53 binary digits.
Whole doubles are added without rounding as long as the sum stays below 2^53, and their total order is
that of the numbers.  Whole numbers of different sizes are brought to a common exponent for this, and
all that is shifted out again are zeros.
-/

namespace SetCover.Whole

open Float.Model Float.Model.UnpackedFloat

variable {number shift left right : Nat}

/-- The number of binary digits by which a whole number falls short of 53. -/
def slack (number : Nat) : Nat := 52 - number.log2

/-- The unpacked double of a whole number below 2^53. -/
def unpacked (number : Nat) : UnpackedFloat :=
  if h : number = 0 then .zero .positive
  else .finite .positive (number * 2 ^ slack number) (-(slack number : Int)) (by positivity)

theorem log2_le (hnumber : number < 2 ^ 53) : number.log2 ≤ 52 := by
  rcases Nat.eq_zero_or_pos number with rfl | hpos
  · simp
  · exact Nat.le_of_lt_succ ((Nat.log2_lt hpos.ne').mpr hnumber)

theorem log2_mul_two_pow (hpos : 0 < number) : (number * 2 ^ shift).log2 = number.log2 + shift := by
  have hle := Nat.log2_self_le hpos.ne'
  have hlt := @Nat.lt_log2_self number
  rw [Nat.log2_eq_iff (by positivity)]
  constructor
  · rw [pow_add]
    exact Nat.mul_le_mul_right _ hle
  · rw [show number.log2 + shift + 1 = number.log2 + 1 + shift by ring, pow_add]
    exact Nat.mul_lt_mul_of_pos_right hlt (by positivity)

theorem totalExponent_eq (hpos : 0 < number) :
    totalExponent (number * 2 ^ shift) (-(shift : Int)) = number.log2 + 1 := by
  rw [totalExponent, log2_mul_two_pow hpos]
  push_cast
  ring

theorem targetExponent_eq (hnumber : number < 2 ^ 53) (hpos : 0 < number) :
    Format.binary64.targetExponent (totalExponent (number * 2 ^ shift) (-(shift : Int))) =
      -(slack number : Int) := by
  have hle := log2_le hnumber
  have hmin : Format.binary64.minExponent = -1074 := by decide
  have hbits : Format.binary64.mantissaBits = 53 := rfl
  rw [totalExponent_eq hpos, Format.targetExponent, hmin, hbits, slack]
  omega

/-- Shifting zeros out is exact. -/
theorem shiftRight_exact (mantissa steps : Nat) :
    (ExtendedMantissa.ofMantissaAndAccuracy (mantissa * 2 ^ steps) .exact) >>> steps =
      ⟨mantissa, false, false⟩ := by
  change steps.repeat ExtendedMantissa.shiftRightOne _ = _
  induction steps generalizing mantissa with
  | zero => simp [Nat.repeat, ExtendedMantissa.ofMantissaAndAccuracy]
  | succ steps ih =>
    have hdouble : mantissa * 2 ^ (steps + 1) = (2 * mantissa) * 2 ^ steps := by ring
    rw [Nat.repeat, hdouble, ih]
    simp [ExtendedMantissa.shiftRightOne]

theorem shiftToTargetExponent_eq (hnumber : number < 2 ^ 53) (hpos : 0 < number)
    (hslack : slack number ≤ shift) :
    shiftToTargetExponent Format.binary64 (number * 2 ^ shift) (-(shift : Int)) .exact =
      (⟨number * 2 ^ slack number, false, false⟩, -(slack number : Int)) := by
  rw [shiftToTargetExponent, targetExponent_eq hnumber hpos, shiftToExponent]
  have hsteps : (-(slack number : Int) - -(shift : Int)).toNat = shift - slack number := by omega
  have hsplit : number * 2 ^ shift = number * 2 ^ slack number * 2 ^ (shift - slack number) := by
    rw [mul_assoc, ← pow_add, Nat.add_sub_cancel' hslack]
  rw [hsteps, hsplit, shiftRight_exact]
  congr 1
  omega

theorem roundWithAccuracy_eq (hnumber : number < 2 ^ 53) (hpos : 0 < number)
    (hslack : slack number ≤ shift) :
    roundWithAccuracy Format.binary64 .positive (number * 2 ^ shift) (-(shift : Int)) .exact =
      unpacked number := by
  have hsecond := shiftToTargetExponent_eq hnumber hpos (le_refl (slack number))
  have hne : number * 2 ^ slack number ≠ 0 := by positivity
  have hrounded : ExtendedMantissa.roundedMantissa ⟨number * 2 ^ slack number, false, false⟩ =
      number * 2 ^ slack number := rfl
  rw [roundWithAccuracy, shiftToTargetExponent_eq hnumber hpos hslack]
  dsimp only
  rw [hrounded, hsecond, dif_neg hne, unpacked, dif_neg hpos.ne']

theorem round_eq (hnumber : number < 2 ^ 53) (hpos : 0 < number) :
    UnpackedFloat.round Format.binary64 .positive (number * 2 ^ shift) (-(shift : Int)) = unpacked number := by
  rw [UnpackedFloat.round, targetExponent_eq hnumber hpos, decreaseExponent]
  dsimp only
  set steps := (-(shift : Int) - -(slack number : Int)).toNat with hsteps
  have hmantissa : (number * 2 ^ shift) <<< steps = number * 2 ^ (shift + steps) := by
    rw [Nat.shiftLeft_eq, mul_assoc, ← pow_add]
  have hexponent : -(shift : Int) - (steps : Int) = -((shift + steps : Nat) : Int) := by
    push_cast
    ring
  rw [hmantissa, hexponent]
  exact roundWithAccuracy_eq hnumber hpos (by omega)

/-! ## Packing -/

/-- The exponent field of the double of a positive whole number. -/
def exponentField (number : Nat) : BitVec 11 := BitVec.ofNat 11 (number.log2 + 1023)

theorem toNat_exponentField (hnumber : number < 2 ^ 53) :
    (exponentField number).toNat = number.log2 + 1023 := by
  have hle := log2_le hnumber
  rw [exponentField, BitVec.toNat_ofNat, Nat.mod_eq_of_lt (by omega)]

theorem log2_mantissa (hnumber : number < 2 ^ 53) (hpos : 0 < number) :
    (number * 2 ^ slack number).log2 = 52 := by
  have hle := log2_le hnumber
  rw [log2_mul_two_pow hpos, slack]
  omega

theorem pack_eq (hnumber : number < 2 ^ 53) (hpos : 0 < number) :
    pack Format.binary64 (unpacked number) = packComponents Format.binary64 .positive
      (exponentField number) (BitVec.ofNat 52 (number * 2 ^ slack number)) := by
  have hle := log2_le hnumber
  have hfield : (-(slack number : Int) + (Format.binary64.exponentBias : Int) +
      (Format.binary64.mantissaBitsWithoutImplicit : Int)).toNat = number.log2 + 1023 := by
    have hbias : Format.binary64.exponentBias = 1023 := rfl
    have hwidth : Format.binary64.mantissaBitsWithoutImplicit = 52 := rfl
    rw [hbias, hwidth, slack]
    omega
  have hsmall : ¬2 ^ Format.binary64.exponentBits ≤ number.log2 + 1023 + 1 := by
    change ¬2 ^ 11 ≤ _
    omega
  have hnormal : (number * 2 ^ slack number).log2 + 1 = Format.binary64.mantissaBits := by
    rw [log2_mantissa hnumber hpos]
    rfl
  rw [unpacked, dif_neg hpos.ne']
  delta UnpackedFloat.pack
  dsimp only
  rw [hfield, if_neg hsmall, if_pos hnormal]
  rfl

theorem unpackSign_positive (exponent : BitVec 11) (mantissa : BitVec 52) :
    unpackSign (packComponents Format.binary64 .positive exponent mantissa) = 0#1 := by
  ext index hindex
  obtain rfl : index = 0 := by omega
  delta unpackSign
  simp [packComponents, Sign.toBitVec]
  grind

theorem two_pow_le_mantissa (hnumber : number < 2 ^ 53) (hpos : 0 < number) :
    2 ^ 52 ≤ number * 2 ^ slack number ∧ number * 2 ^ slack number < 2 ^ 53 := by
  have hmantissa : number * 2 ^ slack number ≠ 0 := by positivity
  have hlog := log2_mantissa hnumber hpos
  exact (Nat.log2_eq_iff hmantissa).mp hlog

theorem toNat_mantissa (hnumber : number < 2 ^ 53) (hpos : 0 < number) :
    (1#1 ++ BitVec.ofNat 52 (number * 2 ^ slack number)).toNat = number * 2 ^ slack number := by
  obtain ⟨hle, hlt⟩ := two_pow_le_mantissa hnumber hpos
  rw [BitVec.toNat_append, ← Nat.shiftLeft_add_eq_or_of_lt (BitVec.isLt _)]
  simp only [BitVec.toNat_ofNat]
  omega

theorem finite_congr {first second : Nat} {lower upper : Int} {hfirst : 0 < first}
    {hsecond : 0 < second} (hmantissa : first = second) (hexponent : lower = upper) :
    UnpackedFloat.finite .positive first lower hfirst = .finite .positive second upper hsecond := by
  subst hmantissa
  subst hexponent
  rfl

theorem unpack_pack (hnumber : number < 2 ^ 53) :
    unpack Format.binary64 (pack Format.binary64 (unpacked number)) = unpacked number := by
  rcases Nat.eq_zero_or_pos number with rfl | hpos
  · rfl
  have hle := log2_le hnumber
  have hfield := toNat_exponentField hnumber
  have hnotMax : exponentField number ≠ -1#11 := by
    intro heq
    rw [heq] at hfield
    change 2047 = _ at hfield
    omega
  have hnotZero : exponentField number ≠ 0#11 := by
    intro heq
    rw [heq] at hfield
    change 0 = _ at hfield
    omega
  have hexponent : ((exponentField number).toNat : Int) - ((1023 : Nat) + (52 : Nat)) =
      -(slack number : Int) := by
    rw [hfield, slack]
    omega
  have hmantissa := toNat_mantissa hnumber hpos
  rw [pack_eq hnumber hpos]
  generalize exponentField number = field at *
  generalize BitVec.ofNat 52 (number * 2 ^ slack number) = mantissa at *
  have hsign := unpackSign_positive field mantissa
  have hreadField : unpackExponent (packComponents Format.binary64 .positive field mantissa) =
      field := unpackExponent_packComponents
  have hreadMantissa : unpackMantissa (packComponents Format.binary64 .positive field mantissa) =
      mantissa := unpackMantissa_packComponents
  -- From here on only the three fields of the packed bits are read.
  generalize packComponents Format.binary64 .positive field mantissa = packed at *
  subst hreadField
  subst hreadMantissa
  delta UnpackedFloat.unpack
  dsimp only
  rw [hsign, if_neg hnotMax, if_neg hnotZero, unpacked, dif_neg hpos.ne']
  exact finite_congr hmantissa hexponent

/-! ## Doubles -/

/-- The double of a whole number below 2^53. -/
def double (number : Nat) : Float := .ofModel (Float.Model.pack (unpacked number))

theorem unpack_double (hnumber : number < 2 ^ 53) :
    (double number).toModel.unpack = unpacked number := by
  have hbits : (double number).toModel.toBits.toBitVec =
      UnpackedFloat.pack Format.binary64 (unpacked number) := rfl
  rw [Float.Model.unpack, hbits, unpack_pack hnumber]

theorem normalize_eq (hnumber : number < 2 ^ 53) :
    UnpackedFloat.normalize Format.binary64 (number * 2 ^ shift : Nat) (-(shift : Int)) .positive =
      unpacked number := by
  rcases Nat.eq_zero_or_pos number with rfl | hpos
  · simp [UnpackedFloat.normalize, unpacked]
  · have hgt : compare ((number * 2 ^ shift : Nat) : Int) 0 = .gt := by
      rw [compare_gt_iff_gt]
      positivity
    rw [UnpackedFloat.normalize, hgt]
    exact round_eq hnumber hpos

theorem decreaseExponent_eq (hslack : slack number ≤ shift) :
    decreaseExponent (number * 2 ^ slack number) (-(slack number : Int)) (-(shift : Int)) =
      (number * 2 ^ shift, -(shift : Int)) := by
  have hsteps : (-(slack number : Int) - -(shift : Int)).toNat = shift - slack number := by omega
  rw [decreaseExponent, hsteps, Nat.shiftLeft_eq, mul_assoc, ← pow_add, Nat.add_sub_cancel' hslack]
  congr 1
  omega

theorem add_unpacked (hsum : left + right < 2 ^ 53) :
    UnpackedFloat.add Format.binary64 (unpacked left) (unpacked right) = unpacked (left + right) := by
  rcases Nat.eq_zero_or_pos left with rfl | hleft
  · rcases Nat.eq_zero_or_pos right with rfl | hright
    · rfl
    · rw [unpacked, dif_pos rfl, unpacked, dif_neg hright.ne', zero_add, unpacked,
        dif_neg hright.ne']
      rfl
  · rcases Nat.eq_zero_or_pos right with rfl | hright
    · rw [add_zero, unpacked, dif_neg hleft.ne', unpacked, dif_pos rfl]
      rfl
    · have hmin : min (-(slack left : Int)) (-(slack right : Int)) =
          -((max (slack left) (slack right) : Nat) : Int) := by omega
      rw [unpacked, dif_neg hleft.ne', unpacked, dif_neg hright.ne']
      delta UnpackedFloat.add
      dsimp only
      rw [hmin, decreaseExponent_eq (le_max_left _ _), decreaseExponent_eq (le_max_right _ _)]
      have hmantissa : ((left * 2 ^ max (slack left) (slack right) : Nat) : Int) +
          ((right * 2 ^ max (slack left) (slack right) : Nat) : Int) =
          (((left + right) * 2 ^ max (slack left) (slack right) : Nat) : Int) := by
        push_cast
        ring
      dsimp only [Sign.apply]
      rw [hmantissa, normalize_eq hsum]

/-- Whole numbers below 2^53 are added exactly. -/
theorem double_add (hsum : left + right < 2 ^ 53) :
    double left + double right = double (left + right) := by
  have hadd : double left + double right = .ofModel (Float.Model.pack (UnpackedFloat.add
      Format.binary64 (double left).toModel.unpack (double right).toModel.unpack)) := rfl
  rw [hadd, unpack_double (by omega), unpack_double (by omega), add_unpacked hsum]
  rfl

theorem toFloat_eq_double (hnumber : number < 2 ^ 53) :
    number.toUInt64.toFloat = double number := by
  have hsmall : number.toUInt64.toNat = number := by
    rw [Nat.toUInt64, UInt64.toNat_ofNat']
    exact Nat.mod_eq_of_lt (by omega)
  have hmodel : number.toUInt64.toFloat = .ofModel (Float.Model.pack
      (UnpackedFloat.normalize Format.binary64 (number.toUInt64.toNat : Int) 0 .positive)) := rfl
  have hnormalize := @normalize_eq number 0 hnumber
  rw [pow_zero, mul_one, Nat.cast_zero, neg_zero] at hnormalize
  rw [hmodel, hsmall, hnormalize]
  rfl

theorem double_mul_one (hnumber : number < 2 ^ 53) : double number * double 1 = double number := by
  have hmul : double number * double 1 = .ofModel (Float.Model.pack (UnpackedFloat.mul
      Format.binary64 (double number).toModel.unpack (double 1).toModel.unpack)) := rfl
  have hone : unpacked 1 = .finite .positive (1 * 2 ^ 52) (-((52 : Nat) : Int)) (by positivity) := rfl
  rw [hmul, unpack_double hnumber, unpack_double (by norm_num), hone, double]
  congr 2
  rcases Nat.eq_zero_or_pos number with rfl | hpos
  · rfl
  · have hmantissa : number * 2 ^ slack number * (1 * 2 ^ 52) = number * 2 ^ (slack number + 52) := by
      ring
    have hexponent : -(slack number : Int) + -((52 : Nat) : Int) = -((slack number + 52 : Nat) : Int) := by
      omega
    have hround := roundWithAccuracy_eq hnumber hpos (Nat.le_add_right (slack number) 52)
    rw [← hmantissa, ← hexponent] at hround
    conv_lhs => rw [unpacked, dif_neg hpos.ne']
    exact hround

theorem ofNat_eq_double (hnumber : number < 2 ^ 53) : Float.ofNat number = double number := by
  have hpower : Float.ofBits 0x3FF0000000000000 = double 1 := by decide
  have hofNat : Float.ofNat number = Float.ofScientific number false 0 := rfl
  have hready : number < 2 ^ 53 ∧ 0 ≤ 22 := ⟨hnumber, by norm_num⟩
  rw [hofNat, Float.ofScientific, dif_pos hready]
  change number.toUInt64.toFloat * Float.ofBits 0x3FF0000000000000 = _
  rw [hpower, toFloat_eq_double hnumber, double_mul_one hnumber]

/-! ## Order -/

/-- The bits of the double of a whole number. -/
def bits (number : Nat) : Nat :=
  if number = 0 then 0 else (number.log2 + 1022) * 2 ^ 52 + number * 2 ^ slack number

theorem toNat_toBits (hnumber : number < 2 ^ 53) : (double number).toBits.toNat = bits number := by
  have hbits : (double number).toBits.toNat =
      (UnpackedFloat.pack Format.binary64 (unpacked number)).toNat := rfl
  rcases Nat.eq_zero_or_pos number with rfl | hpos
  · rfl
  · obtain ⟨hle, hlt⟩ := two_pow_le_mantissa hnumber hpos
    have hfield := toNat_exponentField hnumber
    rw [hbits, pack_eq hnumber hpos, packComponents, bits, if_neg hpos.ne', BitVec.toNat_append,
      ← Nat.shiftLeft_add_eq_or_of_lt (BitVec.isLt _), BitVec.toNat_append,
      ← Nat.shiftLeft_add_eq_or_of_lt (BitVec.isLt _), hfield, Nat.shiftLeft_eq]
    simp only [BitVec.toNat_ofNat, Sign.toBitVec]
    omega

theorem bits_lt_bits (hlt : left < right) (hright : right < 2 ^ 53) : bits left < bits right := by
  have hrightPos : 0 < right := by omega
  obtain ⟨hrightLe, hrightLt⟩ := two_pow_le_mantissa hright hrightPos
  rcases Nat.eq_zero_or_pos left with rfl | hleftPos
  · rw [bits, if_pos rfl, bits, if_neg hrightPos.ne']
    omega
  · obtain ⟨hleftLe, hleftLt⟩ := two_pow_le_mantissa (hlt.trans hright) hleftPos
    have hlog : left.log2 ≤ right.log2 :=
      (Nat.le_log2 hrightPos.ne').mpr ((Nat.log2_self_le hleftPos.ne').trans hlt.le)
    rw [bits, if_neg hleftPos.ne', bits, if_neg hrightPos.ne']
    rcases hlog.eq_or_lt with heq | hless
    · have hslack : slack left = slack right := by rw [slack, slack, heq]
      rw [heq, hslack]
      exact Nat.add_lt_add_left (Nat.mul_lt_mul_of_pos_right hlt (by positivity)) _
    · omega

theorem bits_lt_two_pow (hnumber : number < 2 ^ 53) : bits number < 2 ^ 63 := by
  rcases Nat.eq_zero_or_pos number with rfl | hpos
  · rw [bits, if_pos rfl]
    norm_num
  · have hlog := log2_le hnumber
    obtain ⟨hle, hlt⟩ := two_pow_le_mantissa hnumber hpos
    rw [bits, if_neg hpos.ne']
    omega

theorem toNat_totalOrderKey (hnumber : number < 2 ^ 53) :
    (totalOrderKey (double number)).toNat = 2 ^ 63 + bits number := by
  have hbits := toNat_toBits hnumber
  have hsmall := bits_lt_two_pow hnumber
  have hlt : (double number).toBits < 0x8000000000000000 := by
    rw [UInt64.lt_iff_toNat_lt, hbits]
    exact hsmall
  rw [totalOrderKey, if_pos hlt, UInt64.toNat_add, hbits]
  change (2 ^ 63 + bits number) % 2 ^ 64 = _
  omega

/-- Whole numbers below 2^53 are ordered like their doubles. -/
theorem compareOn_double (hleft : left < 2 ^ 53) (hright : right < 2 ^ 53) :
    compareOn totalOrderKey (double left) (double right) = compare left right := by
  have hkeyLeft := toNat_totalOrderKey hleft
  have hkeyRight := toNat_totalOrderKey hright
  have hkeys : compareOn totalOrderKey (double left) (double right) =
      compareOfLessAndEq (totalOrderKey (double left)) (totalOrderKey (double right)) := rfl
  rw [hkeys, compareOfLessAndEq]
  simp only [UInt64.lt_iff_toNat_lt, ← UInt64.toNat_inj, hkeyLeft, hkeyRight]
  rcases lt_trichotomy left right with hlt | rfl | hgt
  · have hless := bits_lt_bits hlt hright
    rw [if_pos (by omega), compare_lt_iff_lt.mpr hlt]
  · simp
  · have hless := bits_lt_bits hgt hleft
    rw [if_neg (by omega), if_neg (by omega), compare_gt_iff_gt.mpr hgt]

end SetCover.Whole

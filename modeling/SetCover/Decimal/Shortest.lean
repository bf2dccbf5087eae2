/-!
# Shortest decimals of binary fractions

A finite double stands for every real number that rounds to it.  Its shortest decimal is the decimal
with the fewest digits inside that interval and, among those, the nearest to the double itself; the
upper one if two are equally near.

Everything is exact arithmetic on natural numbers.  A decimal grid of a given place is the set of
multiples of a power of ten; if any of its points lies in the interval, so does one of the two
neighbours of the value on that grid, and only these two are tried.
-/

namespace SetCover

/-- The number `digits * 10 ^ place`. -/
structure Decimal where
  digits : Nat
  place : Int
  deriving DecidableEq, Repr

namespace Decimal

/-- A positive value with the interval of reals that round to it, all over one denominator: the
interval reaches from `(value - below) / scale` to `(value + above) / scale`. -/
structure Interval where
  value : Nat
  below : Nat
  above : Nat
  scale : Nat
  /-- Whether the two ends belong to the interval. -/
  closed : Bool
  deriving DecidableEq, Repr

namespace Interval

/-- The interval of the double with the given significand and binary exponent.  Its neighbours are
one unit in the last place away, except that the lower one of a double at the bottom of its binade
is only half a unit away. -/
def ofBinary (significand : Nat) (exponent : Int) (bottomOfBinade : Bool) : Interval where
  value := (4 * significand) <<< exponent.toNat
  below := (if bottomOfBinade then 1 else 2) <<< exponent.toNat
  above := 2 <<< exponent.toNat
  scale := 4 <<< (-exponent).toNat
  closed := significand % 2 == 0

/-- Whether the multiple `count` of `unit` lies in the interval, the value and the two distances
having been multiplied by `factor`. -/
def admits (interval : Interval) (factor unit count : Nat) : Bool :=
  let point := count * unit
  let low := (interval.value - interval.below) * factor
  let high := (interval.value + interval.above) * factor
  if interval.closed then low ≤ point && point ≤ high else low < point && point < high

/-- The point of the grid of the given place that lies in the interval and is nearest to the value,
if there is any. -/
def nearestAt? (interval : Interval) (place : Int) : Option Decimal :=
  let unit := interval.scale * Nat.pow 10 place.toNat
  let factor := Nat.pow 10 (-place).toNat
  let value := interval.value * factor
  let lower := value / unit
  let upper := lower + 1
  match interval.admits factor unit lower, interval.admits factor unit upper with
  | true, true => some ⟨if value - lower * unit < upper * unit - value then lower else upper, place⟩
  | true, false => some ⟨lower, place⟩
  | false, true => some ⟨upper, place⟩
  | false, false => none

/-- The place of the leading digit of the value: the greatest power of ten not above it. -/
def leadingPlace (interval : Interval) : Int :=
  if interval.scale ≤ interval.value then
    ((Nat.toDigits 10 (interval.value / interval.scale)).length : Int) - 1
  else
    -((Nat.toDigits 10 ((interval.scale - 1) / interval.value)).length : Int)

/-- The shortest decimal in the interval.  Seventeen digits tell all doubles apart, so one of the
grids is hit. -/
def shortest (interval : Interval) : Decimal :=
  let found := (List.range 17).findSome? fun (extraDigits : Nat) ↦
    interval.nearestAt? (interval.leadingPlace - extraDigits)
  found.getD ⟨0, 0⟩

end Interval

/-- The digits of a decimal without its trailing zeros. -/
def significantDigits (decimal : Decimal) : List Char :=
  ((Nat.toDigits 10 decimal.digits).reverse.dropWhile (· == '0')).reverse

def leadingPlace (decimal : Decimal) : Int :=
  decimal.place + (Nat.toDigits 10 decimal.digits).length - 1

end Decimal

end SetCover

import SetCover.Cost.Basic

/-!
# Costs of two components

The first component decides; the second breaks ties, as in "fewest cubes, then fewest literals".
-/

namespace SetCover

/-- A cost of two values that are compared lexicographically. -/
structure PairCost where
  primary : Float
  secondary : Float
  deriving DecidableEq

namespace PairCost

/-- The cost with the given values, which must be finite; the first is examined first. -/
def new (primary secondary : Float) : Except Fault PairCost := do
  requireFinite primary
  requireFinite secondary
  return ⟨primary, secondary⟩

def order (left right : PairCost) : Ordering :=
  compareLex (compareOn fun cost : PairCost ↦ totalOrderKey cost.primary)
    (compareOn fun cost : PairCost ↦ totalOrderKey cost.secondary) left right

instance : Std.TransCmp order :=
  inferInstanceAs (Std.TransCmp (compareLex
    (compareOn fun cost : PairCost ↦ totalOrderKey cost.primary)
    (compareOn fun cost : PairCost ↦ totalOrderKey cost.secondary)))

instance : Cost PairCost where
  compare := order
  isLE_trans := (inferInstance : Std.TransCmp order).isLE_trans
  eq_swap := (inferInstance : Std.TransCmp order).eq_swap
  add left right := ⟨left.primary + right.primary, left.secondary + right.secondary⟩
  zero := ⟨0.0, 0.0⟩
  unit := ⟨1.0, 0.0⟩
  dimension := 2
  components cost := [cost.primary, cost.secondary]
  component cost
    | 0 => return cost.primary
    | 1 => return cost.secondary
    | index => throw (.pairComponent index)
  withComponent cost
    | 0, value => do
      requireFinite value
      return { cost with primary := value }
    | 1, value => do
      requireFinite value
      return { cost with secondary := value }
    | index, _ => throw (.pairComponent index)
  scale cost factor := ⟨cost.primary * factor, cost.secondary * factor⟩
  text cost :=
    let primary := Decimal.floatText Decimal.plain cost.primary
    let secondary := Decimal.floatText Decimal.plain cost.secondary
    s!"({primary}, {secondary})"
  debugText cost :=
    let primary := Decimal.floatText Decimal.diagnostic cost.primary
    let secondary := Decimal.floatText Decimal.diagnostic cost.secondary
    s!"Cost2([{primary}, {secondary}])"

end PairCost

end SetCover

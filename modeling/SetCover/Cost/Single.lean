import SetCover.Cost.Basic

/-!
# Costs of one component
-/

namespace SetCover

structure SingleCost where
  value : Float
  deriving DecidableEq

namespace SingleCost

def new (value : Float) : Except Fault SingleCost := do
  requireFinite value
  return ⟨value⟩

/-- Costs are compared by the total order of doubles. -/
def order (left right : SingleCost) : Ordering :=
  compareOn (fun cost : SingleCost ↦ totalOrderKey cost.value) left right

instance : Std.TransCmp order :=
  inferInstanceAs (Std.TransCmp (compareOn fun cost : SingleCost ↦ totalOrderKey cost.value))

/-- Only index `0` names a component. -/
def requireIndex (index : Nat) : Except Fault Unit :=
  if index = 0 then .ok () else .error (.singleComponent index)

instance : Cost SingleCost where
  compare := order
  isLE_trans := (inferInstance : Std.TransCmp order).isLE_trans
  eq_swap := (inferInstance : Std.TransCmp order).eq_swap
  add left right := ⟨left.value + right.value⟩
  zero := ⟨0.0⟩
  unit := ⟨1.0⟩
  dimension := 1
  components cost := [cost.value]
  component cost index := do
    requireIndex index
    return cost.value
  withComponent _ index value := do
    requireIndex index
    requireFinite value
    return ⟨value⟩
  scale cost factor := ⟨cost.value * factor⟩
  text cost := Decimal.floatText Decimal.plain cost.value
  debugText cost :=
    let value := Decimal.floatText Decimal.diagnostic cost.value
    s!"Cost1({value})"

end SingleCost

end SetCover

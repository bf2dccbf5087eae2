import SetCover.Fault

/-!
# Costs

A cost is a short vector of doubles, added component by component.  The search needs no more of it
than a zero, addition and a total order; components and scaling serve those who set costs up.

The order on doubles used throughout is the total one: negative zero comes before zero, and a value
that is not a number equals itself.  A cost never compares its components numerically.
-/

namespace SetCover

/-- The position of a double in the total order of doubles, from the negative values of greatest
magnitude up to the positive ones. -/
def totalOrderKey (value : Float) : UInt64 :=
  let bits := value.toBits
  if bits < 0x8000000000000000 then 0x8000000000000000 + bits else 0xFFFFFFFFFFFFFFFF - bits

/-- What the search and the tables ask of a cost. -/
class Cost (κ : Type) extends Ord κ, Add κ, Std.TransOrd κ where
  /-- The cost of choosing nothing. -/
  zero : κ
  /-- The cost of a column that none was set for. -/
  unit : κ
  dimension : Nat
  components : κ → List Float
  /-- One component; its index must exist. -/
  component : κ → Nat → Except Fault Float
  /-- The cost with one component replaced; the index must exist and the value be finite. -/
  withComponent : κ → Nat → Float → Except Fault κ
  /-- The cost with every component multiplied. -/
  scale : κ → Float → κ
  /-- The text for the reader. -/
  text : κ → String
  debugText : κ → String

namespace Cost

variable {κ : Type} [Cost κ]

instance (priority := low) : LE κ := leOfOrd

instance (priority := low) : LT κ := ltOfOrd

instance (priority := low) : DecidableLE κ :=
  fun left right ↦ inferInstanceAs (Decidable ((compare left right).isLE = true))

instance (priority := low) : DecidableLT κ :=
  fun left right ↦ inferInstanceAs (Decidable (compare left right = .lt))

/-- The greater of two costs, the second if they are equal. -/
def max (left right : κ) : κ :=
  if left ≤ right then right else left

/-- The smaller of two costs, the first if they are equal. -/
def min (left right : κ) : κ :=
  if left ≤ right then left else right

/-- The costs in ascending order, equal ones in the order in which they were given. -/
def sorted (costs : List κ) : List κ :=
  costs.mergeSort fun left right ↦ left ≤ right

/-- The sum of the costs, added from the left to the cost at the start. -/
def sumFrom (start : κ) (costs : List κ) : κ :=
  costs.foldl (· + ·) start

@[simp]
theorem sumFrom_nil (start : κ) : sumFrom start [] = start := rfl

@[simp]
theorem sumFrom_cons (start cost : κ) (costs : List κ) :
    sumFrom start (cost :: costs) = sumFrom (start + cost) costs := rfl

theorem sumFrom_append (start : κ) (first second : List κ) :
    sumFrom start (first ++ second) = sumFrom (sumFrom start first) second :=
  List.foldl_append

end Cost

def requireFinite (value : Float) : Except Fault Unit :=
  if value.isFinite then .ok () else .error (.notFinite value)

end SetCover

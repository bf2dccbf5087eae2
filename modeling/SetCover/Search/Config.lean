/-!
# Settings and statistics of a search
-/

namespace SetCover

/-- Switches for the rules that make a search smaller.  Every setting finds an optimal cover. -/
structure Config where
  rowDominance : Bool
  columnDominance : Bool
  essentialColumns : Bool
  lowerBound : Bool
  deriving DecidableEq, Repr

namespace Config

def full : Config := ⟨true, true, true, true⟩

/-- No rules: plain branching. -/
def exhaustive : Config := ⟨false, false, false, false⟩

/-- The setting whose switches are the lowest four bits of a number. -/
def ofBits (bits : Nat) : Config where
  rowDominance := bits.testBit 0
  columnDominance := bits.testBit 1
  essentialColumns := bits.testBit 2
  lowerBound := bits.testBit 3

end Config

structure Stats where
  nodes : Nat
  /-- The nodes that had no row left to cover. -/
  leaves : Nat
  pruned : Nat
  maxDepth : Nat
  dominatedRows : Nat
  dominatedColumns : Nat
  /-- The columns chosen because a row had no other. -/
  essentialColumns : Nat
  deriving DecidableEq, Repr

def Stats.zero : Stats := ⟨0, 0, 0, 0, 0, 0, 0⟩

end SetCover

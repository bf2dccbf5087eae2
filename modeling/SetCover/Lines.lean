import SetCover.Links

/-!
# The lines of one axis

All lines of one axis of a table, say all rows.  Every line has a ring with its cells and a count of
them, and the active lines form a ring of their own, in ascending order.

The nodes of the rings are numbered so that node `index` heads the ring of that line and the cell in
slot `slot` of the table is node `size + slot`.  The ring of the active lines is headed by node
`size`.
-/

namespace SetCover

/-- The lines of one axis. -/
structure Lines where
  size : Nat
  /-- The number of cells of every line. -/
  counts : Array Nat
  /-- Whether every line is active. -/
  flags : Array Bool
  /-- The ring of the active lines. -/
  chain : Links
  /-- The rings of the cells. -/
  rings : Links
  deriving DecidableEq

namespace Lines

def empty (size : Nat) : Lines where
  size := size
  counts := Array.replicate size 0
  flags := Array.replicate size false
  chain := Links.isolated (size + 1)
  rings := Links.isolated size

def count (lines : Lines) (index : Nat) : Nat := lines.counts.getD index 0

def isActive (lines : Lines) (index : Nat) : Bool := lines.flags.getD index false

def active (lines : Lines) : List Nat := lines.chain.ring lines.size

def first? (lines : Lines) : Option Nat :=
  let index := lines.chain.next lines.size
  if index = lines.size then none else some index

def node (lines : Lines) (slot : Nat) : Nat := lines.size + slot

def slots (lines : Lines) (index : Nat) : List Nat :=
  (lines.rings.ring index).map (· - lines.size)

def slotsBack (lines : Lines) (index : Nat) : List Nat :=
  (lines.rings.ringBack index).map (· - lines.size)

/-! ## Active lines -/

/-- Takes a line out of the ring of the active lines. -/
def deactivate (lines : Lines) (index : Nat) : Lines :=
  { lines with
    flags := lines.flags.setIfInBounds index false
    chain := lines.chain.detach index }

/-- Puts a line back to where it was in the ring of the active lines. -/
def reactivate (lines : Lines) (index : Nat) : Lines :=
  { lines with
    flags := lines.flags.setIfInBounds index true
    chain := lines.chain.reattach index }

/-- Puts a line at its place in the ring of the active lines, unless it is there already. -/
def activate? (lines : Lines) (index : Nat) : Option Lines :=
  (lines.chain.gap? id lines.size index).map fun (left, right) ↦
    { lines with
      flags := lines.flags.setIfInBounds index true
      chain := lines.chain.insertBetween left index right }

/-! ## Cells -/

/-- The nodes between which a cell belongs in the ring of a line, where `rank` gives the position of
every slot. -/
def gap? (lines : Lines) (rank : Nat → Nat) (index position : Nat) : Option (Nat × Nat) :=
  lines.rings.gap? (fun node ↦ rank (node - lines.size)) index position

/-- Puts a new cell of a line between two nodes of its ring. -/
def attach (lines : Lines) (index slot : Nat) (gap : Nat × Nat) : Lines :=
  let rings := lines.rings.reserve (lines.node slot)
  { lines with
    counts := lines.counts.modify index (· + 1)
    rings := rings.insertBetween gap.1 (lines.node slot) gap.2 }

/-- Takes a cell out of the ring of its line. -/
def drop (lines : Lines) (index slot : Nat) : Lines :=
  { lines with
    counts := lines.counts.modify index (· - 1)
    rings := lines.rings.detach (lines.node slot) }

/-- Puts a dropped cell back to where it was in the ring of its line. -/
def recover (lines : Lines) (index slot : Nat) : Lines :=
  { lines with
    counts := lines.counts.modify index (· + 1)
    rings := lines.rings.reattach (lines.node slot) }

end Lines

end SetCover

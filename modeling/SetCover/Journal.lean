import SetCover.Cost.Basic
import SetCover.Graph.Clique
import SetCover.Line

/-!
# The journal of what was done

Tables and searches report what they do as events.  A journal keeps them while it is recording; its
text is made only when it is read.
-/

namespace SetCover

inductive Level where
  | info
  | debug
  | trace
  deriving DecidableEq, Repr

def Level.text : Level → String
  | info => "INFO"
  | debug => "DEBUG"
  | trace => "TRACE"

inductive Event (κ : Type) where
  | deleted (line : Line)
  | restored (line : Line)
  | selected (column : Nat)
  | backedUp (depth : Nat)
  | restoring (depth : Nat)
  | picked (pick : Pick)
  | cliqueGrown (nodes : Nat) (cost : κ)
  | bounded (bound : κ) (chosen rows : Nat)
  | rowContains (row contained : Nat)
  | columnDominated (column dominator : Nat)
  | columnEssential (column row : Nat)
  | incumbent (cost : κ) (depth : Nat)
  | pruned (depth : Nat) (bound : κ)
  | branched (column depth : Nat) (forced : Bool)
  | uncoverable (row : Nat)
  | solved (cost : κ) (columns nodes pruned depth : Nat)
  deriving DecidableEq

namespace Event

variable {κ : Type}

def level : Event κ → Level
  | deleted _ => .trace
  | restored _ => .trace
  | solved .. => .info
  | _ => .debug

def message [Cost κ] : Event κ → String
  | deleted line => s!"delete_{line.axis.tag}({line.index})"
  | restored line => s!"restore_{line.axis.tag}({line.index})"
  | selected column => s!"select_col({column})"
  | backedUp depth => s!"backup(depth = {depth})"
  | restoring depth => s!"restore(depth = {depth})"
  | picked pick => s!"clique: add node {pick.node} ({pick.candidates} candidates)"
  | cliqueGrown nodes cost => s!"clique: {nodes} nodes, cost {Cost.debugText cost}"
  | bounded bound chosen rows =>
    s!"lower_bound: {Cost.debugText bound} from {chosen} of {rows} rows"
  | rowContains row contained => s!"row_dominance: row {row} contains row {contained}"
  | columnDominated column dominator =>
    s!"col_dominance: column {column} dominated by column {dominator}"
  | columnEssential column row =>
    s!"essential_col: column {column} is the only cover of row {row}"
  | incumbent cost depth => s!"search: new incumbent {Cost.debugText cost} at depth {depth}"
  | pruned depth bound => s!"search: prune at depth {depth} (bound {Cost.debugText bound})"
  | branched column depth forced =>
    s!"search: branch on column {column} at depth {depth} (forced = {forced})"
  | uncoverable row => s!"solve: row {row} has no covering column"
  | solved cost columns nodes cutOff depth =>
    let counts := s!"({nodes} nodes, {cutOff} pruned, depth {depth})"
    s!"solve: cost {Cost.debugText cost} with {columns} columns {counts}"

def text [Cost κ] (event : Event κ) : String :=
  event.level.text ++ " " ++ event.message

/-- The growth of a clique: the picks after the first and the sum.  There is nothing to report of a
graph without nodes. -/
def ofClique (clique : Clique κ) : List (Event κ) :=
  match clique.picks with
  | [] => []
  | _ :: later => later.map picked ++ [cliqueGrown clique.picks.length clique.cost]

end Event

structure Journal (κ : Type) where
  recording : Bool
  /-- The events since the journal was last read, the latest first. -/
  events : List (Event κ)
  deriving DecidableEq

namespace Journal

variable {κ : Type}

def empty (recording : Bool) : Journal κ := ⟨recording, []⟩

/-- Notes events in order, if the journal is recording. -/
def add (journal : Journal κ) (events : List (Event κ)) : Journal κ :=
  if journal.recording then { journal with events := events.reverse ++ journal.events } else journal

def messages [Cost κ] (journal : Journal κ) : List String :=
  journal.events.reverse.map Event.text

/-- The journal after it has been read. -/
def cleared (journal : Journal κ) : Journal κ := { journal with events := [] }

end Journal

end SetCover

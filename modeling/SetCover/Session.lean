import SetCover.Matrix.Consistency
import SetCover.Matrix.Text
import SetCover.Search.Branching

/-!
# Sessions

A session runs a list of commands on one table: changes, queries, single rules of the search and
whole searches.  Tables and snapshots can be kept under names.

Commands can be nested between a marker and its restoration in two ways.  A checkpoint runs all of its
commands, whatever happens to any of them.  A scope ends with the first command that is refused, and
takes back what was done until then.
-/

namespace SetCover

inductive Command where
  | insert (row column : Nat)
  | setCost (column component : Nat) (value : Float)
  | delete (line : Line)
  | select (column : Nat)
  | backup
  | restore
  | clear
  | resize (rowSize columnSize dimension : Nat)
  | sizes
  | count (line : Line)
  | isActive (line : Line)
  | cost (column : Nat)
  | crossing (line : Line)
  | first (axis : Axis)
  | counts
  | isEmpty
  | text
  | debugText
  | check
  | snapshot
  | contains (row column : Nat)
  | keepSnapshot (name : String)
  | sameSnapshot (name : String)
  | save (name : String)
  | load (name : String)
  | configure (config : Config)
  | rowDominance
  | columnDominance
  | essentialColumns
  | reduce
  | lowerBound
  | stats
  | solve
  | checkpoint (body : List Command)
  | scope (body : List Command)

mutual

inductive Reply (κ : Type) where
  | done
  | flag (value : Bool)
  | number (value : Nat)
  | first (index : Option Nat)
  | numbers (values : List Nat)
  | cost (value : κ)
  | text (value : String)
  | check (defect : Option Matrix.Defect)
  | image (snapshot : Snapshot κ)
  | reduction (outcome : Reduction)
  | stats (value : Stats)
  | answer (value : Answer κ) (stats : Stats)
  | refused (fault : Fault)
  | nested (steps : List (Step κ))
  | interrupted (steps : List (Step κ)) (fault : Fault)

/-- A command that was carried out: the reply, the table afterwards and the messages since the step
before. -/
inductive Step (κ : Type) where
  | mk (reply : Reply κ) (matrix : Matrix κ) (messages : List String)

end

namespace Step

variable {κ : Type}

def reply : Step κ → Reply κ
  | mk reply _ _ => reply

def matrix : Step κ → Matrix κ
  | mk _ matrix _ => matrix

/-- The messages since the step before. -/
def messages : Step κ → List String
  | mk _ _ messages => messages

end Step

structure Session (κ : Type) where
  bench : Workbench κ
  config : Config
  /-- The columns that the rules have chosen since the search was configured. -/
  selected : List Nat
  /-- The tables that are kept, the latest first. -/
  matrices : List (String × Matrix κ)
  /-- The snapshots that are kept, the latest first. -/
  snapshots : List (String × Snapshot κ)

namespace Session

variable {κ α : Type}

abbrev Call (κ : Type) (α : Type) := EStateM Fault (Session κ) α

def start (matrix : Matrix κ) (config : Config) (recording : Bool) : Session κ where
  bench := ⟨matrix, Stats.zero, Journal.empty recording⟩
  config := config
  selected := []
  matrices := []
  snapshots := []

def work (call : Work κ α) : Call κ α :=
  fun ⟨bench, config, selected, matrices, snapshots⟩ ↦
    match call bench with
    | .ok result bench => .ok result ⟨bench, config, selected, matrices, snapshots⟩
    | .error fault bench => .error fault ⟨bench, config, selected, matrices, snapshots⟩

def edit (change : Matrix.Edit κ α) : Call κ α := work (Workbench.edit change)

/-- Asks the table, which needs the given line for it. -/
def query (line : Line) (answer : Matrix κ → α) : Call κ α := do
  edit (Matrix.requireLine line)
  return answer (← get).bench.matrix

def view (answer : Matrix κ → α) : Call κ α := do
  return answer (← get).bench.matrix

/-- Adds columns to those that the rules have chosen. -/
def choose (reduction : Reduction) : Call κ (Reply κ) := do
  modify fun session ↦ { session with selected := session.selected ++ reduction.selected }
  return .reduction ⟨reduction.changed, (← get).selected⟩

/-- Carries out a command that has no commands nested in it. -/
def call [Cost κ] : Command → Call κ (Reply κ)
  | .insert row column => return .flag (← edit (Matrix.insert row column))
  | .setCost column component value => do
    edit (Matrix.setCost column component value)
    return .done
  | .delete line => do
    work (Workbench.delete line)
    return .done
  | .select column => do
    work (Workbench.select column)
    return .done
  | .backup => do
    work Workbench.backup
    return .done
  | .restore => do
    work Workbench.restore
    return .done
  | .clear => do
    edit (modify Matrix.clear)
    return .done
  | .resize rowSize columnSize dimension => do
    edit (Matrix.resize rowSize columnSize dimension)
    return .done
  | .sizes => return .numbers (← view fun matrix ↦
      [matrix.rowSize, matrix.columnSize, Cost.dimension κ])
  | .count line => return .number (← query line (·.count line))
  | .isActive line => return .flag (← query line (·.isActive line))
  | .cost column => return .cost (← query (.column column) (·.costOf column))
  | .crossing line => return .numbers (← query line (·.crossing line))
  | .first axis => return .first (← view fun matrix ↦ (matrix.lines axis).first?)
  | .counts => return .numbers (← view fun matrix ↦
      [matrix.activeRows.length, matrix.activeColumns.length, matrix.cellCount, matrix.depth])
  | .isEmpty => return .flag (← view Matrix.isEmpty)
  | .text => return .text (← view Matrix.text)
  | .debugText => return .text (← view Matrix.debugText)
  | .check => return .check (← view fun matrix ↦
      match matrix.check with
      | .ok _ => none
      | .error defect => some defect)
  | .snapshot => return .image (← view Matrix.snapshot)
  | .contains row column => return .flag (← view fun matrix ↦ matrix.snapshot.contains row column)
  | .keepSnapshot name => do
    let snapshot ← view Matrix.snapshot
    modify fun session ↦ { session with snapshots := (name, snapshot) :: session.snapshots }
    return .done
  | .sameSnapshot name => do
    let snapshot ← view Matrix.snapshot
    match (← get).snapshots.lookup name with
    | none => return .flag false
    | some kept => return .flag (kept.same snapshot)
  | .save name => do
    modify fun session ↦
      { session with matrices := (name, session.bench.matrix) :: session.matrices }
    return .done
  | .load name => do
    match (← get).matrices.lookup name with
    | none => return .done
    | some kept =>
      edit (set kept)
      return .done
  | .configure config => do
    work (Workbench.count fun _ ↦ Stats.zero)
    modify fun session ↦ { session with config := config, selected := [] }
    return .done
  | .rowDominance => return .flag (← work Workbench.rowDominance)
  | .columnDominance => return .flag (← work Workbench.columnDominance)
  | .essentialColumns => do choose (← work Workbench.essentialColumns)
  | .reduce => do choose (← work (Workbench.reduce (← get).config))
  | .lowerBound => return .cost (← work Workbench.lowerBound)
  | .stats => return .stats (← get).bench.stats
  | .solve => do
    let answer ← work (Workbench.solve (← get).config)
    return .answer answer (← get).bench.stats
  | .checkpoint _ => return .done
  | .scope _ => return .done

/-- The step that ends with a reply; its messages are read off the journal. -/
def finish [Cost κ] (session : Session κ) (reply : Reply κ) : Step κ × Session κ :=
  let bench := session.bench
  (⟨reply, bench.matrix, bench.journal.messages⟩,
    { session with bench := { bench with journal := bench.journal.cleared } })

def enter (session : Session κ) : Session κ :=
  { session with bench :=
      match Workbench.backup session.bench with
      | .ok _ bench => bench
      | .error _ bench => bench }

/-- Takes back what nested commands did.  If one of them ended the nesting by being refused, its
fault is the one that is reported. -/
def leave (session : Session κ) (steps : List (Step κ)) (ended : Option Fault) :
    Reply κ × Session κ :=
  match work Workbench.restore session, ended with
  | .ok _ session, none => (.nested steps, session)
  | .error fault session, none => (.interrupted steps fault, session)
  | .ok _ session, some fault => (.interrupted steps fault, session)
  | .error _ session, some fault => (.interrupted steps fault, session)

mutual

/-- Carries out a command.  A fault of a nested command is part of the reply. -/
def perform [Cost κ] : Command → Session κ → Except Fault (Reply κ) × Session κ
  | .checkpoint body, session =>
    let (steps, ended, session) := performAll false body session.enter
    let (reply, session) := session.leave steps ended
    (.ok reply, session)
  | .scope body, session =>
    let (steps, ended, session) := performAll true body session.enter
    let (reply, session) := session.leave steps ended
    (.ok reply, session)
  | command, session =>
    match call command session with
    | .ok reply session => (.ok reply, session)
    | .error fault session => (.error fault, session)

/-- Carries out commands one after the other, either all of them or until one is refused. -/
def performAll [Cost κ] (untilFault : Bool) :
    List Command → Session κ → List (Step κ) × Option Fault × Session κ
  | [], session => ([], none, session)
  | command :: commands, session =>
    let (outcome, session) := perform command session
    match outcome with
    | .error fault =>
      if untilFault then
        ([], some fault, session)
      else
        let (step, session) := session.finish (.refused fault)
        let (steps, ended, session) := performAll untilFault commands session
        (step :: steps, ended, session)
    | .ok reply =>
      let (step, session) := session.finish reply
      let (steps, ended, session) := performAll untilFault commands session
      (step :: steps, ended, session)

end

def run [Cost κ] (session : Session κ) (commands : List Command) : List (Step κ) :=
  (performAll false commands session).1

end Session

end SetCover

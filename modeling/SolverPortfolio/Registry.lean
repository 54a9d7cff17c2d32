import SolverPortfolio.Run
import SolverPortfolio.Text

/-!
# Solvers

How a registered solver is run, and what its output says.
-/

namespace SolverPortfolio

/-!
## Output of solvers

Solvers of both competitions report a status after an `s` at the start of a
line, and the tokens of a certificate after every `v` at the start of a line.
Output is searched as one text, by two patterns which take the blanks up to the
end of a line, and of blank lines that follow. Output counts only after an exit
with one of the standard codes.
-/

/-- What a family of solvers means by its output. -/
inductive OutputFormat where
  | satCompetition
  | pbCompetition
deriving DecidableEq

/-- The statuses a solver can report. -/
inductive SolverStatus where
  | satisfiable
  | unsatisfiable
  | optimumFound
  | unknown
  | unsupported
deriving DecidableEq

namespace SolverStatus

def all : List SolverStatus :=
  [.satisfiable, .unsatisfiable, .optimumFound, .unknown, .unsupported]

def phrase : SolverStatus → String
  | .satisfiable => "SATISFIABLE"
  | .unsatisfiable => "UNSATISFIABLE"
  | .optimumFound => "OPTIMUM FOUND"
  | .unknown => "UNKNOWN"
  | .unsupported => "UNSUPPORTED"

end SolverStatus

namespace SolverOutput

open Text Text.Pattern

/-- One space or more. -/
def spaces {α : Type} (next : Pattern α) : Pattern α := char ' ' (many (· == ' ') next)

def blanksToLineEnd : Pattern Unit := many isBlank lineEnd

def statusLine : Pattern SolverStatus :=
  char 's' (spaces (oneOf SolverStatus.all SolverStatus.phrase blanksToLineEnd))

def valueLine : Pattern (List Char) :=
  char 'v' (spaces (few (· != '\n') blanksToLineEnd))

/-- The first status in the output. -/
def status? (output : String) : Option SolverStatus := (findAll statusLine output).head?

/-- The tokens of all values, in order. -/
def certificate (output : String) : List String :=
  ((findAll valueLine output).flatMap words).map String.ofList

end SolverOutput

namespace OutputFormat

open SolverOutput

/-- The outcome a status stands for. A pseudo-Boolean solver is believed only
with a certificate, and may call its solution optimal. -/
def judge : OutputFormat → SolverStatus → List String → Outcome
  | _, .unsatisfiable, _ => .negative
  | .satCompetition, .satisfiable, [] => .positive none
  | .satCompetition, .satisfiable, tokens => .positive (some tokens)
  | .pbCompetition, .satisfiable, [] => .unsolved
  | .pbCompetition, .satisfiable, tokens => .positive (some tokens)
  | .pbCompetition, .optimumFound, [] => .unsolved
  | .pbCompetition, .optimumFound, tokens => .positive (some tokens)
  | _, _, _ => .unsolved

def read (format : OutputFormat) (output : String) : Outcome :=
  match status? output with
  | none => .unsolved
  | some status => format.judge status (certificate output)

/-- The exit codes after which output is meaningful. -/
def standardCodes : List Int := [0, 10, 20]

/-- The outcome of a finished run. -/
def outcome (format : OutputFormat) (output : String) : Termination → Outcome
  | .exited code => if standardCodes.contains code then format.read output else .unsolved
  | _ => .unsolved

end OutputFormat

/-!
## Registered solvers

A solver is run by a command: a program, its arguments with places for the
task, the seed and the budget, and the format of its output. A registry holds
one command for every solver name, in the order of the names.
-/

structure SolverCommand where
  name : String
  program : String
  arguments : List String
  format : OutputFormat
deriving DecidableEq

namespace SolverCommand

def taskPlace : String := "\x7btask\x7d"

def seedPlace : String := "\x7bseed\x7d"

def budgetPlace : String := "\x7bbudget\x7d"

/-- Fill in the places of one argument: first every task, then every seed, then
every budget. Each pass goes over what the passes before it have put in. -/
def renderArgument (task : String) (seed budget : Nat) (argument : String) : String :=
  let withTask := Text.replaceAll taskPlace task argument
  let withSeed := Text.replaceAll seedPlace (toString seed) withTask
  Text.replaceAll budgetPlace (toString budget) withSeed

def render (c : SolverCommand) (task : String) (seed budget : Nat) : List String :=
  c.arguments.map (renderArgument task seed budget)

end SolverCommand

inductive RegistryError where
  | unnamed
  | duplicate (name : String)

namespace RegistryError

def message : RegistryError → String
  | .unnamed => "Solver entries need a name and a program"
  | .duplicate name => "Duplicate solver in registry: " ++ name

end RegistryError

/-- Commands under their solver names, sorted. -/
structure Registry where
  commands : List (String × SolverCommand)

namespace Registry

def empty : Registry := ⟨[]⟩

def names (r : Registry) : List String := r.commands.map Prod.fst

def resolve? (r : Registry) (solver : String) : Option SolverCommand := r.commands.lookup solver

/-- A command replaces an older one of its name. -/
def insert (r : Registry) (c : SolverCommand) : Registry :=
  ⟨insertSorted c.name c r.commands⟩

/-- Register a new solver. -/
def add (r : Registry) (c : SolverCommand) : Except RegistryError Registry :=
  if c.name = "" ∨ c.program = "" then .error .unnamed
  else if (r.resolve? c.name).isSome then .error (.duplicate c.name)
  else .ok (r.insert c)

def ofCommands (cs : List SolverCommand) : Except RegistryError Registry :=
  cs.foldlM add empty

end Registry

end SolverPortfolio

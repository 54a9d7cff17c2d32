import SolverPortfolio.Counts
import SolverPortfolio.Error
import SolverPortfolio.Run

/-!
# Ladders and worlds

The ceilings runs are given, and the actions that solvers and ceilings make up.
-/

namespace SolverPortfolio

/-!
## The budget ladder

Ceilings are the whole multiples of a step, up to a number of rungs. Lookups
allow a relative slack of `tolerance`, because the ceilings a caller holds may
have been computed another way.
-/

structure Ladder (α : Type) where
  step : α
  size : Nat

namespace Ladder

open Scalar

variable {α : Type} [Scalar α]

def tolerance : α := 1e-9

/-- The ceiling of a rung, counted from zero. -/
def budget (l : Ladder α) (rung : Nat) : α := l.step * ofNat (rung + 1)

def budgets (l : Ladder α) : List α := (List.range l.size).map l.budget

/-! ### Building -/

/-- The step is a usable spacing and there is at least one rung. -/
def isSound (l : Ladder α) : Bool := isPositiveFinite l.step && l.size != 0

def check (l : Ladder α) : Decision α Unit :=
  if l.isSound then .ok () else .error (.invalidLadder [l.step])

def uniform (step : α) (size : Nat) : Decision α (Ladder α) :=
  (check ⟨step, size⟩).map fun _ => ⟨step, size⟩

/-- The ceiling `b` stands on `rung` of the ladder with this step. -/
def standsOn (step : α) (b : α) (rung : Nat) : Bool :=
  let expected := step * ofNat (rung + 1)
  isFinite b && !decide (tolerance * expected < Scalar.abs (b - expected))

/-- The ceilings stand on consecutive rungs, from `rung` on. -/
def allStand (step : α) : Nat → List α → Bool
  | _, [] => true
  | rung, b :: bs => standsOn step b rung && allStand step (rung + 1) bs

/-- The ladder with the given ceilings; the first one is the step. -/
def ofBudgets : List α → Decision α (Ladder α)
  | [] => .error (.invalidLadder [])
  | step :: rest =>
    if isPositiveFinite step && allStand step 0 (step :: rest) then
      .ok ⟨step, (step :: rest).length⟩
    else .error (.invalidLadder (step :: rest))

/-! ### Lookups -/

/-- A ceiling this many steps up counts as off the ladder. Written so that a
position that is not a number does not count as off. -/
def isOff (position : α) : Bool :=
  decide (round position < 1) ||
    decide (tolerance * Scalar.max position 1 < Scalar.abs (position - round position))

/-- The rung whose ceiling is `b`. -/
def rungOf? (l : Ladder α) (b : α) : Option Nat :=
  let position := b / l.step
  if isOff position then none
  else
    match wholePart (round position) with
    | 0 => none
    | rung + 1 => if rung < l.size then some rung else none

/-- The lookup as it counts: a rung is one less than the steps up to it, and there is nothing less
than none. -/
def lookup? (l : Ladder α) (b : α) : Option (Option Nat) :=
  let position := b / l.step
  if isOff position then some none
  else do
    let rung ← minus? (wholePart (round position)) 1
    return if rung < l.size then some rung else none

/-- How many steps fit into a budget. -/
def slotsWithin (l : Ladder α) (remaining : α) : Nat :=
  if isPositiveFinite remaining then
    let slots := remaining / l.step
    wholePart (slots + tolerance * Scalar.max slots 1)
  else 0

end Ladder

/-!
## Worlds

A world is the vocabulary of actions: every solver on every rung of the ladder,
solver by solver. Count arrays, tables and plans are indexed by it.

A recorded run says something about every rung up to the budget it was given:
it would have been solved there if it was solved within that rung's ceiling
(`World.expand`). Rungs above its budget are left untouched.
-/

structure World (α : Type) where
  solvers : List String
  ladder : Ladder α

namespace World

open Scalar

variable {α : Type} [Scalar α]

/-- The first name that occurred before, given the names seen so far. -/
def firstRepeat? : List String → List String → Option String
  | _, [] => none
  | seen, s :: rest => if seen.contains s then some s else firstRepeat? (s :: seen) rest

/-- Solvers are named once each, and the ladder is sound. -/
def check (w : World α) : Decision α Unit :=
  if w.solvers.isEmpty then .error (.invalidModel .noSolvers)
  else
    match firstRepeat? [] w.solvers with
    | some s => .error (.invalidModel (.duplicateSolver s))
    | none => w.ladder.check

def build (solvers : List String) (ladder : Ladder α) : Decision α (World α) :=
  (check ⟨solvers, ladder⟩).map fun _ => ⟨solvers, ladder⟩

/-! ### Indices -/

def nsolvers (w : World α) : Nat := w.solvers.length

def nbudgets (w : World α) : Nat := w.ladder.size

def nactions (w : World α) : Nat := w.nsolvers * w.nbudgets

def noutcomes (_ : World α) : Nat := OutcomeKind.count

def index (w : World α) (solver rung : Nat) : Nat := solver * w.nbudgets + rung

/-- The solver and the rung of an action. -/
def splitIndex (w : World α) (action : Nat) : Nat × Nat :=
  (action / w.nbudgets, action % w.nbudgets)

def solverIndex? (w : World α) (solver : String) : Option Nat := w.solvers.idxOf? solver

/-- The action with a given index. -/
def action (w : World α) (i : Nat) : Action α :=
  let (solver, rung) := w.splitIndex i
  Action.run (w.solvers.getD solver "") (w.ladder.budget rung)

def actions (w : World α) : List (Action α) := (List.range w.nactions).map w.action

def actionIndex? (w : World α) (a : Action α) : Option Nat := do
  let solver ← w.solverIndex? a.solver
  let rung ← w.ladder.rungOf? a.cost
  return w.index solver rung

/-- Look an action up. -/
def findAction (w : World α) (a : Action α) : Decision α (Option Nat) :=
  match w.solverIndex? a.solver with
  | none => .ok none
  | some s => (Decision.inWords (w.ladder.lookup? a.cost)).map fun rung => rung.map (w.index s)

/-- The solver and rung pairs on the first `rungs` rungs, in index order. -/
def choices (w : World α) (rungs : Nat) : List (Nat × Nat) :=
  (List.range w.nsolvers).flatMap fun s => (List.range rungs).map fun r => (s, r)

/-- The indices of the actions that fit into a budget. -/
def actionsWithin (w : World α) (remaining : α) : List Nat :=
  (w.choices (min (w.ladder.slotsWithin remaining) w.nbudgets)).map fun (s, r) => w.index s r

/-! ### Counting -/

def noCounts (w : World α) : Counts := Counts.zeros w.nactions w.noutcomes

def addEvent (w : World α) (c : Counts) (event : Action α × OutcomeKind) : Decision α Counts :=
  match w.findAction event.1 with
  | .ok (some i) => Decision.inWords (c.record i event.2)
  | .ok none => .error (.unknownAction event.1.description)
  | .error e => .error e

def countsFromEvents (w : World α) (events : List (Action α × OutcomeKind)) :
    Decision α Counts :=
  events.foldlM w.addEvent w.noCounts

/-- Slack on recorded budgets and costs. -/
def slack : α := 1 + 1e-9

/-- The run was given enough to say something about this rung. -/
def reaches (w : World α) (run : RecordedRun α) (rung : Nat) : Bool :=
  !decide (run.budget * slack < w.ladder.budget rung)

/-- The kind of outcome a run stands for on a rung it reaches. -/
def kindAt (w : World α) (run : RecordedRun α) (rung : Nat) : OutcomeKind :=
  if run.outcome.isSolved && decide (run.cost ≤ w.ladder.budget rung * slack) then
    run.outcome.kind
  else .unsolved

/-- The rungs a run says something about: those below the first one it does not
reach. -/
def reached (w : World α) (run : RecordedRun α) : List Nat :=
  (List.range w.nbudgets).takeWhile (w.reaches run)

/-- Count a run of the solver with index `solver` on every rung it reaches. -/
def expand (w : World α) (solver : Nat) (run : RecordedRun α) (c : Counts) : Option Counts :=
  (w.reached run).foldlM (fun c r => c.record (w.index solver r) (w.kindAt run r)) c

def addRun (w : World α) (c : Counts) (run : RecordedRun α) : Decision α Counts :=
  match w.solverIndex? run.solver with
  | some s => Decision.inWords (w.expand s run c)
  | none => .error (.unknownSolver run.solver)

def countsFromRuns (w : World α) (runs : List (RecordedRun α)) : Decision α Counts :=
  runs.foldlM w.addRun w.noCounts

end World

end SolverPortfolio

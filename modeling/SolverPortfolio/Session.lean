import SolverPortfolio.Scalar
import SolverPortfolio.Session.Service
import SolverPortfolio.Strategy

/-!
# Solving a task

What a session has spent, and the session itself.
-/

namespace SolverPortfolio

/-!
## Budget bookkeeping

A ledger adds up what a session has spent. Only finite positive costs are
charged, and the remaining budget never falls below zero.

The session's own processor time may count too. It is measured from a reading
of the clock at the start, and is as old as the last reading; when the clock
cannot be read it is zero.
-/

structure Ledger (α : Type) where
  budget : α
  spent : α
  startedAt : Option α
  overhead : α

namespace Ledger

variable {α : Type} [Scalar α]

/-- A ledger without costs. Its own time counts from `now`, if that is known. -/
def start (budget : α) (now : Option α) : Ledger α := ⟨budget, 0, now, 0⟩

def charge (l : Ledger α) (cost : α) : Ledger α :=
  if Scalar.isPositiveFinite cost then { l with spent := l.spent + cost } else l

/-- Processor time between two readings. -/
def timeBetween : Option α → Option α → α
  | some start, some now => Scalar.max (now - start) 0
  | _, _ => 0

/-- Take in a reading of the clock. -/
def look (l : Ledger α) (now : Option α) : Ledger α :=
  { l with overhead := timeBetween l.startedAt now }

def elapsed (l : Ledger α) : α := l.spent + l.overhead

def remaining (l : Ledger α) : α := Scalar.max (l.budget - l.elapsed) 0

end Ledger

/-!
## Sessions

A session solves one task within a budget. A preprocessor, if there is one,
goes first and may solve the task or hand over a simpler one. The features of
the task at hand are computed unless it has them already. Then actions are
selected, run and observed in turn, until one solves the task, none fits, the
budget is used up or the limit on invocations is reached. A positive answer for
a simpler task is turned into one for the task it was made of.
-/

inductive SessionError (α : Type) where
  | decision (error : PortfolioError α)
  | harness (task action : String) (error : HarnessError α)
  | features (task : String) (error : FeatureError)
  | preprocess (task : String) (error : PreprocessError)

namespace SessionError

variable {α : Type} [Scalar α]

def message : SessionError α → String
  | .decision e => e.message
  | .harness task action e =>
    "Harness failed running " ++ action ++ " on task " ++ task ++ ": " ++ e.message
  | .features task e => "Feature extraction failed for task " ++ task ++ ": " ++ e.message
  | .preprocess task e => "Preprocessing failed for task " ++ task ++ ": " ++ e.message

end SessionError

namespace Session

variable {α σ : Type} [Analytic α]

/-! ### Features -/

/-- The task with its features, and the cost of the features if they were
computed now. A task that has features keeps them and costs nothing. -/
def ensureFeatures (services : Services α σ) (task : Task α) (s : σ) :
    Except (SessionError α) α × Task α × σ :=
  match task.features with
  | some _ => (.ok 0, task, s)
  | none =>
    match services.features task s with
    | (.error e, s) => (.error (.features task.id e), task, s)
    | (.ok v, s) => (.ok v.cost, { task with features := some v }, s)

/-! ### Costs -/

/-- The ledger of a new session. A session that charges its own time reads the clock. -/
def openLedger (services : Services α σ) (settings : SessionSettings) (budget : α) (s : σ) :
    Ledger α × σ :=
  if settings.chargeOverhead then
    let (now, s) := services.clock s
    (.start budget now, s)
  else (.start budget none, s)

/-- The ledger with the session's own time up to now, if that is charged. -/
def upToDate (services : Services α σ) (settings : SessionSettings) (ledger : Ledger α) (s : σ) :
    Ledger α × σ :=
  if settings.chargeOverhead then
    let (now, s) := services.clock s
    (ledger.look now, s)
  else (ledger, s)

/-! ### The loop -/

variable [GammaFunctions α]

/-- How a round comes out: the loop ends with an answer, without one or by an error, or
an action was run and its outcome observed. -/
inductive Round (α : Type) where
  | ended (ending : Except (SessionError α) (Option Outcome))
  | attempted (attempt : Attempt α) (strategy : Strategy α)

/-- Run an action that was selected, and let the strategy observe its outcome. -/
def attempt (services : Services α σ) (task : Task α) (strategy : Strategy α)
    (action : Action α) (ledger : Ledger α) (s : σ) : Round α × Ledger α × σ :=
  match services.run action task s with
  | (.error e, s) => (.ended (.error (.harness task.id action.description e)), ledger, s)
  | (.ok result, s) =>
    let ledger := ledger.charge result.cost
    match strategy.observe action result.outcome with
    | (_, .error e) => (.ended (.error (.decision e)), ledger, s)
    | (strategy, .ok ()) => (.attempted ⟨action, result⟩ strategy, ledger, s)

/-- Select an action for what is left of the budget, if anything is, and run it. -/
def playRound (services : Services α σ) (settings : SessionSettings) (task : Task α)
    (strategy : Strategy α) (ledger : Ledger α) (s : σ) : Round α × Ledger α × σ :=
  let (ledger, s) := upToDate services settings ledger s
  if ledger.remaining ≤ 0 then (.ended (.ok none), ledger, s)
  else
    match strategy.select ledger.remaining with
    | (_, .error e) => (.ended (.error (.decision e)), ledger, s)
    | (_, .ok none) => (.ended (.ok none), ledger, s)
    | (strategy, .ok (some action)) => attempt services task strategy action ledger s

/-- The attempts made, the ledger after them, and how the loop ended. -/
structure LoopResult (α : Type) where
  attempts : List (Attempt α)
  ledger : Ledger α
  ending : Except (SessionError α) (Option Outcome)

def LoopResult.stop (ledger : Ledger α) (ending : Except (SessionError α) (Option Outcome)) :
    LoopResult α :=
  ⟨[], ledger, ending⟩

/-- The attempt came before the rest of the loop. -/
def LoopResult.after (attempt : Attempt α) (rest : LoopResult α) : LoopResult α :=
  { rest with attempts := attempt :: rest.attempts }

/-- At most `fuel` more rounds. -/
def solveLoop (services : Services α σ) (settings : SessionSettings) (task : Task α) :
    Nat → Strategy α → Ledger α → σ → LoopResult α × σ
  | 0, _, ledger, s => (.stop ledger (.ok none), s)
  | fuel + 1, strategy, ledger, s =>
    match playRound services settings task strategy ledger s with
    | (.ended ending, ledger, s) => (.stop ledger ending, s)
    | (.attempted attempt strategy, ledger, s) =>
      if attempt.result.outcome.isSolved then
        (.after attempt (.stop ledger (.ok (some attempt.result.outcome))), s)
      else
        let (rest, s) := solveLoop services settings task fuel strategy ledger s
        (.after attempt rest, s)

/-- Compute features if the task has none, then run the loop. The task comes
back with its features. -/
def solveTask (services : Services α σ) (settings : SessionSettings)
    (strategy : Task α → Strategy α) (task : Task α) (ledger : Ledger α) (s : σ) :
    LoopResult α × Task α × σ :=
  match ensureFeatures services task s with
  | (.error e, task, s) => (.stop ledger (.error e), task, s)
  | (.ok cost, task, s) =>
    let ledger := if settings.chargeFeatures then ledger.charge cost else ledger
    let (result, s) :=
      solveLoop services settings task settings.maxInvocations (strategy task) ledger s
    (result, task, s)

/-! ### The session -/

/-- How a session ended, and its task with the features computed for it. -/
structure Ending (α : Type) where
  result : Except (SessionError α) (SessionRecord α)
  task : Task α

def summaryOf (name : String) (p : Preprocessed α) : PreprocessingSummary α :=
  ⟨name, p.cost, p.answer.any Outcome.isSolved, p.output.map Task.id⟩

/-- End a session with a record of it. -/
def conclude (services : Services α σ) (settings : SessionSettings) (task : Task α) (budget : α)
    (summary : Option (PreprocessingSummary α)) (attempts : List (Attempt α))
    (answer : Option Outcome) (ledger : Ledger α) (s : σ) : Ending α × σ :=
  let (ledger, s) := upToDate services settings ledger s
  (⟨.ok ⟨task.id, budget, ledger.elapsed, attempts, answer, summary⟩, task⟩, s)

/-- A session on the task itself. -/
def runDirect (services : Services α σ) (settings : SessionSettings)
    (strategy : Task α → Strategy α) (task : Task α) (budget : α)
    (summary : Option (PreprocessingSummary α)) (ledger : Ledger α) (s : σ) :
    Ending α × σ :=
  let (r, task, s) := solveTask services settings strategy task ledger s
  match r.ending with
  | .error e => (⟨.error e, task⟩, s)
  | .ok answer => conclude services settings task budget summary r.attempts answer r.ledger s

/-- Turn a positive answer for the preprocessed task into one for the given task. -/
def extendAnswer (p : Preprocessor α σ) (task output : Task α) (answer : Option Outcome)
    (s : σ) : Except (SessionError α) (Option Outcome) × σ :=
  match answer with
  | some ⟨.positive, certificate⟩ =>
    match p.extend output ⟨.positive, certificate⟩ s with
    | (.ok extended, s) => (.ok (some extended), s)
    | (.error e, s) => (.error (.preprocess task.id e), s)
  | answer => (.ok answer, s)

/-- A session on the task that preprocessing made of the given one. -/
def runSimplified (services : Services α σ) (p : Preprocessor α σ) (settings : SessionSettings)
    (strategy : Task α → Strategy α) (task output : Task α) (budget : α)
    (summary : PreprocessingSummary α) (ledger : Ledger α) (s : σ) : Ending α × σ :=
  let (r, output, s) := solveTask services settings strategy output ledger s
  match r.ending with
  | .error e => (⟨.error e, task⟩, s)
  | .ok answer =>
    match extendAnswer p task output answer s with
    | (.error e, s) => (⟨.error e, task⟩, s)
    | (.ok extended, s) =>
      conclude services settings task budget (some summary) r.attempts extended r.ledger s

/-- A session that preprocesses the task first. It ends there if that solves the task. -/
def runPreprocessed (services : Services α σ) (p : Preprocessor α σ) (settings : SessionSettings)
    (strategy : Task α → Strategy α) (task : Task α) (budget : α) (ledger : Ledger α) (s : σ) :
    Ending α × σ :=
  let (ledger, s) := upToDate services settings ledger s
  match p.preprocess task ledger.remaining s with
  | (.error e, s) => (⟨.error (.preprocess task.id e), task⟩, s)
  | (.ok pre, s) =>
    let summary := summaryOf p.name pre
    let ledger := ledger.charge pre.cost
    if summary.solvedDirectly then
      conclude services settings task budget (some summary) [] pre.answer ledger s
    else
      match pre.output with
      | none => runDirect services settings strategy task budget (some summary) ledger s
      | some output =>
        runSimplified services p settings strategy task output budget summary ledger s

/-- Solve a task within a budget, by the strategy made for the task at hand. -/
def run (services : Services α σ) (settings : SessionSettings)
    (strategy : Task α → Strategy α) (task : Task α) (budget : α) (s : σ) : Ending α × σ :=
  if Scalar.isNaN budget || decide (budget < 0) then
    (⟨.error (.decision (.negativeBudget budget)), task⟩, s)
  else
    let (ledger, s) := openLedger services settings budget s
    match services.preprocessor with
    | none => runDirect services settings strategy task budget none ledger s
    | some p => runPreprocessed services p settings strategy task budget ledger s

/-- The strategy that plans against a portfolio, with the features of the task. -/
def modelingStrategy (p : Portfolio α) (task : Task α) : Strategy α :=
  (Strategy.modeling p task.id).withFeatures task.features

end Session

end SolverPortfolio

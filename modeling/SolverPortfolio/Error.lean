import SolverPortfolio.Scalar

/-!
# Errors of deciding

The phases that calls of a strategy are refused in, and everything else that can go wrong before
anything is run.
-/

namespace SolverPortfolio

/-!
## Phases of a strategy

A strategy is asked for an action, waits for its outcome, and is ready again;
once nothing fits any more it stays exhausted.
-/

inductive Phase where
  | ready
  | awaitingOutcome
  | exhausted
deriving DecidableEq

def Phase.name : Phase → String
  | .ready => "ready"
  | .awaitingOutcome => "awaiting_outcome"
  | .exhausted => "exhausted"

/-- The two calls a strategy answers. -/
inductive Call where
  | select
  | observe
deriving DecidableEq

def Call.name : Call → String
  | .select => "select"
  | .observe => "observe"

/-!
## What can go wrong

Errors are causes: each constructor holds what it takes to say what happened,
and the wording is in `message` alone.
-/

/-- The shape a count array or table should have had, and the one it has. -/
structure ShapeMismatch where
  expectedActions : Nat
  expectedOutcomes : Nat
  actualActions : Nat
  actualOutcomes : Nat
deriving DecidableEq

namespace ShapeMismatch

/-- The shapes as messages show them, `actions x outcomes`. -/
def message (m : ShapeMismatch) : String :=
  "Count array shape mismatch: expected " ++ toString m.expectedActions ++ "x" ++
    toString m.expectedOutcomes ++ ", got " ++ toString m.actualActions ++ "x" ++
    toString m.actualOutcomes

end ShapeMismatch

/-- Why a world, a model or the settings of a fit are refused. -/
inductive ModelFault (α : Type) where
  | noSolvers
  | duplicateSolver (name : String)
  | tableSize (held nactions noutcomes : Nat)
  | tableRow (action : Nat) (row : List α)
  | weightCount (weights components : Nat)
  | weightSum
  | parameterCount (component : Nat)
  | parameterRow (component action : Nat) (row : List α)
  | nothingToFit
  | vectorCount (vectors tasks : Nat)
  | featureNames
  | classifierSize (features actions : Nat)
  | classifierValues
  | unknownTask (task : String)
  | discount (value : α)

namespace ModelFault

variable {α : Type} [Scalar α]

def message : ModelFault α → String
  | .noSolvers => "world needs at least one solver"
  | .duplicateSolver name => "duplicate solver in world: " ++ name
  | .tableSize held nactions noutcomes =>
    "prediction table holds " ++ toString held ++ " probabilities for " ++
      toString nactions ++ "x" ++ toString noutcomes
  | .tableRow action row =>
    "prediction row for action " ++ toString action ++ " is not a distribution: " ++
      Scalar.rowText row
  | .weightCount weights components =>
    toString weights ++ " weights for " ++ toString components ++ " components"
  | .weightSum => "component weights do not sum to one"
  | .parameterCount k => "component " ++ toString k ++ " has wrong parameter count"
  | .parameterRow k action row =>
    "component " ++ toString k ++ ", action " ++ toString action ++ ": " ++ Scalar.rowText row
  | .nothingToFit => "estimator needs at least one component and one restart"
  | .vectorCount vectors tasks =>
    "classifier needs features for every task: " ++ toString vectors ++
      " feature vectors for " ++ toString tasks ++ " tasks"
  | .featureNames => "classifier training tasks disagree on feature names"
  | .classifierSize features actions =>
    "classifier parameters do not match " ++ toString features ++ " features and " ++
      toString actions ++ " actions"
  | .classifierValues => "classifier parameters must be finite with positive scales"
  | .unknownTask task => "oracle has no runs for task " ++ task
  | .discount value => "planner discount must be in [0, 1), got " ++ Scalar.text value

end ModelFault

/-- The errors of deciding: of worlds, models, plans and strategies. -/
inductive PortfolioError (α : Type) where
  | invalidLadder (budgets : List α)
  | negativeBudget (budget : α)
  | unknownAction (description : String)
  | unknownSolver (name : String)
  | shapeMismatch (shapes : ShapeMismatch)
  | invalidTransition (phase : Phase) (call : Call)
  | unexpectedObservation (observed pending : String)
  | emptyTraining
  | invalidModel (fault : ModelFault α)
  /-- A stored portfolio whose text does not read as one. -/
  | unreadable
  /-- A result that is not a word. The library stops there: nobody is left to handle this one. -/
  | overflow

namespace PortfolioError

variable {α : Type} [Scalar α]

def message : PortfolioError α → String
  | .invalidLadder budgets =>
    "Budget ladder must be ascending and evenly spaced from zero: " ++ Scalar.listText budgets
  | .negativeBudget budget =>
    "Budget must be nonnegative and finite, got " ++ Scalar.text budget
  | .unknownAction description => "Action not in world vocabulary: " ++ description
  | .unknownSolver name => "Solver not in world vocabulary: " ++ name
  | .shapeMismatch shapes => shapes.message
  | .invalidTransition phase call =>
    "Invalid strategy transition from " ++ phase.name ++ " on " ++ call.name
  | .unexpectedObservation observed pending =>
    "Observed action " ++ observed ++ " does not match pending action " ++ pending
  | .emptyTraining => "Training set is empty"
  | .invalidModel fault => "Invalid model: " ++ fault.message
  | .unreadable => "Serialization error"
  | .overflow => "Arithmetic overflow"

end PortfolioError

/-- A computation of the decision rules. -/
abbrev Decision (α β : Type) := Except (PortfolioError α) β

namespace Decision

/-- Lift a shape check into the errors of deciding. -/
def ofShape {α β : Type} : Except ShapeMismatch β → Decision α β
  | .ok b => .ok b
  | .error m => .error (.shapeMismatch m)

/-- The result of arithmetic on words. -/
def inWords {α β : Type} : Option β → Decision α β
  | some b => .ok b
  | none => .error .overflow

/-- Go on if what comes next stays within the words. -/
def provided {α : Type} (fits : Bool) : Decision α Unit :=
  if fits then .ok () else .error .overflow

@[simp] theorem provided_true {α : Type} : (provided true : Decision α Unit) = .ok () := rfl

@[simp] theorem provided_false {α : Type} :
    (provided false : Decision α Unit) = .error .overflow := rfl

theorem of_provided {α : Type} {fits : Bool} (h : (provided fits : Decision α Unit) = .ok ()) :
    fits = true := by
  cases fits with
  | true => rfl
  | false => cases h

theorem map_eq_ok {ε β γ : Type} {f : β → γ} {r : Except ε β} {c : γ}
    (h : r.map f = .ok c) : ∃ b, r = .ok b ∧ f b = c := by
  cases r with
  | error e => cases h
  | ok b => exact ⟨b, rfl, Except.ok.inj h⟩

theorem bind_eq_ok {ε β γ : Type} {f : β → Except ε γ} {r : Except ε β} {c : γ}
    (h : (r >>= f) = .ok c) : ∃ b, r = .ok b ∧ f b = .ok c := by
  cases r with
  | error e => cases h
  | ok b => exact ⟨b, rfl, h⟩

end Decision

end SolverPortfolio

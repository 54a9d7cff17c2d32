import SolverPortfolio.Run

/-!
# The services of a session

A session consults a harness that runs actions, a provider of features and, if
there is one, a preprocessor. Each is a function that may fail and may carry on
a state of its own, so that what was asked, and in which order, is part of what
a session does. A session that charges its own time also reads a clock.
-/

namespace SolverPortfolio

/-! ## Errors -/

inductive HarnessError (α : Type) where
  | unknownSolver (name : String)
  | noRecordedRun (task solver : String) (budget : α)
  | store (reason : String)

def HarnessError.message {α : Type} [Scalar α] : HarnessError α → String
  | .unknownSolver name => "Solver not registered: " ++ name
  | .noRecordedRun task solver budget =>
    "No recorded run for task " ++ task ++ ", solver " ++ solver ++ ", budget >= " ++
      Scalar.text budget
  | .store reason => "Run store error: " ++ reason

inductive FeatureError where
  | unavailable (task : String)
  | extraction (reason : String)
deriving DecidableEq

def FeatureError.message : FeatureError → String
  | .unavailable task => "No features available for task " ++ task
  | .extraction reason => "Feature extraction failed: " ++ reason

inductive PreprocessError where
  | failed (reason : String)
  | extension (reason : String)
deriving DecidableEq

def PreprocessError.message : PreprocessError → String
  | .failed reason => "Preprocessing failed: " ++ reason
  | .extension reason => "Cannot extend answer to the original task: " ++ reason

/-! ## Services -/

/-- A call that may fail and carries on a state. -/
abbrev Service (σ ε β : Type) := σ → Except ε β × σ

/-- What preprocessing a task gave: its cost, an answer if it solved the task,
and a simpler task if it made one. -/
structure Preprocessed (α : Type) where
  cost : α
  answer : Option Outcome
  output : Option (Task α)

structure Preprocessor (α σ : Type) where
  name : String
  preprocess : Task α → α → Service σ PreprocessError (Preprocessed α)
  /-- Turn a positive answer for a preprocessed task into one for the task it was made of. -/
  extend : Task α → Outcome → Service σ PreprocessError Outcome

structure Services (α σ : Type) where
  run : Action α → Task α → Service σ (HarnessError α) (RunResult α)
  features : Task α → Service σ FeatureError (FeatureVector α)
  preprocessor : Option (Preprocessor α σ)
  /-- The processor time used so far, in seconds, where it can be read. -/
  clock : σ → Option α × σ := fun s => (none, s)

/-! ## Features that need no computation -/

namespace FeatureProvider

variable {α : Type}

/-- No features, at no cost. -/
def nothing [Scalar α] (_ : String) : Except FeatureError (FeatureVector α) := .ok .empty

/-- Features recorded per task. -/
def recorded (table : List (String × FeatureVector α)) (task : String) :
    Except FeatureError (FeatureVector α) :=
  match table.lookup task with
  | some v => .ok v
  | none => .error (.unavailable task)

end FeatureProvider

end SolverPortfolio

import SolverPortfolio.Classifier
import SolverPortfolio.Mixture
import SolverPortfolio.Portfolio
import SolverPortfolio.RunStore

/-!
# Training a portfolio

The runs of a store are turned into one count array per task, with the task's
features next to it, and the configured model is fitted to them. Runs of
solvers outside the world do not count, and a task without usable runs is left
out.
-/

namespace SolverPortfolio

inductive TrainingError (α : Type) where
  | decision (error : PortfolioError α)
  | features (error : FeatureError)

def TrainingError.message {α : Type} [Scalar α] : TrainingError α → String
  | .decision e => e.message
  | .features e => "Failed to compute training features: " ++ e.message

/-- A source of features for training, by task. -/
abbrev FeatureSource (α : Type) := String → Except FeatureError (FeatureVector α)

/-- The count arrays and the runs of all tasks, by ascending id. The features are one vector per
count array, or none at all without a source of features. -/
structure TrainingSet (α : Type) where
  counts : List Counts
  runs : List (RecordedRun α)
  features : List (FeatureVector α)

namespace TrainingSet

variable {α : Type} [Analytic α]

def empty : TrainingSet α := ⟨[], [], []⟩

/-! ## Collecting -/

/-- The runs of a task whose solver belongs to the world. -/
def usableRuns (w : World α) (store : RunStore α) (task : String) : List (RecordedRun α) :=
  (store.runsForTask task).filter fun r => (w.solverIndex? r.solver).isSome

def sourceFeatures (source : Option (FeatureSource α)) (task : String) :
    Except (TrainingError α) (Option (FeatureVector α)) :=
  match source with
  | none => .ok none
  | some f =>
    match f task with
    | .ok v => .ok (some v)
    | .error e => .error (.features e)

/-- Append what a task has to tell; features are only asked for if its runs count. -/
def add (w : World α) (store : RunStore α) (source : Option (FeatureSource α))
    (t : TrainingSet α) (task : String) : Except (TrainingError α) (TrainingSet α) :=
  let runs := usableRuns w store task
  match w.countsFromRuns runs with
  | .error e => .error (.decision e)
  | .ok c =>
    if c.isZero then .ok t
    else (sourceFeatures source task).map fun v =>
      { counts := t.counts ++ [c]
        runs := t.runs ++ runs
        features := t.features ++ v.toList }

def collect (w : World α) (store : RunStore α) (source : Option (FeatureSource α)) :
    Except (TrainingError α) (TrainingSet α) :=
  store.taskIds.foldlM (add w store source) empty

end TrainingSet

namespace Settings

variable {α : Type} [Analytic α]

/-- The configured ladder under the given solvers. -/
def world (s : Settings α) (solvers : List String) : Decision α (World α) := do
  World.build solvers (← Ladder.uniform s.budget.ladderStep s.budget.ladderLength)

variable [GammaFunctions α]

def fitModel (s : EstimatorSettings α) (e : Randomness.Entropy) (w : World α)
    (t : TrainingSet α) : Decision α (Model α) :=
  match s.model with
  | .mixture => (Mixture.fit s e t.counts).map .mixture
  | .multinomial => Model.ofPooled t.counts s.concentration
  | .classifier => (Classifier.fit s t.counts t.features).map .classifier
  | .oracle => Model.ofRuns w t.runs
  | .random => .ok (.random (e.seedFor s.seed) w.nactions w.noutcomes)

/-- Fit the configured model to a training set. -/
def trainFrom (s : Settings α) (e : Randomness.Entropy) (w : World α) (t : TrainingSet α) :
    Decision α (Portfolio α) := do
  Portfolio.build w (← fitModel s.estimator e w t) s.planner

/-- Train a portfolio over the given solvers from the runs of a store. -/
def train (s : Settings α) (e : Randomness.Entropy) (source : Option (FeatureSource α))
    (solvers : List String) (store : RunStore α) : Except (TrainingError α) (Portfolio α) := do
  let w ← (s.world solvers).mapError .decision
  let t ← TrainingSet.collect w store source
  (s.trainFrom e w t).mapError .decision

end Settings

end SolverPortfolio

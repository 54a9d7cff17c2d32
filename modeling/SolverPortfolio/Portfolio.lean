import SolverPortfolio.Classifier
import SolverPortfolio.Mixture
import SolverPortfolio.Planner
import SolverPortfolio.Randomness.Stream
import SolverPortfolio.Run
import SolverPortfolio.Settings
import SolverPortfolio.World

/-!
# Portfolios and their models

The models that predict the outcomes of actions, and the portfolios that decide by them.
-/

namespace SolverPortfolio

/-!
## Action models

An action model predicts the outcomes of all actions from the outcomes seen so
far in a session and from what is known about the task. Only a mixture learns
from the history, only a classifier looks at features, only an oracle at the
task.
-/

inductive Model (α : Type) where
  /-- The pooled frequencies of the training set. -/
  | multinomial (prediction : Prediction α)
  | mixture (mixture : Mixture α)
  | classifier (classifier : Classifier α)
  /-- The recorded truth, per task. -/
  | oracle (tables : List (String × Prediction α))
  /-- Uninformed scores, drawn from the seed and the history. -/
  | random (seed : UInt64) (nactions noutcomes : Nat)

namespace Model

open Scalar Randomness

variable {α : Type} [Analytic α]

def variantName : Model α → String
  | .multinomial _ => "multinomial"
  | .mixture _ => "mixture"
  | .classifier _ => "classifier"
  | .oracle _ => "oracle"
  | .random _ _ _ => "random"

/-! ### Building -/

def ofPooled (training : List Counts) (concentration : α) : Decision α (Model α) :=
  (Prediction.pooled training concentration).map .multinomial

/-- Observed frequencies; an action that never ran stays unsolved. -/
def truthRow (c : Counts) (action : Nat) : List α :=
  if c.total action == 0 then
    (List.range c.noutcomes).map fun d => if d = OutcomeKind.unsolved.index then 1 else 0
  else (c.row action).map ofCount

def truthTable (c : Counts) : Prediction α :=
  .ofScores c.nactions c.noutcomes ((List.range c.nactions).map (truthRow c))

/-- A table for every task that has runs. -/
def ofRuns (w : World α) (runs : List (RecordedRun α)) : Decision α (Model α) := do
  let tables ← (groupByName RecordedRun.taskId runs).mapM fun (task, runs) => do
    let c ← w.countsFromRuns runs
    .provided (c.hasTotals c.nactions)
    return (task, truthTable c)
  return .oracle tables

/-! ### Prediction -/

/-- Fold the cells of a history into a seed. -/
def historySeed (seed : UInt64) (history : Counts) : UInt64 :=
  history.rows.flatten.foldl (fun h c => (h ^^^ c.toUInt64) * 0x100000001b3)
    (seed ^^^ 0xcbf29ce484222325)

def randomTable (seed : UInt64) (nactions noutcomes : Nat) (history : Counts) :
    Prediction α :=
  let stream := Stream.ofSeed (historySeed seed history)
  .ofScores nactions noutcomes (stream.takeRows noutcomes nactions).1

variable [GammaFunctions α]

/-- The component weights given a history, for mixtures. -/
def posterior (model : Model α) (history : Counts) : Decision α (Option (List α)) :=
  match model with
  | .mixture m => (Decision.provided (m.canRead history)).map fun _ => some (m.posterior history)
  | _ => .ok none

/-- A prediction on condition that the history has the model's shape. -/
def guarded (history : Counts) (nactions noutcomes : Nat) (table : Prediction α) :
    Decision α (Prediction α) :=
  (Decision.ofShape (history.checkShape nactions noutcomes)).map fun _ => table

def predict (model : Model α) (task : String) (features : Option (FeatureVector α))
    (history : Counts) : Decision α (Prediction α) :=
  match model with
  | .multinomial p => guarded history p.nactions p.noutcomes p
  | .mixture m => do
    let table ← guarded history m.nactions m.noutcomes (m.predict history)
    .provided (m.canRead history)
    return table
  | .classifier c => guarded history c.nactions c.noutcomes (c.predict features)
  | .oracle tables =>
    match tables.lookup task with
    | some p => .ok p
    | none => .error (.invalidModel (.unknownTask task))
  | .random seed nactions noutcomes =>
    guarded history nactions noutcomes (randomTable seed nactions noutcomes history)

end Model

/-!
## Portfolios

A portfolio is what a session decides by: a world, a model fitted to it and the
settings of the planner.
-/

structure Portfolio (α : Type) where
  world : World α
  model : Model α
  planner : PlannerSettings α

namespace Portfolio

variable {α : Type} [Analytic α]

/-- The sizes of all tables in a model, once each of them is found sound. -/
def modelShapes (model : Model α) : Decision α (List (Nat × Nat)) :=
  match model with
  | .multinomial p => p.check.map fun _ => [(p.nactions, p.noutcomes)]
  | .mixture m => m.check.map fun _ => [(m.nactions, m.noutcomes)]
  | .classifier c => c.check.map fun _ => [(c.nactions, c.noutcomes)]
  | .oracle tables =>
    tables.mapM fun (_, p) => p.check.map fun _ => (p.nactions, p.noutcomes)
  | .random _ nactions noutcomes => .ok [(nactions, noutcomes)]

/-- The shapes are those of the world. -/
def checkShapes (w : World α) (shapes : List (Nat × Nat)) : Decision α Unit :=
  match shapes.find? fun s => s != (w.nactions, w.noutcomes) with
  | some (nactions, noutcomes) =>
    .error (.shapeMismatch ⟨w.nactions, w.noutcomes, nactions, noutcomes⟩)
  | none => .ok ()

def check (p : Portfolio α) : Decision α Unit := do
  p.world.check
  let shapes ← modelShapes p.model
  checkShapes p.world shapes
  if !isDiscount p.planner.discount then
    throw (.invalidModel (.discount p.planner.discount))

def build (world : World α) (model : Model α) (planner : PlannerSettings α) :
    Decision α (Portfolio α) :=
  (check ⟨world, model, planner⟩).map fun _ => ⟨world, model, planner⟩

end Portfolio

end SolverPortfolio

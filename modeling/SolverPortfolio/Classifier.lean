import SolverPortfolio.Prediction
import SolverPortfolio.Run
import SolverPortfolio.Settings

/-!
# Classifiers

A classifier predicts success from the features of a task. It is fitted by gradient descent.
-/

namespace SolverPortfolio

/-!
## Predicting success from features

A classifier holds one logistic model per action over standardised features.
The probability of being solved is split between the solved outcomes in the
proportions of the pooled prediction, which also stands in for tasks without
features.
-/

/-- `weights` holds, per action, a bias and one weight per feature. -/
structure Classifier (α : Type) where
  names : List String
  means : List α
  scales : List α
  weights : List (List α)
  pooled : Prediction α

namespace Classifier

open Scalar Analytic

variable {α : Type} [Analytic α]

def nactions (c : Classifier α) : Nat := c.pooled.nactions

def noutcomes (c : Classifier α) : Nat := c.pooled.noutcomes

/-! ### Logistic model -/

/-- `1 / (1 + exp (-x))`, with the exponential of a nonpositive number only. -/
def sigmoid (x : α) : α :=
  if 0 ≤ x then 1 / (1 + exp (-x)) else exp x / (1 + exp x)

/-- The bias plus the weighted features. -/
def linear (weights row : List α) : α :=
  weights.headD 0 + sum (List.zipWith (· * ·) weights.tail row)

/-- Values in units of the scales, measured from the means. -/
def standardize (means scales values : List α) : List α :=
  List.zipWith (fun x s => x / s) (List.zipWith (· - ·) values means) scales

/-! ### Checks -/

def isSized (c : Classifier α) : Bool :=
  c.means.length == c.names.length && c.scales.length == c.names.length &&
    c.weights.length == c.nactions &&
    c.weights.all fun w => w.length == c.names.length + 1

def isFinite (c : Classifier α) : Bool :=
  c.means.all Scalar.isFinite && c.scales.all isPositiveFinite &&
    c.weights.all fun w => w.all Scalar.isFinite

def check (c : Classifier α) : Decision α Unit := do
  c.pooled.check
  if !c.isSized then throw (.invalidModel (.classifierSize c.names.length c.nactions))
  if !c.isFinite then throw (.invalidModel .classifierValues)

/-! ### Prediction -/

/-- The value a task has for a feature; one that is missing or not finite is
taken to be the mean of the training tasks. -/
def valueOf (features : FeatureVector α) (name : String) (mean : α) : α :=
  match features.get? name with
  | some v => if Scalar.isFinite v then v else mean
  | none => mean

/-- The standardised features of a task. -/
def rowOf (c : Classifier α) (features : FeatureVector α) : List α :=
  standardize c.means c.scales (List.zipWith (valueOf features) c.names c.means)

/-- The pooled probability of the solved outcomes. -/
def solvedMass (pooled : List α) : α :=
  sum ((pooled.zipIdx.filter fun x => x.2 != OutcomeKind.unsolved.index).map Prod.fst)

/-- The score of outcome `d` with pooled probability `p`, when the task is
solved with probability `success`. -/
def splitScore (success mass : α) (d : Nat) (p : α) : α :=
  if d = OutcomeKind.unsolved.index then 1 - success
  else if 0 < mass then success * p / mass
  else if d = OutcomeKind.positive.index then success
  else 0

def actionScores (pooled : List α) (success : α) : List α :=
  let mass := solvedMass pooled
  pooled.zipIdx.map fun (p, d) => splitScore success mass d p

/-- The prediction for a standardised row of features. -/
def predictRow (c : Classifier α) (row : List α) : Prediction α :=
  .ofScores c.nactions c.noutcomes <|
    c.weights.zipIdx.map fun (weights, a) =>
      actionScores (c.pooled.row a) (sigmoid (linear weights row))

/-- Without features the prediction is the pooled one. -/
def predict (c : Classifier α) (features : Option (FeatureVector α)) : Prediction α :=
  match features with
  | none => c.pooled
  | some v => if v.isEmpty then c.pooled else c.predictRow (c.rowOf v)

end Classifier

end SolverPortfolio

namespace SolverPortfolio.Classifier

/-!
## Fitting a classifier

Each training task contributes, for every action it ran, the share of runs that
solved it as a soft label. Gradient descent on the mean cross entropy starts
from the pooled success rate; all weights but the bias are penalised.
-/

open Scalar Analytic

variable {α : Type} [Analytic α]

/-! ### Standardisation -/

def meansOf (features : List (FeatureVector α)) (nfeatures : Nat) : List α :=
  let n : α := ofNat features.length
  features.foldl (fun ms v => List.zipWith (fun m x => m + x / n) ms v.values)
    (List.replicate nfeatures 0)

/-- Mean squared distances from the means. -/
def variancesOf (features : List (FeatureVector α)) (means : List α) : List α :=
  let n : α := ofNat features.length
  features.foldl
    (fun vs v =>
      List.zipWith (fun s d => s + square d / n) vs (List.zipWith (· - ·) v.values means))
    (List.replicate means.length 0)

/-- A feature that hardly varies is not scaled. -/
def scaleOf (variance : α) : α :=
  if 1e-12 < sqrt variance then sqrt variance else 1

def scalesOf (features : List (FeatureVector α)) (means : List α) : List α :=
  (variancesOf features means).map scaleOf

/-! ### Descent -/

def probabilityFloor : α := 1e-6

def logit (p : α) : α :=
  let p := Scalar.clamp p probabilityFloor (1 - probabilityFloor)
  ln (p / (1 - p))

/-- A standardised row and its label. -/
abbrev Sample (α : Type) := List α × α

/-- Add a sample's share of the gradient: the error for the bias, the error
times the feature for each weight. -/
def addGradient (weights : List α) (gradient : List α) (sample : Sample α) : List α :=
  let error := sigmoid (linear weights sample.1) - sample.2
  match gradient with
  | [] => []
  | g :: gs => (g + error) :: List.zipWith (fun g x => g + error * x) gs sample.1

def gradientOf (weights : List α) (samples : List (Sample α)) : List α :=
  samples.foldl (addGradient weights) (List.replicate weights.length 0)

def stepWeight (step : α) (n g penalty w : α) : α := w - step * (g / n + penalty)

def descend (s : EstimatorSettings α) (samples : List (Sample α)) (weights : List α) :
    List α :=
  let n : α := ofNat samples.length
  match weights, gradientOf weights samples with
  | w :: ws, g :: gs =>
    stepWeight s.logisticStep n g 0 w ::
      List.zipWith (fun w g => stepWeight s.logisticStep n g (s.logisticPenalty * w) w) ws gs
  | ws, _ => ws

/-- The weights of an action: the pooled rate only, when no task ran it. -/
def fitLogistic (s : EstimatorSettings α) (samples : List (Sample α)) (nfeatures : Nat)
    (rate : α) : List α :=
  let start := logit rate :: List.replicate nfeatures 0
  if samples.isEmpty then start
  else Nat.repeat (descend s samples) s.logisticIterations start

/-! ### The fit -/

/-- The share of an action's runs that solved the task. -/
def label (c : Counts) (action : Nat) : α :=
  let total : α := ofNat (c.total action)
  (total - ofCount (c.get action OutcomeKind.unsolved.index)) / total

def samplesOf (counts : List Counts) (rows : List (List α)) (action : Nat) :
    List (Sample α) :=
  ((counts.zip rows).filter fun x => x.1.total action != 0).map fun x =>
    (x.2, label x.1 action)

/-- The names all training tasks have in common. -/
def commonNames (features : List (FeatureVector α)) : Decision α (List String) :=
  let names := (features.head?.map FeatureVector.names).getD []
  if features.all fun v => v.names == names && v.values.length == names.length then .ok names
  else .error (.invalidModel .featureNames)

/-- `features[i]` describes the task behind `counts[i]`. -/
def fit (s : EstimatorSettings α) (counts : List Counts) (features : List (FeatureVector α)) :
    Decision α (Classifier α) := do
  if counts.isEmpty then throw .emptyTraining
  if features.length != counts.length then
    throw (.invalidModel (.vectorCount features.length counts.length))
  let names ← commonNames features
  let pooled ← Prediction.pooled counts s.concentration
  -- which tasks ran an action is read off the totals of their rows
  .provided (counts.all fun c => c.hasTotals pooled.nactions)
  let means := meansOf features names.length
  let scales := scalesOf features means
  let rows := features.map fun v => standardize means scales v.values
  let weights := (List.range pooled.nactions).map fun a =>
    fitLogistic s (samplesOf counts rows a) names.length (pooled.successRate a)
  let classifier : Classifier α := ⟨names, means, scales, weights, pooled⟩
  classifier.check
  return classifier

end SolverPortfolio.Classifier

import SolverPortfolio.Counts
import SolverPortfolio.Scalar

/-!
# Predictions and probability vectors

What a model says of all actions at once: a table with a probability vector per action. The vectors
are made from weights, or from the logarithms of weights.
-/

namespace SolverPortfolio.LogSpace

/-!
## Probability vectors and log space

Products of many small probabilities are kept as sums of logarithms. Weights and
log weights are turned into probability vectors; when there is nothing to tell
the entries apart, the vector is uniform.
-/

open Scalar Analytic

variable {α : Type} [Analytic α]

/-- The uniform probability over `n` entries. -/
def uniformShare (n : Nat) : α := 1 / ofNat (Nat.max n 1)

def uniform (n : Nat) : List α := List.replicate n (uniformShare n)

def largest (values : List α) : α := values.foldl Scalar.max (-infinity)

/-- `ln (Σ exp v)`, shifted by the largest value so that nothing overflows. -/
def logSumExp (values : List α) : α :=
  let top := largest values
  if top == -infinity then -infinity
  else top + ln (sum (values.map fun v => exp (v - top)))

/-- The probability vector with the given logarithms, up to a constant. -/
def normalizeLogs (weights : List α) : List α :=
  let total := logSumExp weights
  if isFinite total then weights.map fun w => exp (w - total)
  else uniform weights.length

/-- A nonnegative vector scaled to sum to one. -/
def normalizeScores (values : List α) : List α :=
  let total := sum values
  if 0 < total ∧ isFinite total then values.map (· / total)
  else uniform values.length

end SolverPortfolio.LogSpace

namespace SolverPortfolio

/-!
## Predictions

A prediction is a table of outcome probabilities, a row per action and a column
per outcome, stored row by row. Planners only look at the success rates, the
probability of any solved outcome.
-/

structure Prediction (α : Type) where
  nactions : Nat
  noutcomes : Nat
  probabilities : List α

namespace Prediction

open Scalar LogSpace

variable {α : Type} [Analytic α]

/-- The table with the given rows of nonnegative scores, each scaled to sum to
one. -/
def ofScores (nactions noutcomes : Nat) (rows : List (List α)) : Prediction α :=
  ⟨nactions, noutcomes, (rows.map normalizeScores).flatten⟩

def row (p : Prediction α) (action : Nat) : List α :=
  (p.probabilities.drop (action * p.noutcomes)).take p.noutcomes

def get (p : Prediction α) (action : Nat) (kind : OutcomeKind) : α :=
  p.probabilities.getD (action * p.noutcomes + kind.index) 0

/-- Slack on the sum of a row. -/
def rowTolerance : α := 1e-6

def isDistribution (row : List α) : Bool :=
  row.all (fun p => isFinite p && decide (0 ≤ p)) &&
    !decide (rowTolerance < Scalar.abs (sum row - 1))

/-- The table has its size and every row is a distribution; the first one that
is not is reported. -/
def check (p : Prediction α) : Decision α Unit :=
  if p.noutcomes = 0 || p.probabilities.length != p.nactions * p.noutcomes then
    .error (.invalidModel (.tableSize p.probabilities.length p.nactions p.noutcomes))
  else
    match (List.range p.nactions).find? fun a => !isDistribution (p.row a) with
    | some a => .error (.invalidModel (.tableRow a (p.row a)))
    | none => .ok ()

/-- The probability that an action solves the task. -/
def successRate (p : Prediction α) (action : Nat) : α :=
  Scalar.clamp (1 - p.get action .unsolved) 0 1

def successRates (p : Prediction α) : List α := (List.range p.nactions).map p.successRate

/-! ### Pooling -/

/-- A cell of the pooled scores: the counts of all tasks on top of a
pseudo-count. -/
def pooledScore (training : List Counts) (concentration : α) (action outcome : Nat) : α :=
  training.foldl (fun s c => s + ofCount (c.get action outcome)) concentration

/-- Count arrays of one shape, that of the first. -/
def commonShape (training : List Counts) : Decision α (Nat × Nat) :=
  match training with
  | [] => .error .emptyTraining
  | first :: _ =>
    match training.find? fun c => !(c.checkShape first.nactions first.noutcomes).isOk with
    | some c =>
      .error (.shapeMismatch ⟨first.nactions, first.noutcomes, c.nactions, c.noutcomes⟩)
    | none => .ok (first.nactions, first.noutcomes)

/-- One smoothed distribution per action over all training tasks. -/
def pooled (training : List Counts) (concentration : α) : Decision α (Prediction α) :=
  (commonShape training).map fun (nactions, noutcomes) =>
    ofScores nactions noutcomes <|
      (List.range nactions).map fun a =>
        (List.range noutcomes).map fun d => pooledScore training concentration a d

end Prediction

end SolverPortfolio

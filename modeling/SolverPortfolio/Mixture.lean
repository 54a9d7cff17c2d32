import SolverPortfolio.Prediction
import SolverPortfolio.Randomness.Stream
import SolverPortfolio.Settings

/-!
# Mixtures

A mixture predicts from the outcomes that a session has seen. It is fitted by expectation
maximisation.
-/

namespace SolverPortfolio

/-!
## Mixtures of task populations

A mixture has weighted components; a component has, for every action, either
the probabilities of its outcomes or Dirichlet concentrations over them. The
outcomes seen in a session tell the components apart (`posterior`).
-/

/-- A component is stored flat, like a prediction: a row of parameters per
action. -/
structure Mixture (α : Type) where
  family : Family
  nactions : Nat
  noutcomes : Nat
  weights : List α
  components : List (List α)
  trainingLogLikelihood : Option α

namespace Mixture

open Scalar Analytic GammaFunctions LogSpace

variable {α : Type} [Analytic α]

def component (m : Mixture α) (k : Nat) : List α := m.components.getD k []

/-- The parameters of an action in a component. -/
def parameters (m : Mixture α) (component : List α) (action : Nat) : List α :=
  (component.drop (action * m.noutcomes)).take m.noutcomes

/-! ### Checks -/

/-- Nonnegative numbers that sum to one up to a small slack. -/
def isSimplex (values : List α) : Bool :=
  values.all (fun v => isFinite v && decide (0 ≤ v)) &&
    decide (Scalar.abs (sum values - 1) < 1e-6)

def isPositive (values : List α) : Bool :=
  values.all fun v => isFinite v && decide (0 < v)

def isRow (family : Family) (row : List α) : Bool :=
  match family with
  | .multinomial => isSimplex row
  | .dcm => isPositive row

/-- What is wrong with component number `k`, if anything. -/
def componentFault? (m : Mixture α) (k : Nat) (component : List α) : Option (ModelFault α) :=
  if component.length != m.nactions * m.noutcomes then some (.parameterCount k)
  else
    ((List.range m.nactions).find? fun a => !isRow m.family (m.parameters component a)).map
      fun a => .parameterRow k a (m.parameters component a)

/-- The fault of the first faulty component, numbered from `k` on. -/
def firstFault? (m : Mixture α) : Nat → List (List α) → Option (ModelFault α)
  | _, [] => none
  | k, c :: cs =>
    match m.componentFault? k c with
    | some fault => some fault
    | none => firstFault? m (k + 1) cs

def fault? (m : Mixture α) : Option (ModelFault α) :=
  if m.weights.isEmpty || m.weights.length != m.components.length then
    some (.weightCount m.weights.length m.components.length)
  else if !isSimplex m.weights then some .weightSum
  else m.firstFault? 0 m.components

def check (m : Mixture α) : Decision α Unit :=
  match m.fault? with
  | some fault => .error (.invalidModel fault)
  | none => .ok ()

/-- A mixture with given parameters. -/
def ofParts (family : Family) (nactions noutcomes : Nat) (weights : List α)
    (components : List (List α)) : Decision α (Mixture α) :=
  let m : Mixture α := ⟨family, nactions, noutcomes, weights, components, none⟩
  m.check.map fun _ => m

/-! ### Likelihood -/

variable [GammaFunctions α]

/-- `Σ c · ln p` over the outcomes that occurred. -/
def categoricalLogLikelihood (probabilities : List α) (row : List UInt32) : α :=
  sum (((probabilities.zip row).filter fun x => x.2 != 0).map fun x => ofCount x.2 * ln x.1)

/-- The observations of a row. -/
def rowTotal (row : List UInt32) : α := sum (row.map ofCount)

/-- The log probability of a sequence of outcomes with the given counts, drawn
one after the other from the urn with these concentrations. -/
def urnLogLikelihood (concentrations : List α) (row : List UInt32) : α :=
  let total : α := sum concentrations
  ((concentrations.zip row).filter fun x => x.2 != 0).foldl
    (fun ll x => ll + (lnGamma (x.1 + ofCount x.2) - lnGamma x.1))
    (lnGamma total - lnGamma (total + rowTotal row))

def actionLogLikelihood (family : Family) (parameters : List α) (row : List UInt32) : α :=
  match family with
  | .multinomial => categoricalLogLikelihood parameters row
  | .dcm => urnLogLikelihood parameters row

/-- The log likelihood of the outcomes counted in `c` under a component;
actions without outcomes say nothing. -/
def logLikelihood (m : Mixture α) (component : List α) (c : Counts) : α :=
  sum ((c.observed m.nactions).map fun a =>
    actionLogLikelihood m.family (m.parameters component a) (c.row a))

/-- The same as it is worked out: the rows are added up to tell which actions have outcomes. -/
def logLikelihood? (m : Mixture α) (component : List α) (c : Counts) : Option α :=
  if c.hasTotals m.nactions then some (m.logLikelihood component c) else none

/-- The logarithms of weight times likelihood, component by component. -/
def jointLogs (m : Mixture α) (c : Counts) : List α :=
  List.zipWith (fun w component => ln w + m.logLikelihood component c) m.weights m.components

/-- The component weights given a history; without outcomes they are the
weights of the mixture. -/
def posterior (m : Mixture α) (history : Counts) : List α :=
  if history.isZero then m.weights else normalizeLogs (m.jointLogs history)

/-- Whether the likelihood of a history can be worked out under every component; without outcomes
there is none to work out. -/
def canRead (m : Mixture α) (history : Counts) : Bool :=
  history.isZero || m.components.all fun component => (m.logLikelihood? component history).isSome

/-! ### Prediction -/

/-- The distribution of the next outcome of an action with the given counts. -/
def predictive (family : Family) (parameters : List α) (row : List UInt32) : List α :=
  match family with
  | .multinomial => parameters
  | .dcm =>
    let norm := sum parameters + rowTotal row
    List.zipWith (fun a c => (a + ofCount c) / norm) parameters row

/-- Add a component's predictive distribution to a row of scores. -/
def addScaled (scores : List α) (weight : α) (distribution : List α) : List α :=
  List.zipWith (fun s p => s + weight * p) scores distribution

/-- The mixed scores of an action; components of weight zero do not enter. -/
def actionScores (m : Mixture α) (history : Counts) (posterior : List α) (action : Nat) :
    List α :=
  ((posterior.zip m.components).filter fun x => !(x.1 == 0)).foldl
    (fun scores x =>
      addScaled scores x.1 (predictive m.family (m.parameters x.2 action) (history.row action)))
    (List.replicate m.noutcomes 0)

def predict (m : Mixture α) (history : Counts) : Prediction α :=
  let posterior := m.posterior history
  .ofScores m.nactions m.noutcomes
    ((List.range m.nactions).map (m.actionScores history posterior))

end Mixture

end SolverPortfolio

namespace SolverPortfolio.Mixture

/-!
## Fitting a mixture

Expectation maximisation from random responsibilities. A round re-estimates
weights and parameters from the responsibilities (`maximize`), then the
responsibilities and the log likelihood of the training set from the parameters
(`responsibilitiesOf`, `trainingScore`). The best of several restarts is kept.
-/

open Scalar Analytic GammaFunctions LogSpace Randomness

variable {α : Type} [Analytic α]

/-! ### Parameters from responsibilities -/

/-- How far each training task belongs to component `k`. -/
def column (responsibilities : List (List α)) (k : Nat) : List α :=
  responsibilities.map fun r => r.getD k 0

/-- Counts weighted by responsibility, on top of the pseudo-count. -/
def weightedCount (concentration : α) (samples : List (Counts × α)) (action outcome : Nat) : α :=
  samples.foldl (fun s x => s + x.2 * ofCount (x.1.get action outcome)) concentration

/-- The most probable outcome probabilities of an action. -/
def categoricalUpdate (s : EstimatorSettings α) (samples : List (Counts × α))
    (action noutcomes : Nat) : List α :=
  normalizeScores ((List.range noutcomes).map (weightedCount s.concentration samples action))

section

variable [GammaFunctions α]

def concentrationFloor : α := 1e-6

/-- The samples that say something about an action. -/
def informative (samples : List (Counts × α)) (action : Nat) : List (Counts × α) :=
  samples.filter fun x => x.1.total action != 0 && !decide (x.2 ≤ 0)

def urnDenominator (rate total : α) (samples : List (Counts × α)) (action : Nat) : α :=
  samples.foldl
    (fun s x => s + x.2 * (digamma (total + ofNat (x.1.total action)) - digamma total)) rate

def urnNumerator (a : α) (samples : List (Counts × α)) (action outcome : Nat) : α :=
  samples.foldl
    (fun s x =>
      let c := x.1.get action outcome
      if c != 0 then s + x.2 * (digamma (a + ofCount c) - digamma a) else s) 0

/-- One step of the fixed point for the concentrations of an action. -/
def urnStep (s : EstimatorSettings α) (samples : List (Counts × α)) (action : Nat)
    (concentrations : List α) : List α :=
  let samples := informative samples action
  let denominator := urnDenominator (1 / s.priorScale) (sum concentrations) samples action
  concentrations.zipIdx.map fun (a, d) =>
    let next := (a * urnNumerator a samples action d + (s.priorShape - 1)) / denominator
    if isFinite next then Scalar.max next concentrationFloor else concentrationFloor

def urnSteps : Nat := 16

def urnUpdate (s : EstimatorSettings α) (samples : List (Counts × α)) (action : Nat)
    (concentrations : List α) : List α :=
  Nat.repeat (urnStep s samples action) urnSteps concentrations

def updateAction (s : EstimatorSettings α) (m : Mixture α) (samples : List (Counts × α))
    (component : List α) (action : Nat) : List α :=
  match m.family with
  | .multinomial => categoricalUpdate s samples action m.noutcomes
  | .dcm => urnUpdate s samples action (m.parameters component action)

def updateComponent (s : EstimatorSettings α) (m : Mixture α) (samples : List (Counts × α))
    (component : List α) : List α :=
  ((List.range m.nactions).map (updateAction s m samples component)).flatten

def meanShare (column : List α) : α := sum column / ofNat column.length

/-- Weights and parameters re-estimated from the responsibilities. -/
def maximize (s : EstimatorSettings α) (m : Mixture α) (training : List Counts)
    (responsibilities : List (List α)) : Mixture α :=
  { m with
    weights := normalizeScores <|
      (List.range m.weights.length).map fun k => meanShare (column responsibilities k)
    components := m.components.zipIdx.map fun (component, k) =>
      updateComponent s m (training.zip (column responsibilities k)) component }

/-! ### Responsibilities from parameters -/

/-- The log likelihood of the training set. -/
def trainingScore (m : Mixture α) (training : List Counts) : α :=
  training.foldl (fun total c => total + logSumExp (m.jointLogs c)) 0

def responsibilitiesOf (m : Mixture α) (training : List Counts) : List (List α) :=
  training.map fun c => normalizeLogs (m.jointLogs c)

/-! ### Restarts -/

def initialParameter (family : Family) (noutcomes : Nat) : α :=
  match family with
  | .multinomial => 1 / ofNat noutcomes
  | .dcm => 1

def initial (family : Family) (nactions noutcomes ncomponents : Nat) : Mixture α where
  family := family
  nactions := nactions
  noutcomes := noutcomes
  weights := List.replicate ncomponents (1 / ofNat ncomponents)
  components := List.replicate ncomponents
    (List.replicate (nactions * noutcomes) (initialParameter family noutcomes))
  trainingLogLikelihood := none

/-- The log likelihood changed by no more than the tolerance allows. -/
def isSettled (tolerance previous score : α) : Bool :=
  isFinite previous &&
    decide (Scalar.abs (score - previous) ≤ tolerance * Scalar.max (Scalar.abs previous) 1)

/-- At most `rounds` rounds, fewer when the log likelihood settles. -/
def iterate (s : EstimatorSettings α) (training : List Counts) :
    Nat → Mixture α → List (List α) → α → Mixture α
  | 0, m, _, _ => m
  | rounds + 1, m, responsibilities, previous =>
    let fitted := maximize s m training responsibilities
    let score := fitted.trainingScore training
    let scored := { fitted with trainingLogLikelihood := some score }
    if isSettled s.tolerance previous score then scored
    else iterate s training rounds scored (fitted.responsibilitiesOf training) score

/-- One restart, and the stream after its draws. -/
def restart (s : EstimatorSettings α) (training : List Counts)
    (nactions noutcomes ncomponents : Nat) (stream : Stream) : Mixture α × Stream :=
  let (rows, stream) := stream.takeRows ncomponents training.length
  let start := initial s.family nactions noutcomes ncomponents
  (iterate s training s.maxIterations start (rows.map normalizeScores) (-infinity), stream)

def fitScore (m : Mixture α) : α := m.trainingLogLikelihood.getD (-infinity)

/-- The better of the best mixture so far and a new one; the earlier one wins
ties. -/
def better : Option (Mixture α) → Mixture α → Mixture α
  | none, m => m
  | some best, m => if fitScore best < fitScore m then m else best

def bestRestart (s : EstimatorSettings α) (training : List Counts)
    (nactions noutcomes ncomponents : Nat) :
    Nat → Stream → Option (Mixture α) → Option (Mixture α)
  | 0, _, best => best
  | restarts + 1, stream, best =>
    let (m, stream) := restart s training nactions noutcomes ncomponents stream
    bestRestart s training nactions noutcomes ncomponents restarts stream (some (better best m))

/-- Every round adds up the rows of all training tasks. -/
def canFit (s : EstimatorSettings α) (training : List Counts) (nactions : Nat) : Bool :=
  s.maxIterations == 0 || training.all fun c => c.hasTotals nactions

/-- The best mixture of at most as many components as there are tasks. -/
def fit (s : EstimatorSettings α) (e : Entropy) (training : List Counts) :
    Decision α (Mixture α) := do
  let (nactions, noutcomes) ← Prediction.commonShape training
  if s.components = 0 || s.restarts = 0 then throw (.invalidModel .nothingToFit)
  .provided (canFit s training nactions)
  let ncomponents := min s.components training.length
  match bestRestart s training nactions noutcomes ncomponents s.restarts
      (e.streamFor s.seed) none with
  | none => throw .emptyTraining
  | some m =>
    m.check
    return m

end

end SolverPortfolio.Mixture

import SolverPortfolio.Portfolio

/-!
# Choosing actions

What a strategy that plans knows, and the strategies themselves.
-/

namespace SolverPortfolio

/-!
## Planning against a model

What a modeling session knows and has worked out: the outcomes so far, the
prediction and the posterior for them, and whether a plan was made. Every
operation returns the state it leaves behind, also when it fails.
-/

structure Modeling (α : Type) where
  portfolio : Portfolio α
  taskId : String
  features : Option (FeatureVector α)
  history : Counts
  planned : Bool
  prediction : Option (Prediction α)
  posterior : Option (List α)

namespace Modeling

variable {α : Type} [Analytic α]

def start (p : Portfolio α) (taskId : String) : Modeling α where
  portfolio := p
  taskId := taskId
  features := none
  history := Counts.fresh p.world.nactions
  planned := false
  prediction := none
  posterior := none

def planner (m : Modeling α) : Planner α := Planner.ofSettings m.portfolio.planner

/-- Take new features; what was predicted without them no longer holds. -/
def withFeatures (m : Modeling α) (features : Option (FeatureVector α)) : Modeling α :=
  { m with features := features, prediction := none }

/-- The first plan, and a new one every time if plans are not kept. -/
def wantsNewPlan (m : Modeling α) : Bool :=
  !m.planned || (m.portfolio.planner.replan && m.planner.supportsReplanning)

/-- One more outcome, if it counts under an index. -/
def count? (m : Modeling α) (index : Option Nat) (kind : OutcomeKind) : Option (Modeling α) :=
  match index with
  | some i => (m.history.record i kind).map fun c => { m with history := c }
  | none => some m

variable [GammaFunctions α]

/-- Posterior and prediction for the history as it is now. -/
def refresh (m : Modeling α) : Modeling α × Decision α Unit :=
  match m.portfolio.model.posterior m.history with
  | .error e => (m, .error e)
  | .ok posterior =>
    let updated := { m with posterior := posterior }
    match m.portfolio.model.predict m.taskId m.features m.history with
    | .ok p => ({ updated with prediction := some p }, .ok ())
    | .error e => (updated, .error e)

/-- Refresh unless there is a prediction already. -/
def ensurePrediction (m : Modeling α) : Modeling α × Decision α Unit :=
  if m.prediction.isNone then m.refresh else (m, .ok ())

def rates (m : Modeling α) : List α := (m.prediction.map Prediction.successRates).getD []

/-- Plan for a remaining budget. -/
def buildPlan (m : Modeling α) (remaining : α) :
    Modeling α × Decision α (List (PlanStep α)) :=
  match m.ensurePrediction with
  | (m, .error e) => (m, .error e)
  | (m, .ok ()) =>
    ({ m with planned := true }, m.planner.plan m.portfolio.world m.rates remaining)

end Modeling

/-!
## Strategies

A strategy chooses the actions of one session. It is asked for an action with
the remaining budget (`select`) and told the outcome (`observe`), in turn:

- ready, and something fits: the action is pending, and its outcome awaited;
- ready, and nothing fits: the strategy is exhausted for good;
- the outcome of the pending action arrives: ready again.

There are three kinds: one that plans against a model, one that runs through a
list and stops at the first action that does not fit, and one that repeats a
single action. A call that fails returns the state it leaves behind. Only an
overflow leaves none, since the library stops there; the strategy is then
returned as it was called (`unlessStopped`).
-/

inductive Policy (α : Type) where
  | modeling (state : Modeling α)
  | sequence
  | fixed (action : Action α)

/-- A step in the queue. Steps of a plan know the index their outcome counts
under. -/
structure QueuedStep (α : Type) where
  action : Action α
  index : Option Nat
  runsToRemaining : Bool

/-- An action on its way, with the index its outcome counts under. -/
abbrev Pending (α : Type) := Action α × Option Nat

structure Strategy (α : Type) where
  policy : Policy α
  phase : Phase
  queue : List (QueuedStep α)
  pending : Option (Pending α)

namespace QueuedStep

variable {α : Type} [Scalar α]

def ofAction (a : Action α) : QueuedStep α := ⟨a, none, false⟩

def ofPlan (s : PlanStep α) : QueuedStep α := ⟨s.action, some s.index, s.runsToRemaining⟩

/-- The action to run when this much of the budget is left, if it fits. -/
def fit? (s : QueuedStep α) (remaining : α) : Option (Pending α) :=
  if remaining < s.action.cost then none
  else some (if s.runsToRemaining then s.action.withCost remaining else s.action, s.index)

/-- Drop steps until one fits. -/
def nextFitting (remaining : α) :
    List (QueuedStep α) → Option (Pending α) × List (QueuedStep α)
  | [] => (none, [])
  | s :: rest =>
    match s.fit? remaining with
    | some p => (some p, rest)
    | none => nextFitting remaining rest

/-- The first step or none; a step that does not fit stays. -/
def frontFitting (remaining : α) :
    List (QueuedStep α) → Option (Pending α) × List (QueuedStep α)
  | [] => (none, [])
  | s :: rest =>
    match s.fit? remaining with
    | some p => (some p, rest)
    | none => (none, s :: rest)

end QueuedStep

namespace Strategy

variable {α : Type} [Analytic α]

/-! ### Building -/

def ofPolicy (p : Policy α) : Strategy α := ⟨p, .ready, [], none⟩

def modeling (p : Portfolio α) (taskId : String) : Strategy α :=
  ofPolicy (.modeling (.start p taskId))

def sequence (actions : List (Action α)) : Strategy α :=
  { ofPolicy .sequence with queue := actions.map .ofAction }

def fixed (a : Action α) : Strategy α := ofPolicy (.fixed a)

/-- Only modeling strategies look at features. -/
def withFeatures (s : Strategy α) (features : Option (FeatureVector α)) : Strategy α :=
  match s.policy with
  | .modeling m => { s with policy := .modeling (m.withFeatures features) }
  | _ => s

/-! ### Looking -/

def modelingState? (s : Strategy α) : Option (Modeling α) :=
  match s.policy with
  | .modeling m => some m
  | _ => none

def history? (s : Strategy α) : Option Counts := s.modelingState?.map Modeling.history

def posterior? (s : Strategy α) : Option (List α) := s.modelingState?.bind Modeling.posterior

def plannedActions (s : Strategy α) : List (Action α) := s.queue.map QueuedStep.action

/-- The answer of a call, unless the library stopped in it. -/
def unlessStopped {β : Type} (s : Strategy α) (answer : Strategy α × Decision α β) :
    Strategy α × Decision α β :=
  match answer with
  | (_, .error .overflow) => (s, .error .overflow)
  | _ => answer

/-! ### Selecting -/

variable [GammaFunctions α]

/-- Make a new plan if the model wants one. -/
def replan (s : Strategy α) (m : Modeling α) (remaining : α) :
    Strategy α × Decision α Unit :=
  if m.wantsNewPlan then
    match m.buildPlan remaining with
    | (m, .error e) => ({ s with policy := .modeling m }, .error e)
    | (m, .ok plan) =>
      ({ s with policy := .modeling m, queue := plan.map .ofPlan }, .ok ())
  else (s, .ok ())

/-- The next action by the policy, and the strategy with it taken. -/
def choose (s : Strategy α) (remaining : α) :
    Strategy α × Decision α (Option (Pending α)) :=
  match s.policy with
  | .modeling m =>
    match s.replan m remaining with
    | (s, .error e) => (s, .error e)
    | (s, .ok ()) =>
      let (next, queue) := QueuedStep.nextFitting remaining s.queue
      ({ s with queue := queue }, .ok next)
  | .sequence =>
    let (next, queue) := QueuedStep.frontFitting remaining s.queue
    ({ s with queue := queue }, .ok next)
  | .fixed a => (s, .ok (if a.cost ≤ remaining then some (a, none) else none))

/-- Choose an action that fits into the remaining budget. -/
def select (s : Strategy α) (remaining : α) :
    Strategy α × Decision α (Option (Action α)) :=
  if s.phase ≠ .ready then (s, .error (.invalidTransition s.phase .select))
  else if Scalar.isNaN remaining || decide (remaining < 0) then
    (s, .error (.negativeBudget remaining))
  else
    s.unlessStopped <| match s.choose remaining with
    | (s, .error e) => (s, .error e)
    | (s, .ok (some p)) =>
      ({ s with pending := some p, phase := .awaitingOutcome }, .ok (some p.1))
    | (s, .ok none) => ({ s with queue := [], phase := .exhausted }, .ok none)

/-! ### Observing -/

/-- Take in an outcome of the action with this index. -/
def absorb (s : Strategy α) (index : Option Nat) (kind : OutcomeKind) :
    Strategy α × Decision α Unit :=
  match s.policy with
  | .modeling m =>
    match m.count? index kind with
    | none => (s, .error .overflow)
    | some m =>
      let (m, result) := m.refresh
      ({ s with policy := .modeling m }, result)
  | _ => (s, .ok ())

/-- Take in the outcome of the pending action; any other action is refused. -/
def observe (s : Strategy α) (action : Action α) (outcome : Outcome) :
    Strategy α × Decision α Unit :=
  if s.phase ≠ .awaitingOutcome then (s, .error (.invalidTransition s.phase .observe))
  else
    match s.pending with
    | none => (s, .error (.invalidTransition s.phase .observe))
    | some (expected, index) =>
      if !(expected == action) then
        (s, .error (.unexpectedObservation action.description expected.description))
      else
        s.unlessStopped <| match absorb { s with pending := none } index outcome.kind with
        | (s, .error e) => (s, .error e)
        | (s, .ok ()) => ({ s with phase := .ready }, .ok ())

end Strategy

end SolverPortfolio

import SolverPortfolio.Proofs.Bounds.Model
import SolverPortfolio.Proofs.Bounds.Planner
import SolverPortfolio.Proofs.Portfolio.Scores
import SolverPortfolio.Proofs.Strategy.History
import SolverPortfolio.Proofs.World
import SolverPortfolio.Scalar.Double

/-!
# Checked portfolios

Sessions over a checked portfolio stay within bounds and meet valid tables.
-/

namespace SolverPortfolio

/-!
## Sessions stay within bounds

The checked counterparts of the requests of a strategy: they go through the checked
counterparts of model and planner, and count an outcome only in a cell that exists. In
every state that a session over a checked portfolio can reach, with whatever task, features
and outcomes, they have the results of the requests themselves
(`selectAction?_eq_some`, `observeOutcome?_eq_some`).
-/

variable {α : Type}

/-! ### Planning against a model -/

namespace Modeling

/-- A cell that is there may still be full. -/
def countAt? (m : Modeling α) (index : Option Nat) (kind : OutcomeKind) :
    Option (Option (Modeling α)) :=
  match index with
  | some i => (m.history.recordAt? i kind).map fun c => c.map fun c => { m with history := c }
  | none => some (some m)

theorem countAt?_eq_some {m : Modeling α} (ht : m.history.Tallies m.portfolio.world.nactions)
    {index : Option Nat} (hi : ∀ i, index = some i → i < m.portfolio.world.nactions)
    (kind : OutcomeKind) : m.countAt? index kind = some (m.count? index kind) := by
  cases index with
  | none => rfl
  | some i =>
      rw [countAt?, ht.recordAt? (hi i rfl)]
      rfl

variable [Analytic α]

/-- The rates for the planner; there are none without a prediction. -/
def rates? (m : Modeling α) : Option (List α) :=
  match m.prediction with
  | none => some []
  | some t => t.successRates?

variable [GammaFunctions α]

def refresh? (m : Modeling α) : Option (Modeling α × Decision α Unit) := do
  match ← m.portfolio.model.posterior? m.history with
  | .error e => return (m, .error e)
  | .ok posterior =>
    let updated := { m with posterior := posterior }
    match ← m.portfolio.model.predict? m.taskId m.features m.history with
    | .ok p => return ({ updated with prediction := some p }, .ok ())
    | .error e => return (updated, .error e)

def ensurePrediction? (m : Modeling α) : Option (Modeling α × Decision α Unit) :=
  if m.prediction.isNone then m.refresh? else some (m, .ok ())

def buildPlan? (m : Modeling α) (remaining : α) :
    Option (Modeling α × Decision α (List (PlanStep α))) := do
  match ← m.ensurePrediction? with
  | (m, .error e) => return (m, .error e)
  | (m, .ok ()) =>
    let rates ← m.rates?
    let plan ← m.planner.plan? m.portfolio.world rates remaining
    return ({ m with planned := true }, plan)

variable {m : Modeling α}

theorem refresh?_eq_some (h : m.Sound) (ht : m.history.Tallies m.portfolio.world.nactions) :
    m.refresh? = some m.refresh := by
  have hmodel := Portfolio.isSized h.checked
  rw [refresh?, Model.posterior?_eq_some hmodel ht, Model.predict?_eq_some hmodel ht, refresh]
  simp only [Option.bind_eq_bind, Option.bind_some]
  cases m.portfolio.model.posterior m.history with
  | error e => rfl
  | ok _ => cases m.portfolio.model.predict m.taskId m.features m.history <;> rfl

theorem ensurePrediction?_eq_some (h : m.Sound)
    (ht : m.history.Tallies m.portfolio.world.nactions) :
    m.ensurePrediction? = some m.ensurePrediction := by
  rw [ensurePrediction?, ensurePrediction, refresh?_eq_some h ht]
  split <;> rfl

/-- A prediction that is kept has the size of the world. -/
theorem Coherent.isSized (h : m.Coherent) (ht : m.history.Tallies m.portfolio.world.nactions)
    {t : Prediction α} (hp : m.prediction = some t) : t.IsSized m.portfolio.world.nactions :=
  Model.isSized_of_predict (Portfolio.isSized h.checked) ht (h.prediction t hp)

theorem rates?_eq_some (h : m.Coherent) (ht : m.history.Tallies m.portfolio.world.nactions) :
    m.rates? = some m.rates := by
  rw [rates?, rates]
  cases hp : m.prediction with
  | none => rfl
  | some t => exact (h.isSized ht hp).successRates?

theorem buildPlan?_eq_some (h : m.Coherent) (ht : m.history.Tallies m.portfolio.world.nactions)
    (remaining : α) : m.buildPlan? remaining = some (m.buildPlan remaining) := by
  rw [buildPlan?, buildPlan, ensurePrediction?_eq_some h.toSound ht]
  by_cases hk : m.Knows
  · obtain ⟨_, m', _, heq, hview, hco, _⟩ := ensurePrediction_of_knows h hk
    have ht' : m'.history.Tallies m'.portfolio.world.nactions := by
      rw [hview.history, hview.portfolio]
      exact ht
    simp only [Option.bind_eq_bind, Option.bind_some, heq, rates?_eq_some hco ht',
      Planner.plan?_eq_some]
    rfl
  · simp only [Option.bind_eq_bind, Option.bind_some, ensurePrediction_of_not_knows h hk]
    rfl

end Modeling

/-! ### Requests -/

namespace Strategy

variable [Analytic α] [GammaFunctions α]

def replan? (s : Strategy α) (m : Modeling α) (remaining : α) :
    Option (Strategy α × Decision α Unit) :=
  if m.wantsNewPlan then do
    match ← m.buildPlan? remaining with
    | (m, .error e) => return ({ s with policy := .modeling m }, .error e)
    | (m, .ok plan) =>
      return ({ s with policy := .modeling m, queue := plan.map .ofPlan }, .ok ())
  else some (s, .ok ())

def choose? (s : Strategy α) (remaining : α) :
    Option (Strategy α × Decision α (Option (Pending α))) :=
  match s.policy with
  | .modeling m => do
    match ← s.replan? m remaining with
    | (s, .error e) => return (s, .error e)
    | (s, .ok ()) =>
      let (next, queue) := QueuedStep.nextFitting remaining s.queue
      return ({ s with queue := queue }, .ok next)
  | .sequence =>
    let (next, queue) := QueuedStep.frontFitting remaining s.queue
    some ({ s with queue := queue }, .ok next)
  | .fixed a => some (s, .ok (if a.cost ≤ remaining then some (a, none) else none))

/-- Checked counterpart of `select`. -/
def selectAction? (s : Strategy α) (remaining : α) :
    Option (Strategy α × Decision α (Option (Action α))) :=
  if s.phase ≠ .ready then some (s, .error (.invalidTransition s.phase .select))
  else if Scalar.isNaN remaining || decide (remaining < 0) then
    some (s, .error (.negativeBudget remaining))
  else Option.map s.unlessStopped do
    match ← s.choose? remaining with
    | (s, .error e) => return (s, .error e)
    | (s, .ok (some p)) =>
      return ({ s with pending := some p, phase := .awaitingOutcome }, .ok (some p.1))
    | (s, .ok none) => return ({ s with queue := [], phase := .exhausted }, .ok none)

def absorb? (s : Strategy α) (index : Option Nat) (kind : OutcomeKind) :
    Option (Strategy α × Decision α Unit) :=
  match s.policy with
  | .modeling m => do
    match ← m.countAt? index kind with
    | none => return (s, .error .overflow)
    | some m =>
      let (m, result) ← m.refresh?
      return ({ s with policy := .modeling m }, result)
  | _ => some (s, .ok ())

/-- Checked counterpart of `observe`. -/
def observeOutcome? (s : Strategy α) (action : Action α) (outcome : Outcome) :
    Option (Strategy α × Decision α Unit) :=
  if s.phase ≠ .awaitingOutcome then some (s, .error (.invalidTransition s.phase .observe))
  else
    match s.pending with
    | none => some (s, .error (.invalidTransition s.phase .observe))
    | some (expected, index) =>
      if !(expected == action) then
        some (s, .error (.unexpectedObservation action.description expected.description))
      else Option.map s.unlessStopped do
        match ← absorb? { s with pending := none } index outcome.kind with
        | (s, .error e) => return (s, .error e)
        | (s, .ok ()) => return ({ s with phase := .ready }, .ok ())

variable {s : Strategy α} {seen : List Seen}

theorem replan?_eq_some {m : Modeling α} (h : m.Coherent)
    (ht : m.history.Tallies m.portfolio.world.nactions) (remaining : α) :
    s.replan? m remaining = some (s.replan m remaining) := by
  rw [replan?, replan]
  split
  · rw [Modeling.buildPlan?_eq_some h ht]
    rcases m.buildPlan remaining with ⟨m', e | plan⟩ <;> rfl
  · rfl

theorem choose?_eq_some (h : s.Inv) (ht : s.Tallied seen) (remaining : α) :
    s.choose? remaining = some (s.choose remaining) := by
  rw [choose?, choose]
  cases hp : s.policy with
  | modeling m =>
      simp only [replan?_eq_some (h.coherent m hp) (ht m hp).shape, Option.bind_eq_bind,
        Option.bind_some]
      rcases s.replan m remaining with ⟨s', e | _⟩ <;> rfl
  | sequence => rfl
  | fixed a => rfl

theorem selectAction?_eq_some (h : s.Inv) (ht : s.Tallied seen) (remaining : α) :
    s.selectAction? remaining = some (s.select remaining) := by
  rw [selectAction?, select]
  split
  · rfl
  · split
    · rfl
    · rw [choose?_eq_some h ht]
      rcases s.choose remaining with ⟨s', e | none | p⟩ <;> rfl

theorem absorb?_eq_some (h : ∀ m, s.policy = .modeling m → m.Sound) (ht : s.Tallied seen)
    {index : Option Nat} (hi : ∀ m, s.policy = .modeling m →
      ∀ i, index = some i → i < m.portfolio.world.nactions) (kind : OutcomeKind) :
    s.absorb? index kind = some (s.absorb index kind) := by
  rw [absorb?]
  cases hp : s.policy with
  | modeling m =>
      have hshape := (ht m hp).shape
      have hcounted : (m.counted index kind).history.Tallies
          (m.counted index kind).portfolio.world.nactions := by
        cases index with
        | none => exact hshape
        | some i => exact hshape.bump i kind.index
      simp only [Modeling.countAt?_eq_some hshape (hi m hp), Option.bind_eq_bind, Option.bind_some]
      by_cases hroom : ∀ i, index = some i → m.history.hasRoom i kind.index = true
      · rw [absorb_modeling hp hroom, Modeling.count?_eq_some hroom]
        simp only [Modeling.refresh?_eq_some ((h m hp).counted index kind) hcounted,
          Option.bind_some]
        rfl
      · push Not at hroom
        obtain ⟨i, rfl, hfull⟩ := hroom
        simp only [absorb, hp, Modeling.count?_eq_none hfull]
        rfl
  | sequence => simp only [absorb, hp]
  | fixed a => simp only [absorb, hp]

theorem observeOutcome?_eq_some (h : s.Inv) (hs : s.Stocked) (ht : s.Tallied seen)
    (action : Action α) (outcome : Outcome) :
    s.observeOutcome? action outcome = some (s.observe action outcome) := by
  rw [observeOutcome?, observe]
  split
  · rfl
  · cases hp : s.pending with
    | none => rfl
    | some p =>
        obtain ⟨expected, index⟩ := p
        simp only
        split
        · rfl
        · have hi : ∀ m, s.policy = .modeling m →
              ∀ i, index = some i → i < m.portfolio.world.nactions := by
            intro m hm i hindex
            obtain ⟨j, hj, hj'⟩ := hs.pending_index hm hp
            obtain rfl := Option.some.inj (hindex.symm.trans hj')
            exact hj
          rw [absorb?_eq_some (s := { s with pending := none })
            (fun m hm => (h.coherent m hm).toSound) ht hi]
          rcases absorb { s with pending := none } index outcome.kind with ⟨s', e | _⟩ <;> rfl

end Strategy

end SolverPortfolio

namespace SolverPortfolio

/-!
## Validation is sufficient

A portfolio is checked once, when it is built or read (`Portfolio.check_of_build`,
`Wire.check_of_parsePortfolio`). That is enough for every session over it: whatever the
task, the features and the requests are, no definition reads past the end of a list, every
table is one of distributions, and planners get probabilities. The only complaint about the
model a session can meet is that an oracle has no runs for its task, and it comes when an
action is asked for (`Strategy.Refuses`).

Sizes are natural numbers and arithmetic is exact in `validation_suffices`, the headline;
that nothing is read out of bounds holds for any scalars.
-/

open Rounded

/-- Only an oracle may have nothing to say about a task. -/
theorem Model.exists_oracle {α : Type} {model : Model α} {task : String}
    (h : ¬model.Knows task) : ∃ tables, model = .oracle tables ∧ tables.lookup task = none := by
  cases model with
  | oracle tables => exact ⟨tables, rfl, Option.not_isSome_iff_eq_none.mp h⟩
  | multinomial _ => exact absurd trivial h
  | mixture _ => exact absurd trivial h
  | classifier _ => exact absurd trivial h
  | random _ _ _ => exact absurd trivial h

/-! ### Exact arithmetic -/

section Validation

variable [GammaFunctions Exact]

theorem Modeling.isProbability_of_mem_rates {m : Modeling Exact} (h : m.Coherent) :
    ∀ r ∈ m.ensurePrediction.1.rates, IsProbability r := by
  by_cases hk : m.Knows
  · obtain ⟨t, m', ht, heq, _, _, hprediction⟩ := ensurePrediction_of_knows h hk
    rw [heq, rates_of_prediction hprediction]
    exact Portfolio.isProbability_of_mem_rates h.checked ht
  · intro r hr
    rw [ensurePrediction_of_not_knows h hk, rates, h.prediction_eq_none hk] at hr
    cases hr

namespace Strategy

/-- **Validation is sufficient.** In every state that a session over a checked portfolio can
reach, with any task, any features given at any time and any requests: selecting and
observing read nothing out of bounds; the prediction that is kept, and the one that would be
worked out, has a row of three nonnegative numbers that sum to one up to a millionth for
each action of the world, and the rates the planner is called with are probabilities; and a
refusal is never about shapes, and about the model only when an action is asked for and the
model is an oracle without runs for the task. -/
theorem validation_suffices {p : Portfolio Exact} (checked : p.check = .ok ()) (taskId : String)
    (events : List (Event Exact)) {s : Strategy Exact}
    (hs : s = (modeling p taskId).play events) :
    (∀ remaining, s.selectAction? remaining = some (s.select remaining)) ∧
      (∀ action outcome, s.observeOutcome? action outcome = some (s.observe action outcome)) ∧
      (∃ m, s.modelingState? = some m ∧ m.portfolio = p ∧
        (∀ t, m.prediction = some t ∨ m.predicted = .ok t → t.IsTable p.world.nactions) ∧
        ∀ r ∈ m.ensurePrediction.1.rates, IsProbability r) ∧
      ∀ r e, s.fault? r = some e →
        (∀ shapes, e ≠ .shapeMismatch shapes) ∧
        ∀ fault, e = .invalidModel fault → fault = .unknownTask taskId ∧
          (∃ remaining, r = .select remaining) ∧
          ∃ tables, p.model = .oracle tables ∧ tables.lookup taskId = none := by
  subst hs
  have hfresh : Fresh (modeling p taskId) := .modeling p checked taskId none
  obtain ⟨hinv, hstocked⟩ := stocked_play hfresh events
  have htallied := tallied_log hfresh events
  obtain ⟨m, hm, rfl, rfl, _⟩ :=
    Serves.play ⟨_, rfl, rfl, rfl, rfl⟩ (inv_fresh hfresh) events
  have hco : m.Coherent := hinv.coherent m hm
  refine ⟨selectAction?_eq_some hinv htallied, observeOutcome?_eq_some hinv hstocked htallied,
    ⟨m, by rw [modelingState?, hm], rfl, fun t ht => ?_, Modeling.isProbability_of_mem_rates hco⟩,
    fun r e he => ?_⟩
  · have hpredicted : m.predicted = .ok t := ht.elim (hco.prediction t) id
    exact Portfolio.isTable_of_predict hco.checked (htallied m hm).shape hpredicted
  · cases (refuses_of_fault hinv he).1 with
    | transition _ => exact ⟨nofun, nofun⟩
    | budget _ => exact ⟨nofun, nofun⟩
    | action _ _ => exact ⟨nofun, nofun⟩
    | stopped _ => exact ⟨nofun, nofun⟩
    | task hm' hk =>
        obtain rfl := Policy.modeling.inj (hm.symm.trans hm')
        refine ⟨nofun, fun fault hfault => ?_⟩
        obtain rfl := PortfolioError.invalidModel.inj hfault
        exact ⟨rfl, ⟨_, rfl⟩, Model.exists_oracle hk⟩

end Strategy

end Validation

/-- Noise over two rungs. -/
noncomputable def noisyRungs : Portfolio Exact :=
  ⟨World.twoRungs, .random 0 2 OutcomeKind.count, ⟨.knapsack, true, .real 0, 4⟩⟩

theorem noisyRungs_check : noisyRungs.check = .ok () := by
  have hdiscount : isDiscount (α := Exact) (.real 0) = true := by
    simp [isDiscount]
  have hshapes : Portfolio.checkShapes World.twoRungs [(2, OutcomeKind.count)] = .ok () := rfl
  show (World.twoRungs.check >>= fun _ =>
    Portfolio.checkShapes World.twoRungs [(2, OutcomeKind.count)] >>= fun _ =>
      if !isDiscount (α := Exact) (.real 0) then _ else _) = _
  rw [World.twoRungs_check, hshapes, hdiscount]
  rfl

/-- A session over noise that was asked for an action and then given features. -/
theorem Strategy.validation_suffices_noisyRungs :
    noisyRungs.check = .ok () ∧
      ∃ m, ((Strategy.modeling noisyRungs "t").play
          [.request (.select (.real 20)), .features (some ⟨["depth"], [.real 3]⟩)]).modelingState? =
            some m ∧
        ∀ r ∈ m.ensurePrediction.1.rates, IsProbability r := by
  obtain ⟨_, _, ⟨m, hm, _, _, hrates⟩, _⟩ := validation_suffices noisyRungs_check "t"
    [.request (.select (.real 20)), .features (some ⟨["depth"], [.real 3]⟩)] rfl
  exact ⟨noisyRungs_check, m, hm, hrates⟩

end SolverPortfolio

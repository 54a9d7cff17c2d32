import SolverPortfolio.Proofs.Strategy.Coherence
import SolverPortfolio.Scalar.Double

/-!
# The protocol of a strategy

A session asks its strategy in any order (`Request`), also in orders that make no
sense. `Inv` is what holds of a strategy between any two requests: an action is pending
exactly when its outcome is awaited, an exhausted strategy has nothing queued, and the
caches of a modeling strategy are coherent.

- `choose_cases`, `select_cases` and `observe_cases` say once everything a call can do:
  why it is refused (`Refuses`), what is taken from which queue (`Chosen`), what changes in
  the policy. All that follows is read off them.
- `Stops` is where a call leaves the words: a budget that the planner has no tables for, an
  outcome that does not count any more. There the library stops, and the strategy stays as it is.
- `inv_after` is the step, `inv_run` the run.
- `protocol_holds` is the headline: the invariant along every run of every kind of
  strategy, and that a refused request changes nothing.
-/

namespace SolverPortfolio

/-- What a strategy can be asked. -/
inductive Request (α : Type) where
  | select (remaining : α)
  | observe (action : Action α) (outcome : Outcome)

def Request.call {α : Type} : Request α → Call
  | .select _ => .select
  | .observe _ _ => .observe

/-- The phase in which the request is answered. -/
def Request.due {α : Type} : Request α → Phase
  | .select _ => .ready
  | .observe _ _ => .awaitingOutcome

/-- The error of a computation that failed. -/
def Decision.fault? {α β : Type} : Decision α β → Option (PortfolioError α)
  | .ok _ => none
  | .error e => some e

/-- The errors of a request that came at the wrong time, with the wrong budget or
action, or for a task that an oracle does not know. -/
def PortfolioError.IsRefusal {α : Type} : PortfolioError α → Prop
  | .negativeBudget _ => True
  | .invalidTransition _ _ => True
  | .unexpectedObservation _ _ => True
  | .invalidModel (.unknownTask _) => True
  | _ => False

/-- How the policy of a strategy may change between two requests. -/
inductive Policy.Kept {α : Type} [Analytic α] [GammaFunctions α] : Policy α → Policy α → Prop
  | modeling {m m' : Modeling α} (view : Modeling.SameView m m') (coherent : m'.Coherent)
      (knows : m'.Knows) : Kept (.modeling m) (.modeling m')
  | sequence : Kept .sequence .sequence
  | fixed (a : Action α) : Kept (.fixed a) (.fixed a)

/-! ## One more outcome -/

namespace Modeling

variable {α : Type}

/-- The session with one more outcome, if it counts under an index. -/
def counted (m : Modeling α) (index : Option Nat) (kind : OutcomeKind) : Modeling α :=
  match index with
  | some i => m.bump i kind.index
  | none => m

/-- The cell of the outcome has room for it, and the model gets through the history with it. -/
structure CanCount [Analytic α] [GammaFunctions α] (m : Modeling α) (index : Option Nat)
    (kind : OutcomeKind) : Prop where
  room : ∀ i, index = some i → m.history.hasRoom i kind.index = true
  readable : (m.counted index kind).canRead = true

theorem counted_view (m : Modeling α) (index : Option Nat) (kind : OutcomeKind) :
    (m.counted index kind).portfolio = m.portfolio ∧ (m.counted index kind).taskId = m.taskId ∧
      (m.counted index kind).features = m.features := by
  cases index <;> exact ⟨rfl, rfl, rfl⟩

theorem Sound.counted [Analytic α] {m : Modeling α} (h : m.Sound) (index : Option Nat)
    (kind : OutcomeKind) : (m.counted index kind).Sound := by
  cases index with
  | some i => exact h.bump i kind.index
  | none => exact h

theorem count?_eq_some {m : Modeling α} {index : Option Nat} {kind : OutcomeKind}
    (h : ∀ i, index = some i → m.history.hasRoom i kind.index = true) :
    m.count? index kind = some (m.counted index kind) := by
  cases index with
  | some i => rw [count?, Counts.record_eq_some (h i rfl)]; rfl
  | none => rfl

theorem count?_eq_none {m : Modeling α} {i : Nat} {kind : OutcomeKind}
    (h : ¬m.history.hasRoom i kind.index = true) : m.count? (some i) kind = none := by
  rw [count?, Counts.record_eq_none h]
  rfl

end Modeling

namespace Policy

variable {α : Type}

/-- Only sessions with a model count. -/
def counted (index : Option Nat) (kind : OutcomeKind) : Policy α → Policy α
  | .modeling m => .modeling (m.counted index kind)
  | .sequence => .sequence
  | .fixed a => .fixed a

def CanCount [Analytic α] [GammaFunctions α] (index : Option Nat) (kind : OutcomeKind) :
    Policy α → Prop
  | .modeling m => m.CanCount index kind
  | .sequence => True
  | .fixed _ => True

theorem of_not_canCount [Analytic α] [GammaFunctions α] {p : Policy α} {index : Option Nat}
    {kind : OutcomeKind} (h : ¬p.CanCount index kind) :
    ∃ m, p = .modeling m ∧ ¬m.CanCount index kind := by
  cases p with
  | modeling m => exact ⟨m, rfl, h⟩
  | sequence => exact absurd trivial h
  | fixed a => exact absurd trivial h

end Policy

/-- What a policy takes from a queue within a budget, and what it leaves. -/
def Policy.take {α : Type} [Scalar α] (remaining : α) (queue : List (QueuedStep α)) :
    Policy α → Option (Pending α) × List (QueuedStep α)
  | .modeling _ => QueuedStep.nextFitting remaining queue
  | .sequence => QueuedStep.frontFitting remaining queue
  | .fixed a => (if a.cost ≤ remaining then some (a, none) else none, queue)

namespace Policy

variable {α : Type} [Analytic α] [GammaFunctions α] {p p' : Policy α}

theorem Kept.coherent (h : p.Kept p') {m : Modeling α} (hm : p' = .modeling m) :
    m.Coherent := by
  cases h with
  | modeling view coherent knows =>
      obtain rfl := Policy.modeling.inj hm
      exact coherent
  | sequence => cases hm
  | fixed a => cases hm

theorem Kept.ne_modeling (h : p.Kept p') (hp : ∀ m, p ≠ .modeling m) : ∀ m, p' ≠ .modeling m := by
  cases h with
  | modeling view coherent knows => exact absurd rfl (hp _)
  | sequence => exact hp
  | fixed a => exact hp

theorem Kept.knows (h : p.Kept p') {m : Modeling α} (hm : p' = .modeling m) : m.Knows := by
  cases h with
  | modeling view coherent knows =>
      obtain rfl := Policy.modeling.inj hm
      exact knows
  | sequence => cases hm
  | fixed a => cases hm

end Policy

namespace Strategy

variable {α : Type}

/-! ## Stopping -/

@[simp] theorem unlessStopped_ok {β : Type} (s s' : Strategy α) (b : β) :
    s.unlessStopped (s', .ok b) = (s', .ok b) := rfl

theorem unlessStopped_cases {β : Type} (s : Strategy α) (answer : Strategy α × Decision α β) :
    s.unlessStopped answer = (s, .error .overflow) ∨ s.unlessStopped answer = answer := by
  unfold unlessStopped
  split
  · exact Or.inl rfl
  · exact Or.inr rfl

variable [Analytic α]

/-! ## Starting -/

/-- Strategies before their first request. -/
inductive Fresh : Strategy α → Prop
  | modeling (p : Portfolio α) (checked : p.check = .ok ()) (taskId : String)
      (features : Option (FeatureVector α)) :
      Fresh ((Strategy.modeling p taskId).withFeatures features)
  | sequence (actions : List (Action α)) : Fresh (.sequence actions)
  | fixed (a : Action α) : Fresh (.fixed a)

theorem Fresh.phase {s : Strategy α} (h : Fresh s) : s.phase = .ready := by
  cases h <;> rfl

theorem Fresh.pending {s : Strategy α} (h : Fresh s) : s.pending = none := by
  cases h <;> rfl

/-! ## Requests -/

/-- Where the library stops: the planner has no tables for the budget, or one more outcome of the
pending action does not count. -/
inductive Stops [GammaFunctions α] (s : Strategy α) : Request α → Prop
  | plan {remaining : α} {m : Modeling α} (policy : s.policy = .modeling m)
      (wanted : m.wantsNewPlan = true)
      (tables : m.planner.hasTables m.portfolio.world remaining = false) :
      Stops s (.select remaining)
  | count {action expected : Action α} {outcome : Outcome} {index : Option Nat}
      {m : Modeling α} (policy : s.policy = .modeling m)
      (pending : s.pending = some (expected, index)) (full : ¬m.CanCount index outcome.kind) :
      Stops s (.observe action outcome)

/-- Why a request is refused: it is not due in this phase, its budget is not one, an oracle
does not know the task, the outcome is not that of the pending action, or the library stops. -/
inductive Refuses [GammaFunctions α] (s : Strategy α) : Request α → PortfolioError α → Prop
  | transition {r : Request α} (phase : s.phase ≠ r.due) :
      Refuses s r (.invalidTransition s.phase r.call)
  | budget {remaining : α} (budget : ¬Scalar.IsBudget remaining) :
      Refuses s (.select remaining) (.negativeBudget remaining)
  | task {remaining : α} {m : Modeling α} (policy : s.policy = .modeling m)
      (knows : ¬m.Knows) :
      Refuses s (.select remaining) (.invalidModel (.unknownTask m.taskId))
  | action {action expected : Action α} {outcome : Outcome} {index : Option Nat}
      (pending : s.pending = some (expected, index)) (differs : (expected == action) = false) :
      Refuses s (.observe action outcome)
        (.unexpectedObservation action.description expected.description)
  | stopped {r : Request α} (stops : s.Stops r) : Refuses s r .overflow

theorem Refuses.isRefusal [GammaFunctions α] {s : Strategy α} {r : Request α} {e : PortfolioError α}
    (h : s.Refuses r e) : e.IsRefusal ∨ e = .overflow ∧ s.Stops r := by
  cases h with
  | stopped stops => exact Or.inr ⟨rfl, stops⟩
  | transition | budget | task | action => exact Or.inl trivial

variable [GammaFunctions α]

/-- The strategy after a request. -/
def after (s : Strategy α) : Request α → Strategy α
  | .select remaining => (s.select remaining).1
  | .observe action outcome => (s.observe action outcome).1

/-- The error a request is answered with, if it is refused. -/
def fault? (s : Strategy α) : Request α → Option (PortfolioError α)
  | .select remaining => (s.select remaining).2.fault?
  | .observe action outcome => (s.observe action outcome).2.fault?

def run (s : Strategy α) (requests : List (Request α)) : Strategy α :=
  requests.foldl after s

/-- What holds of a strategy between requests. -/
structure Inv (s : Strategy α) : Prop where
  pending_isSome : s.pending.isSome = true ↔ s.phase = .awaitingOutcome
  queue_nil : s.phase = .exhausted → s.queue = []
  coherent : ∀ m, s.policy = .modeling m → m.Coherent
  knows : ∀ m, s.policy = .modeling m → s.phase = .awaitingOutcome → m.Knows

theorem Inv.pending_eq_none {s : Strategy α} (h : s.Inv) (hready : s.phase = .ready) :
    s.pending = none := by
  rw [← Option.not_isSome_iff_eq_none, h.pending_isSome, hready]
  exact Phase.noConfusion

theorem inv_fresh {s : Strategy α} (h : Fresh s) : s.Inv where
  pending_isSome := by simp [h.phase, h.pending]
  queue_nil := fun he => by rw [h.phase] at he; cases he
  coherent := fun m hm => by
    cases h with
    | modeling p checked taskId features =>
        obtain rfl := Policy.modeling.inj hm
        exact (Modeling.coherent_start checked taskId).withFeatures features
    | sequence actions => cases hm
    | fixed a => cases hm
  knows := fun _ _ hw => by rw [h.phase] at hw; cases hw

/-! ## What a call can do -/

/-- How a choice comes out: the policy takes from what is queued, or from a plan that it
makes for the budget. -/
inductive Chosen (s : Strategy α) (remaining : α) :
    Policy α → Option (Pending α) × List (QueuedStep α) → Prop
  | queued {policy : Policy α} (kept : s.policy.Kept policy) :
      Chosen s remaining policy (policy.take remaining s.queue)
  | planned {m : Modeling α} {rates : List α} {steps : List (PlanStep α)}
      (kept : s.policy.Kept (.modeling m))
      (plan : m.planner.plan m.portfolio.world rates remaining = .ok steps) :
      Chosen s remaining (.modeling m)
        ((Policy.modeling m).take remaining (steps.map .ofPlan))

theorem Chosen.kept {s : Strategy α} {remaining : α} {policy : Policy α}
    {taken : Option (Pending α) × List (QueuedStep α)} (h : s.Chosen remaining policy taken) :
    s.policy.Kept policy := by
  cases h with
  | queued kept => exact kept
  | planned kept _ => exact kept

theorem knows_of_not_wantsNewPlan {m : Modeling α} (h : m.Coherent)
    (hw : ¬m.wantsNewPlan = true) : m.Knows := by
  refine h.planned ?_
  cases hp : m.planned with
  | true => rfl
  | false => simp [Modeling.wantsNewPlan, hp] at hw

/-- A refused choice leaves the strategy alone, and the library may stop in one; any other one
touches the policy's caches and the queue. -/
theorem choose_cases {s : Strategy α} (h : s.Inv) {remaining : α}
    (hr : Scalar.IsBudget remaining) :
    (∃ m, s.policy = .modeling m ∧ ¬m.Knows ∧
      s.choose remaining = (s, .error (.invalidModel (.unknownTask m.taskId)))) ∨
    (s.Stops (.select remaining) ∧ ∃ s', s.choose remaining = (s', .error .overflow)) ∨
    (∃ policy next queue, s.Chosen remaining policy (next, queue) ∧
      s.choose remaining = ({ s with policy := policy, queue := queue }, .ok next)) := by
  obtain ⟨policy, phase, queue, pending⟩ := s
  cases policy with
  | modeling m =>
      have hco : m.Coherent := h.coherent m rfl
      by_cases hw : m.wantsNewPlan = true
      · by_cases hk : m.Knows
        · obtain ⟨t, m', _, hbuild, hview, hco', ⟨_, steps, hsteps⟩ | ⟨htables, hstop⟩⟩ :=
            Modeling.buildPlan_of_knows hco hk hr
          · have hplan : m'.planner.plan m'.portfolio.world t.successRates remaining =
                .ok steps := by
              rw [Modeling.planner, hview.portfolio]
              exact hsteps
            refine Or.inr (Or.inr ⟨.modeling m', _, _,
              .planned (.modeling hview hco' (hview.knows hk)) hplan, ?_⟩)
            simp only [choose, replan, hw, if_true, hbuild, hsteps]
          · refine Or.inr (Or.inl ⟨.plan rfl hw htables,
              ⟨.modeling m', phase, queue, pending⟩, ?_⟩)
            simp only [choose, replan, hw, if_true, hbuild, hstop]
        · refine Or.inl ⟨m, rfl, hk, ?_⟩
          simp only [choose, replan, hw, if_true, Modeling.buildPlan_of_not_knows hco hk]
      · refine Or.inr (Or.inr ⟨.modeling m, _, _,
          .queued (.modeling (.refl m) hco (knows_of_not_wantsNewPlan hco hw)), ?_⟩)
        simp only [choose, replan, hw, Bool.false_eq_true, if_false]
  | sequence => exact Or.inr (Or.inr ⟨.sequence, _, _, .queued .sequence, rfl⟩)
  | fixed a => exact Or.inr (Or.inr ⟨.fixed a, _, _, .queued (.fixed a), rfl⟩)

/-- A ready strategy answers as it chooses. -/
theorem select_of_ready {s : Strategy α} (hready : s.phase = .ready) {remaining : α}
    (hr : Scalar.IsBudget remaining) :
    s.select remaining = s.unlessStopped (match s.choose remaining with
      | (s, .error e) => (s, .error e)
      | (s, .ok (some p)) =>
        ({ s with pending := some p, phase := .awaitingOutcome }, .ok (some p.1))
      | (s, .ok none) => ({ s with queue := [], phase := .exhausted }, .ok none)) := by
  have hneg : ¬(Scalar.isNaN remaining || decide (remaining < 0)) = true := by
    rw [hr]; exact Bool.false_ne_true
  exact (if_neg (not_not_intro hready)).trans (if_neg hneg)

theorem select_of_not_isBudget {s : Strategy α} (hready : s.phase = .ready) {remaining : α}
    (hr : ¬Scalar.IsBudget remaining) :
    s.select remaining = (s, .error (.negativeBudget remaining)) := by
  rw [select, if_neg (not_not_intro hready),
    if_pos (by simpa only [Scalar.IsBudget, Bool.not_eq_false] using hr)]

theorem select_cases {s : Strategy α} (h : s.Inv) (remaining : α) :
    (∃ e : PortfolioError α, s.Refuses (.select remaining) e ∧
      s.select remaining = (s, .error e)) ∨
    (Scalar.IsBudget remaining ∧ ∃ policy queue p, s.Chosen remaining policy (some p, queue) ∧
      s.select remaining = (⟨policy, .awaitingOutcome, queue, some p⟩, .ok (some p.1))) ∨
    (∃ policy queue, s.Chosen remaining policy (none, queue) ∧
      s.select remaining = (⟨policy, .exhausted, [], none⟩, .ok none)) := by
  by_cases hready : s.phase = .ready
  · by_cases hr : Scalar.IsBudget remaining
    · rw [select_of_ready hready hr]
      rcases choose_cases h hr with ⟨m, hm, hk, heq⟩ | ⟨hstops, s', heq⟩ |
        ⟨policy, next, queue, hchosen, heq⟩
      · exact Or.inl ⟨_, .task hm hk, by rw [heq]; rfl⟩
      · exact Or.inl ⟨_, .stopped hstops, by rw [heq]; rfl⟩
      · rw [heq]
        cases next with
        | some p => exact Or.inr (Or.inl ⟨hr, policy, queue, p, hchosen, rfl⟩)
        | none =>
            refine Or.inr (Or.inr ⟨policy, queue, hchosen, ?_⟩)
            show ((⟨policy, .exhausted, [], s.pending⟩ : Strategy α), _) = _
            rw [h.pending_eq_none hready]
    · exact Or.inl ⟨_, .budget hr, select_of_not_isBudget hready hr⟩
  · exact Or.inl ⟨_, .transition hready, by rw [select, if_pos hready]; rfl⟩

theorem absorb_modeling {s : Strategy α} {m : Modeling α} (h : s.policy = .modeling m)
    {index : Option Nat} {kind : OutcomeKind}
    (hroom : ∀ i, index = some i → m.history.hasRoom i kind.index = true) :
    s.absorb index kind =
      ({ s with policy := .modeling (m.counted index kind).refresh.1 },
        (m.counted index kind).refresh.2) := by
  simp only [absorb, h, Modeling.count?_eq_some hroom]

/-- Taking in an outcome that is awaited and counts never fails. -/
theorem absorb_kept {s : Strategy α} (h : s.Inv) (hw : s.phase = .awaitingOutcome)
    {index : Option Nat} {kind : OutcomeKind} (hcan : s.policy.CanCount index kind) :
    ∃ policy, (s.policy.counted index kind).Kept policy ∧
      absorb { s with pending := none } index kind =
        ({ s with policy := policy, pending := none }, .ok ()) := by
  obtain ⟨policy, phase, queue, pending⟩ := s
  cases policy with
  | modeling m =>
      have hsound := (h.coherent m rfl).toSound.counted index kind
      have hk : m.Knows := h.knows m rfl hw
      have hk' : (m.counted index kind).Knows := by
        cases index <;> exact hk
      obtain ⟨_, m', _, hrefresh, hview, hco, _⟩ :=
        Modeling.refresh_of_knows hsound hk' (Modeling.CanCount.readable hcan)
      refine ⟨.modeling m', .modeling hview hco (hview.knows hk'), ?_⟩
      rw [absorb_modeling rfl (Modeling.CanCount.room hcan), hrefresh]
  | sequence => exact ⟨.sequence, .sequence, rfl⟩
  | fixed a => exact ⟨.fixed a, .fixed a, rfl⟩

/-- One that does not count stops the library. -/
theorem absorb_of_not_canCount {s : Strategy α} {m : Modeling α} (hm : s.policy = .modeling m)
    {index : Option Nat} {kind : OutcomeKind} (hfull : ¬m.CanCount index kind) :
    ∃ s', absorb s index kind = (s', .error .overflow) := by
  by_cases hroom : ∀ i, index = some i → m.history.hasRoom i kind.index = true
  · have hread : (m.counted index kind).canRead = false :=
      Bool.eq_false_iff.mpr fun hread => hfull ⟨hroom, hread⟩
    rw [absorb_modeling hm hroom, Modeling.refresh_of_not_canRead hread]
    exact ⟨_, rfl⟩
  · push Not at hroom
    obtain ⟨i, rfl, hi⟩ := hroom
    exact ⟨s, by simp only [absorb, hm, Modeling.count?_eq_none hi]⟩

/-- The outcome of the pending action is taken in, if it counts. -/
theorem observe_of_pending {s : Strategy α} (h : s.Inv) (hw : s.phase = .awaitingOutcome)
    {expected action : Action α} {index : Option Nat} (hp : s.pending = some (expected, index))
    (hsame : (expected == action) = true) {outcome : Outcome}
    (hcan : s.policy.CanCount index outcome.kind) :
    ∃ policy, (s.policy.counted index outcome.kind).Kept policy ∧
      s.observe action outcome = (⟨policy, .ready, s.queue, none⟩, .ok ()) := by
  obtain ⟨policy, hkept, hab⟩ := absorb_kept h hw hcan
  refine ⟨policy, hkept, ?_⟩
  rw [observe, if_neg (not_not_intro hw)]
  simp only [hp, hsame, Bool.not_true, Bool.false_eq_true, if_false, hab, unlessStopped]

theorem observe_of_not_canCount {s : Strategy α} (hw : s.phase = .awaitingOutcome)
    {expected action : Action α} {index : Option Nat} (hp : s.pending = some (expected, index))
    (hsame : (expected == action) = true) {m : Modeling α} (hm : s.policy = .modeling m)
    {outcome : Outcome} (hfull : ¬m.CanCount index outcome.kind) :
    s.observe action outcome = (s, .error .overflow) := by
  obtain ⟨s', hab⟩ := absorb_of_not_canCount (s := { s with pending := none }) hm hfull
  rw [observe, if_neg (not_not_intro hw)]
  simp only [hp, hsame, Bool.not_true, Bool.false_eq_true, if_false, hab, unlessStopped]

theorem observe_of_differs {s : Strategy α} (hw : s.phase = .awaitingOutcome)
    {expected action : Action α} {index : Option Nat} (hp : s.pending = some (expected, index))
    (hdiffers : (expected == action) = false) (outcome : Outcome) :
    s.observe action outcome =
      (s, .error (.unexpectedObservation action.description expected.description)) := by
  rw [observe, if_neg (not_not_intro hw)]
  simp only [hp, hdiffers, Bool.not_false, if_true]

theorem beq_of_observe {s s' : Strategy α} {expected action : Action α} {index : Option Nat}
    {outcome : Outcome} (hp : s.pending = some (expected, index))
    (h : s.observe action outcome = (s', .ok ())) : (expected == action) = true := by
  by_cases hw : s.phase = .awaitingOutcome
  · cases heq : expected == action with
    | true => rfl
    | false => simp [observe_of_differs hw hp heq] at h
  · simp [observe, hw] at h

/-- An outcome is taken in exactly when it is awaited, is that of the pending action and
counts. -/
theorem observe_cases {s : Strategy α} (h : s.Inv) (action : Action α) (outcome : Outcome) :
    (∃ e : PortfolioError α, s.Refuses (.observe action outcome) e ∧
      s.observe action outcome = (s, .error e)) ∨
    (∃ expected index policy, s.pending = some (expected, index) ∧
      s.policy.CanCount index outcome.kind ∧
      (s.policy.counted index outcome.kind).Kept policy ∧
      s.observe action outcome = (⟨policy, .ready, s.queue, none⟩, .ok ())) := by
  by_cases hw : s.phase = .awaitingOutcome
  · obtain ⟨⟨expected, index⟩, hp⟩ := Option.isSome_iff_exists.mp (h.pending_isSome.mpr hw)
    cases heq : expected == action with
    | true =>
        by_cases hcan : s.policy.CanCount index outcome.kind
        · obtain ⟨policy, hkept, hobserve⟩ := observe_of_pending h hw hp heq hcan
          exact Or.inr ⟨expected, index, policy, hp, hcan, hkept, hobserve⟩
        · obtain ⟨m, hm, hfull⟩ := Policy.of_not_canCount hcan
          exact Or.inl ⟨_, .stopped (.count hm hp hfull),
            observe_of_not_canCount hw hp heq hm hfull⟩
    | false => exact Or.inl ⟨_, .action hp heq, observe_of_differs hw hp heq outcome⟩
  · exact Or.inl ⟨_, .transition hw, by rw [observe, if_pos hw]; rfl⟩

/-! ## The invariant along runs -/

theorem inv_select {s : Strategy α} (h : s.Inv) (remaining : α) :
    (s.select remaining).1.Inv := by
  rcases select_cases h remaining with ⟨e, _, heq⟩ | ⟨_, policy, queue, p, hchosen, heq⟩ |
    ⟨policy, queue, hchosen, heq⟩
  · rw [heq]
    exact h
  · rw [heq]
    exact
      { pending_isSome := by simp
        queue_nil := fun he => by cases he
        coherent := fun _ hm => hchosen.kept.coherent hm
        knows := fun _ hm _ => hchosen.kept.knows hm }
  · rw [heq]
    exact
      { pending_isSome := by simp
        queue_nil := fun _ => rfl
        coherent := fun _ hm => hchosen.kept.coherent hm
        knows := fun _ _ hw => by cases hw }

theorem inv_observe {s : Strategy α} (h : s.Inv) (action : Action α) (outcome : Outcome) :
    (s.observe action outcome).1.Inv := by
  rcases observe_cases h action outcome with ⟨e, _, heq⟩ | ⟨_, _, policy, _, _, hkept, heq⟩
  · rw [heq]
    exact h
  · rw [heq]
    exact
      { pending_isSome := by simp
        queue_nil := fun he => by cases he
        coherent := fun _ hm => hkept.coherent hm
        knows := fun _ _ he => by cases he }

theorem inv_after {s : Strategy α} (h : s.Inv) : ∀ r : Request α, (s.after r).Inv
  | .select remaining => inv_select h remaining
  | .observe action outcome => inv_observe h action outcome

theorem inv_run {s : Strategy α} (h : s.Inv) (requests : List (Request α)) :
    (s.run requests).Inv := by
  induction requests generalizing s with
  | nil => exact h
  | cons r rs ih => exact ih (inv_after h r)

/-! ## Refused requests -/

/-- A refused request leaves the whole strategy as it was. -/
theorem refuses_of_fault {s : Strategy α} (h : s.Inv) {r : Request α} {e : PortfolioError α}
    (he : s.fault? r = some e) : s.Refuses r e ∧ s.after r = s := by
  cases r with
  | select remaining =>
      rw [fault?] at he
      rw [after]
      rcases select_cases h remaining with ⟨e', href, heq⟩ | ⟨_, _, _, _, _, heq⟩ |
        ⟨_, _, _, heq⟩
      · rw [heq] at he ⊢
        obtain rfl := Option.some.inj he
        exact ⟨href, rfl⟩
      · rw [heq] at he
        cases he
      · rw [heq] at he
        cases he
  | observe action outcome =>
      rw [fault?] at he
      rw [after]
      rcases observe_cases h action outcome with ⟨e', href, heq⟩ | ⟨_, _, _, _, _, _, heq⟩
      · rw [heq] at he ⊢
        obtain rfl := Option.some.inj he
        exact ⟨href, rfl⟩
      · rw [heq] at he
        cases he

theorem after_of_fault {s : Strategy α} (h : s.Inv) {r : Request α} {e : PortfolioError α}
    (he : s.fault? r = some e) :
    s.after r = s ∧ (e.IsRefusal ∨ e = .overflow ∧ s.Stops r) :=
  ⟨(refuses_of_fault h he).2, (refuses_of_fault h he).1.isRefusal⟩

theorem fault_of_exhausted {s : Strategy α} (h : s.phase = .exhausted) (r : Request α) :
    s.fault? r = some (.invalidTransition .exhausted r.call) := by
  cases r with
  | select remaining =>
      simp only [fault?, select, h]
      rfl
  | observe action outcome =>
      simp only [fault?, observe, h]
      rfl

/-- Exhaustion is for good: nothing a session asks afterwards changes anything. -/
theorem run_of_exhausted {s : Strategy α} (h : s.Inv) (hx : s.phase = .exhausted)
    (requests : List (Request α)) : s.run requests = s := by
  induction requests with
  | nil => rfl
  | cons r rs ih =>
      have hsame : s.after r = s := (after_of_fault h (fault_of_exhausted hx r)).1
      rw [run, List.foldl_cons, hsame]
      exact ih

/-! ## The headline theorem -/

/-- **The protocol holds.** After any requests to a strategy of any kind: an action is
pending exactly when its outcome is awaited; an exhausted strategy has nothing queued
and refuses everything it will ever be asked; and whatever is refused leaves the whole
strategy, its queue, history and caches included, as it was. Nothing else fails, except where the
library stops. -/
theorem protocol_holds {start : Strategy α} (hstart : Fresh start)
    (requests : List (Request α)) :
    ((start.run requests).pending.isSome = true ↔
        (start.run requests).phase = .awaitingOutcome) ∧
      ((start.run requests).phase = .exhausted →
        (start.run requests).queue = [] ∧
          ∀ later r, ((start.run requests).run later).fault? r =
            some (.invalidTransition .exhausted r.call)) ∧
      ∀ r e, (start.run requests).fault? r = some e →
        (start.run requests).after r = start.run requests ∧
          (e.IsRefusal ∨ e = .overflow ∧ (start.run requests).Stops r) := by
  have hinv : (start.run requests).Inv := inv_run (inv_fresh hstart) requests
  refine ⟨hinv.pending_isSome, fun hx => ⟨hinv.queue_nil hx, fun later r => ?_⟩,
    fun r e he => after_of_fault hinv he⟩
  rw [run_of_exhausted hinv hx later]
  exact fault_of_exhausted hx r

/-- One solver on two rungs, and an oracle without runs. -/
def emptyOracle : Portfolio Float :=
  ⟨⟨["a"], ⟨10, 2⟩⟩, .oracle [], ⟨.knapsack, true, 0, 4⟩⟩

theorem protocol_holds_emptyOracle :
    let s := (Strategy.modeling emptyOracle "t").withFeatures none
    emptyOracle.check = .ok () ∧
      s.fault? (.select 20) = some (.invalidModel (.unknownTask "t")) ∧
      s.after (.select 20) = s :=
  ⟨rfl, rfl, ((protocol_holds (.modeling emptyOracle rfl "t" none) []).2.2 _ _ rfl).1⟩

end Strategy

end SolverPortfolio

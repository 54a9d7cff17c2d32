import SolverPortfolio.Proofs.Planner.Steps
import SolverPortfolio.Proofs.Scalar.RoundedDouble
import SolverPortfolio.Proofs.Strategy.Events
import SolverPortfolio.Proofs.World

/-!
# What a strategy hands out

An action that is handed out comes from the plan, from the list or from the single action
of the strategy, and it passed the policy's test against the budget
(`Policy.HandsOut`). That holds of every queue a strategy can have, also of a plan made for
another budget: `Stocked` says what may be queued and pending, `Chosen.supplies` that it is
enough for a choice, and `stocked_play` carries it along runs.

Two of the tests differ where costs are not numbers. A queued step is refused when its cost
is over the budget, a repeated action is taken when its cost is within. So a sequence
hands out an action whose cost is not a number, and nothing else does:
`cost_le_remaining_iff` is the headline.
-/

namespace SolverPortfolio

open Scalar Rounded

/-! ## Taking a step from a queue -/

namespace QueuedStep

variable {α : Type} [Scalar α] {remaining : α}

/-- A result of going through a queue: the action of a step in it that fits, if any, and
a part of the queue. -/
structure TakenFrom (remaining : α) (queue : List (QueuedStep α))
    (result : Option (Pending α) × List (QueuedStep α)) : Prop where
  taken : ∀ p, result.1 = some p → ∃ q ∈ queue, q.fit? remaining = some p
  left : ∀ q ∈ result.2, q ∈ queue

/-- A step fits and those in front of it are dropped, or all of them are. -/
theorem nextFitting_cases (remaining : α) (queue : List (QueuedStep α)) :
    (∃ dropped q rest p, queue = dropped ++ q :: rest ∧ q.fit? remaining = some p ∧
        nextFitting remaining queue = (some p, rest)) ∨
      nextFitting remaining queue = (none, []) := by
  induction queue with
  | nil => exact Or.inr rfl
  | cons q queue ih =>
      unfold nextFitting
      cases hfit : q.fit? remaining with
      | some p => exact Or.inl ⟨[], q, queue, p, rfl, hfit, rfl⟩
      | none =>
          rcases ih with ⟨dropped, q', rest, p, rfl, hfit', heq⟩ | heq
          · exact Or.inl ⟨q :: dropped, q', rest, p, rfl, hfit', heq⟩
          · exact Or.inr heq

theorem takenFrom_nextFitting (remaining : α) (queue : List (QueuedStep α)) :
    TakenFrom remaining queue (nextFitting remaining queue) := by
  rcases nextFitting_cases remaining queue with ⟨dropped, q, rest, p, rfl, hfit, heq⟩ | heq
  · rw [heq]
    refine ⟨fun p' h => ?_, fun q' h => ?_⟩
    · obtain rfl := Option.some.inj h
      exact ⟨q, List.mem_append_right _ (List.mem_cons_self ..), hfit⟩
    · exact List.mem_append_right _ (List.mem_cons_of_mem _ h)
  · rw [heq]
    exact ⟨nofun, nofun⟩

theorem takenFrom_frontFitting (remaining : α) (queue : List (QueuedStep α)) :
    TakenFrom remaining queue (frontFitting remaining queue) := by
  cases queue with
  | nil => exact ⟨nofun, nofun⟩
  | cons q rest =>
      rw [frontFitting]
      cases hfit : q.fit? remaining with
      | some p =>
          refine ⟨fun p' h => ?_, fun q' h => List.mem_cons_of_mem _ h⟩
          obtain rfl := Option.some.inj h
          exact ⟨q, List.mem_cons_self .., hfit⟩
      | none => exact ⟨nofun, fun _ h => h⟩

theorem of_fit? {q : QueuedStep α} {p : Pending α} (h : q.fit? remaining = some p) :
    ¬remaining < q.action.cost ∧
      p = (if q.runsToRemaining then q.action.withCost remaining else q.action, q.index) := by
  unfold fit? at h
  split at h
  · cases h
  · rename_i hfits
    exact ⟨hfits, (Option.some.inj h).symm⟩

end QueuedStep

/-! ## Queued and handed out -/

section

variable {α : Type} [Scalar α]

/-- What may stand in the queue: steps of the world for a plan, bare actions in a list. -/
def Policy.Queues : Policy α → QueuedStep α → Prop
  | .modeling m, q => ∃ i, q.index = some i ∧ m.portfolio.world.Offers q.action i
  | .sequence, q => q.index = none ∧ q.runsToRemaining = false
  | .fixed _, _ => False

/-- What may be handed out within a budget, by policy. -/
inductive Policy.HandsOut (remaining : α) : Policy α → Pending α → Prop
  /-- A step of a plan runs as it is planned. -/
  | planned (m : Modeling α) (i : Nat) (known : i < m.portfolio.world.nactions)
      (fits : ¬remaining < (m.portfolio.world.action i).cost) :
      HandsOut remaining (.modeling m) (m.portfolio.world.action i, some i)
  /-- The last step of a plan may run to the budget. -/
  | extended (m : Modeling α) (i : Nat) (known : i < m.portfolio.world.nactions)
      (fits : ¬remaining < (m.portfolio.world.action i).cost) :
      HandsOut remaining (.modeling m)
        ((m.portfolio.world.action i).withCost remaining, some i)
  | listed (a : Action α) (fits : ¬remaining < a.cost) : HandsOut remaining .sequence (a, none)
  | repeated (a : Action α) (fits : a.cost ≤ remaining) : HandsOut remaining (.fixed a) (a, none)

theorem Policy.handsOut_of_fit? {policy : Policy α} {q : QueuedStep α} {remaining : α}
    {p : Pending α} (hq : policy.Queues q) (hfit : q.fit? remaining = some p) :
    policy.HandsOut remaining p := by
  obtain ⟨hfits, rfl⟩ := QueuedStep.of_fit? hfit
  cases policy with
  | modeling m =>
      obtain ⟨i, hindex, hi, haction⟩ := hq
      rw [haction] at hfits ⊢
      rw [hindex]
      cases q.runsToRemaining with
      | true => exact .extended m i hi hfits
      | false => exact .planned m i hi hfits
  | sequence =>
      obtain ⟨hindex, hruns⟩ := hq
      rw [hindex, hruns]
      exact .listed q.action hfits
  | fixed a => exact hq.elim

/-- A result of going through a queue that the policy can stand for. -/
structure Policy.Supplies (policy : Policy α) (remaining : α)
    (result : Option (Pending α) × List (QueuedStep α)) : Prop where
  handsOut : ∀ p, result.1 = some p → policy.HandsOut remaining p
  queues : ∀ q ∈ result.2, policy.Queues q

theorem QueuedStep.TakenFrom.supplies {policy : Policy α} {remaining : α}
    {queue : List (QueuedStep α)} {result : Option (Pending α) × List (QueuedStep α)}
    (h : TakenFrom remaining queue result) (hqueue : ∀ q ∈ queue, policy.Queues q) :
    policy.Supplies remaining result where
  handsOut := fun p hp => by
    obtain ⟨q, hq, hfit⟩ := h.taken p hp
    exact Policy.handsOut_of_fit? (hqueue q hq) hfit
  queues := fun q hq => hqueue q (h.left q hq)

theorem Policy.supplies_take {policy : Policy α} {remaining : α} {queue : List (QueuedStep α)}
    (hqueue : ∀ q ∈ queue, policy.Queues q) :
    policy.Supplies remaining (policy.take remaining queue) := by
  cases policy with
  | modeling m => exact (QueuedStep.takenFrom_nextFitting remaining queue).supplies hqueue
  | sequence => exact (QueuedStep.takenFrom_frontFitting remaining queue).supplies hqueue
  | fixed a =>
      refine ⟨fun p hp => ?_, hqueue⟩
      rw [take] at hp
      split at hp
      · rename_i hfits
        obtain rfl := Option.some.inj hp
        exact .repeated a hfits
      · cases hp

theorem Policy.Queues.of_portfolio {m m' : Modeling α} (h : m'.portfolio = m.portfolio)
    {q : QueuedStep α} (hq : Queues (.modeling m) q) : Queues (.modeling m') q := by
  rw [Queues, h]
  exact hq

theorem Policy.HandsOut.of_portfolio {m m' : Modeling α} (h : m'.portfolio = m.portfolio)
    {remaining : α} {p : Pending α} (hp : HandsOut remaining (.modeling m) p) :
    HandsOut remaining (.modeling m') p := by
  cases hp with
  | planned _ i known fits =>
      rw [← h] at known fits ⊢
      exact .planned m' i known fits
  | extended _ i known fits =>
      rw [← h] at known fits ⊢
      exact .extended m' i known fits

/-- The queue and the pending action are what the policy puts there. -/
structure Strategy.Stocked (s : Strategy α) : Prop where
  queue : ∀ q ∈ s.queue, s.policy.Queues q
  pending : ∀ p, s.pending = some p → ∃ remaining, IsBudget remaining ∧
    s.policy.HandsOut remaining p

end

namespace Strategy

variable {α : Type} [Analytic α]

theorem stocked_fresh {s : Strategy α} (h : Fresh s) : s.Stocked where
  queue := by
    intro q hq
    cases h with
    | modeling p checked taskId features => cases hq
    | sequence actions =>
        obtain ⟨a, _, rfl⟩ := List.mem_map.mp hq
        exact ⟨rfl, rfl⟩
    | fixed a => cases hq
  pending := fun p hp => by rw [h.pending] at hp; cases hp

/-- Only the world matters for what may be queued and pending. -/
theorem Stocked.of_portfolio {s : Strategy α} (h : s.Stocked) {m m' : Modeling α}
    (hm : s.policy = .modeling m) (hp : m'.portfolio = m.portfolio) :
    Stocked { s with policy := .modeling m' } where
  queue := fun q hq => (hm ▸ h.queue q hq).of_portfolio hp
  pending := fun p hpend => by
    obtain ⟨remaining, hr, hout⟩ := h.pending p hpend
    exact ⟨remaining, hr, (hm ▸ hout).of_portfolio hp⟩

theorem Stocked.counted {s : Strategy α} (h : s.Stocked) (index : Option Nat)
    (kind : OutcomeKind) : Stocked { s with policy := s.policy.counted index kind } := by
  obtain ⟨policy, _, _, _⟩ := s
  cases policy with
  | modeling m => exact h.of_portfolio rfl (m.counted_view index kind).1
  | sequence => exact h
  | fixed a => exact h

variable [GammaFunctions α]

theorem Stocked.of_kept {s : Strategy α} (h : s.Stocked) {policy : Policy α}
    (hkept : s.policy.Kept policy) : Stocked { s with policy := policy } := by
  obtain ⟨_, _, _, _⟩ := s
  cases hkept with
  | modeling view _ _ => exact h.of_portfolio rfl view.portfolio
  | sequence => exact h
  | fixed a => exact h

/-! ## Along runs -/

/-- What a choice takes and leaves is the policy's, whatever budget the queue was made
for. -/
theorem Chosen.supplies {s : Strategy α} {remaining : α} {policy : Policy α}
    {taken : Option (Pending α) × List (QueuedStep α)} (h : s.Chosen remaining policy taken)
    (hs : s.Stocked) : policy.Supplies remaining taken := by
  cases h with
  | queued kept => exact Policy.supplies_take (hs.of_kept kept).queue
  | planned _ plan =>
      refine Policy.supplies_take fun q hq => ?_
      obtain ⟨st, hst, rfl⟩ := List.mem_map.mp hq
      exact ⟨st.index, rfl, Planner.plan_steps plan st hst⟩

theorem stocked_select {s : Strategy α} (h : s.Inv) (hs : s.Stocked) (remaining : α) :
    (s.select remaining).1.Stocked := by
  rcases select_cases h remaining with ⟨_, _, heq⟩ | ⟨hr, policy, queue, p, hchosen, heq⟩ |
    ⟨_, _, _, heq⟩
  · rw [heq]
    exact hs
  · obtain ⟨hout, hqueue⟩ := hchosen.supplies hs
    rw [heq]
    refine ⟨hqueue, fun p' hp' => ?_⟩
    obtain rfl := Option.some.inj hp'
    exact ⟨remaining, hr, hout p rfl⟩
  · rw [heq]
    exact ⟨nofun, nofun⟩

theorem stocked_observe {s : Strategy α} (h : s.Inv) (hs : s.Stocked) (action : Action α)
    (outcome : Outcome) : (s.observe action outcome).1.Stocked := by
  rcases observe_cases h action outcome with ⟨_, _, heq⟩ | ⟨_, index, policy, _, _, hkept, heq⟩
  · rw [heq]
    exact hs
  · rw [heq]
    exact ⟨((hs.counted index outcome.kind).of_kept hkept).queue, nofun⟩

theorem stocked_step {s : Strategy α} (h : s.Inv) (hs : s.Stocked) :
    ∀ e : Event α, (s.step e).Stocked
  | .request (.select remaining) => stocked_select h hs remaining
  | .request (.observe action outcome) => stocked_observe h hs action outcome
  | .features given => by
      rw [step]
      rcases withFeatures_cases s given with ⟨m, hm, heq⟩ | ⟨_, heq⟩
      · rw [heq]
        exact hs.of_portfolio hm rfl
      · rw [heq]
        exact hs

theorem stocked_play {start : Strategy α} (h : Fresh start) (events : List (Event α)) :
    (start.play events).Inv ∧ (start.play events).Stocked :=
  play_induction (fun _ hinv hs e => stocked_step hinv hs e) (inv_fresh h) (stocked_fresh h) events

/-- An action that was just handed out, and where from. -/
theorem select_eq_some {s : Strategy α} (h : s.Inv) (hs : s.Stocked) {remaining : α} {a : Action α}
    (hsome : (s.select remaining).2 = .ok (some a)) :
    IsBudget remaining ∧ ∃ policy queue index, s.policy.Kept policy ∧
      policy.HandsOut remaining (a, index) ∧
      (s.select remaining).1 = ⟨policy, .awaitingOutcome, queue, some (a, index)⟩ := by
  rcases select_cases h remaining with ⟨_, _, heq⟩ |
    ⟨hr, policy, queue, ⟨a', index⟩, hchosen, heq⟩ | ⟨_, _, _, heq⟩
  · rw [heq] at hsome
    cases hsome
  · rw [heq] at hsome ⊢
    obtain rfl := Option.some.inj (Except.ok.inj hsome)
    exact ⟨hr, policy, queue, index, hchosen.kept, (hchosen.supplies hs).handsOut _ rfl, rfl⟩
  · rw [heq] at hsome
    cases hsome

end Strategy

/-! ## Budgets -/

theorem Policy.Kept.eq_sequence {α : Type} [Analytic α] [GammaFunctions α] {p : Policy α}
    (h : p.Kept .sequence) : p = .sequence := by
  cases h
  rfl

section

variable {α : Type} [Scalar α] [Rounded α]

theorem Policy.HandsOut.not_lt {policy : Policy α} {remaining : α} {p : Pending α}
    (h : policy.HandsOut remaining p) : ¬remaining < p.1.cost := by
  cases h with
  | planned m i _ fits => exact fits
  | extended m i _ _ =>
      show ¬remaining < remaining
      rw [lt_iff]
      exact irrefl _
  | listed a fits => exact fits
  | repeated a fits => exact not_lt_of_le fits

/-- Only a list may hold an action whose cost is not a number. -/
theorem Policy.HandsOut.eq_sequence {policy : Policy α} {remaining : α} {p : Pending α}
    (h : policy.HandsOut remaining p) (hr : IsBudget remaining)
    (hworld : ∀ m, policy = .modeling m → m.portfolio.world.check = .ok ())
    (hnan : isNaN p.1.cost = true) : policy = .sequence := by
  cases h with
  | planned m i _ _ =>
      rw [World.isNaN_cost (hworld m rfl) i] at hnan
      cases hnan
  | extended m i _ _ =>
      rw [Action.withCost, Action.cost_run, hr.isNaN] at hnan
      cases hnan
  | listed a fits => rfl
  | repeated a fits =>
      rw [isNaN_eq_false_iff.mpr ((le_iff _ _).mp fits).1] at hnan
      cases hnan

end

namespace Strategy

variable {α : Type} [Analytic α] [GammaFunctions α] [Rounded α]

/-- **Selection respects the budget.** Whatever a session was asked before, an action it
hands out never costs more than the budget. It costs at most the budget unless its cost is
not a number, and such an action is handed out by a sequence only. -/
theorem cost_le_remaining_iff {start : Strategy α} (hstart : Fresh start)
    (events : List (Event α)) {remaining : α} {a : Action α}
    (hsome : ((start.play events).select remaining).2 = .ok (some a)) :
    ¬remaining < a.cost ∧ (a.cost ≤ remaining ↔ isNaN a.cost = false) ∧
      (isNaN a.cost = true → (start.play events).policy = .sequence) := by
  obtain ⟨hinv, hstocked⟩ := stocked_play hstart events
  obtain ⟨hr, policy, _, _, hkept, hout, _⟩ := select_eq_some hinv hstocked hsome
  have hworld : ∀ m, policy = .modeling m → m.portfolio.world.check = .ok () :=
    fun m hm => Portfolio.world_check (hkept.coherent hm).checked
  refine ⟨hout.not_lt, ⟨fun hle => ?_, fun hnan => ?_⟩, fun hnan => ?_⟩
  · exact isNaN_eq_false_iff.mpr ((le_iff _ _).mp hle).1
  · exact (not_lt_iff_le hr hnan).mp hout.not_lt
  · obtain rfl := hout.eq_sequence hr hworld hnan
    exact hkept.eq_sequence

/-- An action whose cost is not a number. -/
def unpriced : Action Float := .run "a" (0 / 0)

theorem cost_le_remaining_iff_unpriced :
    ((Strategy.sequence [unpriced]).select 10).2 = .ok (some unpriced) ∧
      ¬10 < unpriced.cost ∧ ¬unpriced.cost ≤ 10 := by
  have hnan : isNaN unpriced.cost = true := by decide +kernel
  have hsome : ((Strategy.sequence [unpriced]).select 10).2 = .ok (some unpriced) := rfl
  obtain ⟨hlt, hle, _⟩ := cost_le_remaining_iff (.sequence [unpriced]) [] hsome
  refine ⟨hsome, hlt, fun h => ?_⟩
  rw [hle.mp h] at hnan
  cases hnan

end Strategy

end SolverPortfolio

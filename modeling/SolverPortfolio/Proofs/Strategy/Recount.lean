import SolverPortfolio.Proofs.Bounds.Strategy
import SolverPortfolio.Proofs.Counting
import SolverPortfolio.Proofs.Planner.Steps
import SolverPortfolio.Proofs.Scalar.RoundedDouble
import SolverPortfolio.Proofs.Strategy.Selection

/-!
# Counting the log of a session again

A session counts an outcome under the index that the plan step carries. Who reads its log later
has actions only, and the world looks their indices up, by the name of the solver and by the rung
of the ceiling. In exact arithmetic a lookup finds every action that a budget has slots for
(`World.actionIndex?_action`); a knapsack plan has no others, and its steps run as they are
planned. So what is queued and pending stands under the index that the world finds
(`Strategy.Indexed`), and an event of the session does to its history what one more event of the
log does to the count (`Strategy.recounted_step`).

A lookup may stop the library (`World.findAction`), but not where it finds something
(`World.findAction_eq_ok`).
-/

namespace SolverPortfolio

open Scalar Rounded

/-! ## Lookups -/

theorem Exact.round_real_natCast (n : ℕ) : Scalar.round (Exact.real n) = .real n := by
  show Exact.real (roundAway n) = .real n
  rw [roundAway, if_pos (Nat.cast_nonneg n), round_natCast]
  rfl

theorem Exact.wholePart_real_natCast {n : ℕ} (h : n < wordBound) :
    Scalar.wholePart (Exact.real n) = n := by
  show min ⌊(n : ℝ)⌋₊ (wordBound - 1) = n
  rw [Nat.floor_natCast]
  omega

namespace Ladder

variable {l : Ladder Exact} {step : ℝ} {r : ℕ}

/-- A lookup that stops finds nothing. -/
theorem rungOf?_eq_join {α : Type} [Scalar α] (l : Ladder α) (cost : α) :
    l.rungOf? cost = (l.lookup? cost).join := by
  unfold rungOf? lookup?
  cases hoff : isOff (cost / l.step) with
  | true => simp [hoff]
  | false => cases hwhole : wholePart (Scalar.round (cost / l.step)) <;> simp [hoff, hwhole, minus?]

/-- A lookup counts the whole steps of a position on the ladder. -/
theorem rungOf?_eq_some_iff {α : Type} [Scalar α] {l : Ladder α} {cost : α} {i : ℕ} :
    l.rungOf? cost = some i ↔
      isOff (cost / l.step) = false ∧ i < l.size ∧
        i + 1 = wholePart (Scalar.round (cost / l.step)) := by
  cases hoff : isOff (cost / l.step) with
  | true => simp [rungOf?, hoff]
  | false =>
      cases hwhole : wholePart (Scalar.round (cost / l.step)) with
      | zero => simp [rungOf?, hoff, hwhole]
      | succ rung =>
          simp only [rungOf?, hoff, hwhole, Bool.false_eq_true, if_false, true_and,
            Option.ite_none_right_eq_some, Option.some_inj]
          omega

/-- A whole number of steps is a position on the ladder. -/
theorem isOff_natCast (r : ℕ) : isOff (Exact.real (r + 1 : ℕ)) = false := by
  have hpos : (0 : ℝ) ≤ r := Nat.cast_nonneg r
  have hslack : (0 : ℝ) ≤ 1 / 10 ^ 9 * max ((r + 1 : ℕ) : ℝ) 1 := by positivity
  rw [isOff, Exact.round_real_natCast, Exact.real_sub, sub_self, Exact.abs_real, abs_zero,
    Exact.one_eq, Exact.max_real, tolerance_real, Exact.real_mul, Bool.or_eq_false_iff,
    decide_eq_false_iff_not, decide_eq_false_iff_not, Exact.real_lt, Exact.real_lt, not_lt, not_lt]
  refine ⟨?_, hslack⟩
  push_cast
  linarith

theorem rungOf?_budget (hstep : l.step = .real step) (hpos : 0 < step) (hr : r < l.size)
    (hbound : r + 1 < wordBound) : l.rungOf? (l.budget r) = some r := by
  have hposition : l.budget r / l.step = .real (r + 1 : ℕ) := by
    rw [budget, hstep, Exact.ofNat_eq, Exact.real_mul, Exact.real_div _ hpos.ne',
      mul_div_cancel_left₀ _ hpos.ne']
  simp only [rungOf?, hposition, isOff_natCast, Exact.round_real_natCast,
    Exact.wholePart_real_natCast hbound, Bool.false_eq_true, if_false, if_pos hr]

end Ladder

namespace World

/-- The world finds its actions, as long as they use fewer slots than can be counted. -/
theorem actionIndex?_action {w : World Exact} (hw : w.check = .ok ()) {a : ℕ}
    (ha : a < w.nactions) (huse : w.slotUse a < wordBound) :
    w.actionIndex? (w.action a) = some a := by
  obtain ⟨step, hpos, hstep⟩ := exists_step hw
  have hsolver : w.solverIndex? (w.action a).solver = some (w.splitIndex a).1 :=
    (solverIndex?_eq_some_iff hw _ (solver_lt ha)).mpr rfl
  have hrung := Ladder.rungOf?_budget hstep hpos (rungOf_lt (nbudgets_pos hw) a) huse
  rw [actionIndex?, hsolver, cost_action, hrung]
  exact congrArg some (index_splitIndex a)

section

variable {α : Type} [Scalar α] {w : World α} {action : Action α} {i : ℕ}

theorem actionIndex?_eq_join (w : World α) (action : Action α) :
    w.actionIndex? action = (w.findAction action).toOption.join := by
  unfold actionIndex? findAction
  cases w.solverIndex? action.solver with
  | none => rfl
  | some s =>
      simp only [Ladder.rungOf?_eq_join]
      rcases w.ladder.lookup? action.cost with _ | _ | r <;> rfl

theorem findAction_eq_ok (h : w.actionIndex? action = some i) :
    w.findAction action = .ok (some i) := by
  rw [actionIndex?_eq_join] at h
  cases hfind : w.findAction action with
  | error e =>
      rw [hfind] at h
      cases h
  | ok found =>
      rw [hfind] at h
      exact congrArg Except.ok h

theorem findAction_of_none (h : w.actionIndex? action = none) :
    w.findAction action = .ok none ∨ w.findAction action = .error .overflow := by
  rw [actionIndex?_eq_join] at h
  cases hfind : w.findAction action with
  | ok found =>
      rw [hfind] at h
      exact Or.inl (congrArg Except.ok h)
  | error e =>
      unfold findAction at hfind
      split at hfind
      · cases hfind
      · cases hlookup : w.ladder.lookup? action.cost with
        | none =>
            rw [hlookup] at hfind
            exact Or.inr (congrArg Except.error (Except.error.inj hfind).symm)
        | some r =>
            rw [hlookup] at hfind
            cases hfind

theorem actionIndex?_lt (h : w.actionIndex? action = some i) : i < w.nactions := by
  unfold actionIndex? at h
  obtain ⟨s, hs, h⟩ := Option.bind_eq_some_iff.mp h
  obtain ⟨r, hr, h⟩ := Option.bind_eq_some_iff.mp h
  obtain rfl := Option.some.inj h
  exact index_lt_nactions (List.idxOf?_eq_some_iff.mp hs).1 (Ladder.rungOf?_eq_some_iff.mp hr).2.1

/-! ## Counting events -/

/-- What an event is counted as: its kind, under the index of its action. An action that the world
does not find has none. -/
def eventReadings (w : World α) (event : Action α × OutcomeKind) : List (ℕ × OutcomeKind) :=
  (w.actionIndex? event.1).toList.map fun i => (i, event.2)

/-- There is room for all of these events. -/
def HasEventCounts (w : World α) (events : List (Action α × OutcomeKind)) : Prop :=
  Counts.Fits (events.flatMap w.eventReadings)

/-- How many of the events are of this kind and of the action with this index. -/
def eventsOn (w : World α) (events : List (Action α × OutcomeKind)) (i : ℕ) (k : OutcomeKind) : ℕ :=
  events.countP fun e => w.actionIndex? e.1 = some i ∧ e.2 = k

theorem hasEventCounts_iff {events : List (Action α × OutcomeKind)} :
    w.HasEventCounts events ↔ ∀ i k, w.eventsOn events i k < UInt32.size := by
  have hnodup : ∀ e, (w.eventReadings e).Nodup := fun e => by
    rw [eventReadings]
    cases w.actionIndex? e.1 <;> simp
  have hcount : ∀ i k, (events.flatMap w.eventReadings).count (i, k) = w.eventsOn events i k := by
    intro i k
    rw [Counts.count_flatMap_of_nodup hnodup, eventsOn]
    refine List.countP_congr fun e _ => ?_
    rw [eventReadings]
    cases w.actionIndex? e.1 <;> simp [eq_comm (a := i), eq_comm (a := k)]
  rw [HasEventCounts, Counts.fits_iff, Prod.forall]
  simp only [hcount]

/-- How an event is refused whose action is not found: it is reported, unless its lookup stops the
library. -/
def eventFault (w : World α) (event : Action α × OutcomeKind) : PortfolioError α :=
  match w.findAction event.1 with
  | .ok _ => .unknownAction event.1.description
  | .error e => e

/-- Events are counted under the indices of their actions, and one without is refused. -/
theorem collects_events (w : World α) :
    Counts.Collects w.countsFromEvents w.nactions w.eventReadings
      (fun e => (w.actionIndex? e.1).isSome) w.eventFault := by
  refine Counts.collects_foldlM (fun e x hx => ?_) (fun c e h => ?_) fun c e h => ?_
  · obtain ⟨i, hi, rfl⟩ := List.mem_map.mp hx
    exact actionIndex?_lt (Option.mem_toList.mp hi)
  · obtain ⟨i, hi⟩ := Option.isSome_iff_exists.mp h
    rw [addEvent, findAction_eq_ok hi, eventReadings, hi]
    simp
  · rw [Option.isSome_eq_false_iff, Option.isNone_iff_eq_none] at h
    rcases findAction_of_none h with hfind | hfind <;> simp only [addEvent, eventFault, hfind]

theorem countsFromEvents_concat {events : List (Action α × OutcomeKind)} {c c' : Counts}
    (h : w.countsFromEvents events = .ok c) (hi : w.actionIndex? action = some i)
    {kind : OutcomeKind} (hc : c.record i kind = some c') :
    w.countsFromEvents (events ++ [(action, kind)]) = .ok c' := by
  rw [countsFromEvents, List.foldlM_append]
  show (w.countsFromEvents events >>= fun c => [(action, kind)].foldlM w.addEvent c) = _
  rw [h]
  show ([(action, kind)].foldlM w.addEvent c) = _
  simp [addEvent, findAction_eq_ok hi, hc, Decision.inWords]

end

/-- The action stands under the index that the world finds for it. -/
def Finds {α : Type} [Scalar α] (w : World α) (action : Action α) (index : Option ℕ) : Prop :=
  ∃ i, index = some i ∧ w.actionIndex? action = some i

end World

/-! ## Indices along sessions -/

/-- A queued step runs as it is and stands under the index that the world finds. -/
def QueuedStep.Indexed {α : Type} [Scalar α] (w : World α) (q : QueuedStep α) : Prop :=
  q.runsToRemaining = false ∧ w.Finds q.action q.index

theorem QueuedStep.TakenFrom.finds {α : Type} [Scalar α] {w : World α} {remaining : α}
    {queue : List (QueuedStep α)} {result : Option (Pending α) × List (QueuedStep α)}
    (h : TakenFrom remaining queue result) (hqueue : ∀ q ∈ queue, q.Indexed w) :
    (∀ p, result.1 = some p → w.Finds p.1 p.2) ∧ ∀ q ∈ result.2, q.Indexed w := by
  refine ⟨fun p hp => ?_, fun q hq => hqueue q (h.left q hq)⟩
  obtain ⟨q, hq, hfit⟩ := h.taken p hp
  obtain ⟨hruns, hfinds⟩ := hqueue q hq
  obtain ⟨_, rfl⟩ := of_fit? hfit
  simpa [hruns] using hfinds

namespace Strategy

/-- Whatever is queued or pending stands under the index that the world finds. -/
structure Indexed {α : Type} [Scalar α] (w : World α) (s : Strategy α) : Prop where
  queue : ∀ q ∈ s.queue, q.Indexed w
  pending : ∀ p, s.pending = some p → w.Finds p.1 p.2

section

variable {α : Type} [Analytic α] [GammaFunctions α]

/-- What an event makes a strategy take in, if anything, as whoever asked it saw it. -/
def observation? (s : Strategy α) : Event α → Option (Action α × OutcomeKind)
  | .request (.observe action outcome) =>
    match (s.observe action outcome).2 with
    | .ok () => some (action, outcome.kind)
    | .error _ => none
  | .request (.select _) => none
  | .features _ => none

/-- The accepted observations of a session, in their order. -/
def observations (s : Strategy α) : List (Event α) → List (Action α × OutcomeKind)
  | [] => []
  | e :: events => (s.observation? e).toList ++ (s.step e).observations events

end

variable {p : Portfolio Exact}

/-- The strategy decides by the portfolio, and its history counts the events of this log. -/
structure Recounted (p : Portfolio Exact) (log : List (Action Exact × OutcomeKind))
    (s : Strategy Exact) : Prop extends s.Indexed p.world where
  history : ∃ m, s.policy = .modeling m ∧ m.portfolio = p ∧
    p.world.countsFromEvents log = .ok m.history

variable {log : List (Action Exact × OutcomeKind)} {s : Strategy Exact}

theorem recounted_fresh (taskId : String) (features : Option (FeatureVector Exact)) :
    ((modeling p taskId).withFeatures features).Recounted p [] where
  queue := nofun
  pending := nofun
  history := ⟨_, rfl, rfl, rfl⟩

section session

variable [GammaFunctions Exact]

theorem Recounted.of_kept (h : s.Recounted p log) {policy : Policy Exact}
    (hkept : s.policy.Kept policy) : ∃ m, policy = .modeling m ∧ m.portfolio = p ∧
      p.world.countsFromEvents log = .ok m.history := by
  obtain ⟨m, hm, hp, hlog⟩ := h.history
  rw [hm] at hkept
  cases hkept with
  | modeling view _ _ => exact ⟨_, rfl, view.portfolio.trans hp, view.history ▸ hlog⟩

variable (hp : p.check = .ok ()) (hkind : p.planner.kind = .knapsack)

include hp hkind

/-- A choice takes from the queue or from a knapsack plan, where every step stands under its
index. -/
theorem Chosen.finds {remaining : Exact} {policy : Policy Exact}
    {taken : Option (Pending Exact) × List (QueuedStep Exact)}
    (hchosen : s.Chosen remaining policy taken) (h : s.Recounted p log) :
    (∀ q, taken.1 = some q → p.world.Finds q.1 q.2) ∧ ∀ q ∈ taken.2, q.Indexed p.world := by
  obtain ⟨m, hm, hportfolio, _⟩ := h.of_kept hchosen.kept
  cases hchosen with
  | queued _ =>
      subst hm
      exact (QueuedStep.takenFrom_nextFitting remaining s.queue).finds h.queue
  | planned _ plan =>
      obtain rfl := Policy.modeling.inj hm
      refine (QueuedStep.takenFrom_nextFitting remaining _).finds fun q hq => ?_
      obtain ⟨st, hst, rfl⟩ := List.mem_map.mp hq
      rw [Modeling.planner, hportfolio, Planner.ofSettings, hkind] at plan
      obtain ⟨a, ha, huse, rfl⟩ := Knapsack.plan_steps plan st hst
      have hbound := huse.trans_lt (Ladder.slotsWithin_lt_wordBound _ _)
      exact ⟨rfl, a, rfl, World.actionIndex?_action (Portfolio.world_check hp) ha hbound⟩

theorem recounted_select (hinv : s.Inv) (h : s.Recounted p log) (remaining : Exact) :
    (s.select remaining).1.Recounted p log := by
  rcases select_cases hinv remaining with ⟨_, _, heq⟩ | ⟨_, policy, queue, next, hchosen, heq⟩ |
    ⟨policy, _, hchosen, heq⟩
  · rw [heq]
    exact h
  · obtain ⟨hnext, hqueue⟩ := hchosen.finds hp hkind h
    rw [heq]
    refine ⟨⟨hqueue, fun q hq => ?_⟩, h.of_kept hchosen.kept⟩
    obtain rfl := Option.some.inj hq
    exact hnext next rfl
  · rw [heq]
    exact ⟨⟨nofun, nofun⟩, h.of_kept hchosen.kept⟩

omit hp hkind in
/-- What is taken in is recorded under the index that the world finds for the action. -/
theorem recounted_observe (hinv : s.Inv) (h : s.Recounted p log) (action : Action Exact)
    (outcome : Outcome) : (s.observe action outcome).1.Recounted p
      (log ++ (s.observation? (.request (.observe action outcome))).toList) := by
  rcases observe_cases hinv action outcome with ⟨_, _, heq⟩ |
    ⟨expected, index, policy, hpend, hcan, hkept, heq⟩
  · rw [observation?, heq, Option.toList_none, List.append_nil]
    exact h
  · obtain rfl := Action.eq_of_beq (beq_of_observe hpend heq)
    obtain ⟨i, rfl, hi⟩ := h.pending _ hpend
    obtain ⟨m, hm, hportfolio, hlog⟩ := h.history
    rw [observation?, heq, Option.toList_some]
    refine ⟨⟨h.queue, nofun⟩, ?_⟩
    rw [hm] at hkept hcan
    cases hkept with
    | modeling view _ _ =>
        refine ⟨_, rfl, view.portfolio.trans hportfolio, ?_⟩
        rw [view.history]
        exact World.countsFromEvents_concat hlog hi
          (Counts.record_eq_some (Modeling.CanCount.room hcan i rfl))

theorem recounted_step (hinv : s.Inv) (h : s.Recounted p log) :
    ∀ e : Event Exact, (s.step e).Recounted p (log ++ (s.observation? e).toList)
  | .request (.select remaining) => by
      rw [observation?, Option.toList_none, List.append_nil]
      exact recounted_select hp hkind hinv h remaining
  | .request (.observe action outcome) => recounted_observe hinv h action outcome
  | .features given => by
      obtain ⟨m, hm, hportfolio, hlog⟩ := h.history
      rw [observation?, Option.toList_none, List.append_nil, step, withFeatures_eq hm]
      exact ⟨⟨h.queue, h.pending⟩, _, rfl, hportfolio, hlog⟩

theorem recounted_play (hinv : s.Inv) (h : s.Recounted p log) (events : List (Event Exact)) :
    (s.play events).Recounted p (log ++ s.observations events) := by
  induction events generalizing s log with
  | nil =>
      rw [observations, List.append_nil]
      exact h
  | cons e events ih =>
      rw [observations, ← List.append_assoc]
      exact ih (inv_step hinv e) (recounted_step hp hkind hinv h e)

/-- **A log can be counted again.** After any requests, and any features given at any time, to a
session over a checked portfolio with the knapsack planner, counting the accepted observations as
events succeeds and gives the history of the session. Whatever events are counted, that fails
exactly if the world has no index for the action of one of them, and reports such an action, or if
a cell would have more of them than a count can be, and then the library stops; it takes as many
events as there are counts for that. It also stops at an action whose lookup does. Events can be
counted in any order and part by part. -/
theorem countsFromEvents_observations (taskId : String) (features : Option (FeatureVector Exact))
    (events : List (Event Exact)) {start : Strategy Exact}
    (hstart : start = (modeling p taskId).withFeatures features) :
    (∃ c, p.world.countsFromEvents (start.observations events) = .ok c ∧
        (start.play events).history? = some c) ∧
      ∀ (w : World Exact) (log : List (Action Exact × OutcomeKind)),
        (w.HasEventCounts log ↔ ∀ i k, w.eventsOn log i k < UInt32.size) ∧
        (log.length < UInt32.size → w.HasEventCounts log) ∧
        ((∃ e, w.countsFromEvents log = .error e) ↔
          (∃ e ∈ log, w.actionIndex? e.1 = none) ∨ ¬w.HasEventCounts log) ∧
        (∀ e, w.countsFromEvents log = .error e →
          (∃ x ∈ log, w.actionIndex? x.1 = none ∧
            (e = .unknownAction x.1.description ∨
              e = .overflow ∧ w.findAction x.1 = .error .overflow)) ∨
          e = .overflow ∧ ¬w.HasEventCounts log) ∧
        (∀ log', log.Perm log' →
          ∀ c, w.countsFromEvents log = .ok c ↔ w.countsFromEvents log' = .ok c) ∧
        ∀ log', w.HasEventCounts (log ++ log') → w.countsFromEvents (log ++ log') =
          (w.countsFromEvents log).bind fun c => (w.countsFromEvents log').map c.plus := by
  subst hstart
  constructor
  · have hinv := inv_fresh (.modeling p hp taskId features)
    have hplay := recounted_play hp hkind hinv (recounted_fresh taskId features) events
    obtain ⟨m, hm, _, hlog⟩ := hplay.history
    exact ⟨_, hlog, by rw [history?, modelingState?, hm]; rfl⟩
  · intro w log
    have hcollects := w.collects_events
    refine ⟨World.hasEventCounts_iff, fun hsize => ?_, ?_, fun e he => ?_,
      fun log' hperm c => hcollects.perm hperm, fun log' => hcollects.append⟩
    · exact World.hasEventCounts_iff.mpr fun _ _ => List.countP_le_length.trans_lt hsize
    · simp [hcollects.fails_iff, World.HasEventCounts]
    · rcases hcollects.eq_error he with ⟨x, hmem, hx, rfl⟩ | hfull
      · have hnone : w.actionIndex? x.1 = none := by simpa using hx
        refine Or.inl ⟨x, hmem, hnone, ?_⟩
        rcases World.findAction_of_none hnone with hfind | hfind
        · exact Or.inl (by rw [World.eventFault, hfind])
        · exact Or.inr ⟨by rw [World.eventFault, hfind], hfind⟩
      · exact Or.inr hfull

end session

/-- A session over noise that was asked for an action and told about either. -/
theorem countsFromEvents_observations_noisyRungs : noisyRungs.check = .ok () ∧
    noisyRungs.planner.kind = .knapsack ∧
    let start := (modeling noisyRungs "t").withFeatures none
    let events := [.request (.select (.real 20)),
      .request (.observe (World.twoRungs.action 0) .negative),
      .request (.observe (World.twoRungs.action 1) .negative)]
    ∃ c, World.twoRungs.countsFromEvents (start.observations events) = .ok c ∧
      (start.play events).history? = some c := by
  refine ⟨noisyRungs_check, rfl, ?_⟩
  exact (countsFromEvents_observations noisyRungs_check rfl "t" none _ rfl).1

end Strategy

end SolverPortfolio

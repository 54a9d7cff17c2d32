import SolverPortfolio.Proofs.Counts
import SolverPortfolio.Proofs.Strategy.Selection

/-!
# What a session hands out and takes in

Two accounts that are kept along a run: the outcomes that are taken in, and the actions that are
handed out.
-/

namespace SolverPortfolio

/-!
## What the history of a session counts

An observation that a session takes in counts under the index of the pending action and
the kind of its outcome; `Strategy.log` is the list of them along a run, in their order.
The history of a modeling session is the tally of that log (`Strategy.tallied_play`): one
event adds what it takes in and touches no other cell (`tallied_step`), and selecting,
refused requests and new features take in nothing.

A tally does not know the order of what it counts, and neither does anything a session
believes, since what it keeps beside the history are caches (`Modeling.Coherent`).
-/

variable {α : Type}

/-! ### Tallies -/

/-- An outcome that was taken in: the index it counts under, if any, and its kind. -/
abbrev Seen := Option Nat × OutcomeKind

/-- The history has a cell for every action of the world and every kind, and each counts
how often it was seen. -/
structure Modeling.Tallied (m : Modeling α) (seen : List Seen) : Prop where
  shape : m.history.Tallies m.portfolio.world.nactions
  known : ∀ e ∈ seen, ∃ i < m.portfolio.world.nactions, e.1 = some i
  counts : ∀ (i : Nat) (k : OutcomeKind),
    (m.history.get i k.index).toNat = seen.count (some i, k)

namespace Modeling

theorem Tallied.of_view {m m' : Modeling α} {seen : List Seen} (hview : SameView m m')
    (h : m.Tallied seen) : m'.Tallied seen where
  shape := by
    rw [hview.history, hview.portfolio]
    exact h.shape
  known := by
    rw [hview.portfolio]
    exact h.known
  counts := by
    rw [hview.history]
    exact h.counts

theorem tallied_start (p : Portfolio α) (taskId : String) : (start p taskId).Tallied [] where
  shape := Counts.tallies_fresh _
  known := nofun
  counts := fun i k => congrArg UInt32.toNat (Counts.get_fresh _ i k.index)

theorem Tallied.bump {m : Modeling α} {seen : List Seen} (h : m.Tallied seen) {i : Nat}
    (hi : i < m.portfolio.world.nactions) {k : OutcomeKind}
    (hroom : m.history.hasRoom i k.index = true) :
    (m.bump i k.index).Tallied (seen ++ [(some i, k)]) where
  shape := h.shape.bump i k.index
  known := fun e he => by
    rcases List.mem_append.mp he with he | he
    · exact h.known e he
    · obtain rfl := List.mem_singleton.mp he
      exact ⟨i, hi, rfl⟩
  counts := fun j l => by
    have hsame : ((some i, k) == (some j, l)) = true ↔ j = i ∧ l = k := by
      rw [beq_iff_eq, Prod.mk.injEq, Option.some.injEq]
      exact and_congr eq_comm eq_comm
    have hcell := h.shape.toNat_get_of_record hi (Counts.record_eq_some hroom) j l
    rw [h.counts] at hcell
    rw [List.count_append, List.count_singleton]
    refine hcell.trans ?_
    exact congrArg _ (if_congr hsame.symm rfl rfl)

end Modeling

namespace Strategy

/-- The history of a modeling strategy is the tally of what was seen. -/
def Tallied (s : Strategy α) (seen : List Seen) : Prop :=
  ∀ m, s.policy = .modeling m → m.Tallied seen

variable [Analytic α]

theorem tallied_fresh {s : Strategy α} (h : Fresh s) : s.Tallied [] := by
  intro m hm
  cases h with
  | modeling p _ taskId features =>
      obtain rfl := Policy.modeling.inj hm
      have hstart := Modeling.tallied_start p taskId
      exact ⟨hstart.shape, hstart.known, hstart.counts⟩
  | sequence actions => cases hm
  | fixed a => cases hm

/-- The pending action of a modeling strategy counts under an action of its world. -/
theorem Stocked.pending_index {s : Strategy α} (h : s.Stocked) {m : Modeling α}
    (hm : s.policy = .modeling m) {a : Action α} {index : Option Nat}
    (hp : s.pending = some (a, index)) :
    ∃ i < m.portfolio.world.nactions, index = some i := by
  obtain ⟨_, _, hout⟩ := h.pending _ hp
  rw [hm] at hout
  cases hout with
  | planned _ i known _ => exact ⟨i, known, rfl⟩
  | extended _ i known _ => exact ⟨i, known, rfl⟩

theorem Tallied.counted [GammaFunctions α] {s : Strategy α} {seen : List Seen}
    (ht : s.Tallied seen) (hs : s.Stocked) {a : Action α} {index : Option Nat}
    (hp : s.pending = some (a, index)) {kind : OutcomeKind}
    (hcan : s.policy.CanCount index kind) :
    Tallied { s with policy := s.policy.counted index kind } (seen ++ [(index, kind)]) := by
  intro m' hm'
  cases hm : s.policy with
  | modeling m =>
      obtain ⟨i, hi, rfl⟩ := hs.pending_index hm hp
      obtain rfl : m.bump i kind.index = m' := by
        simpa only [hm, Policy.counted, Modeling.counted, Policy.modeling.injEq] using hm'
      rw [hm] at hcan
      exact (ht m hm).bump hi (Modeling.CanCount.room hcan i rfl)
  | sequence => simp only [hm, Policy.counted, reduceCtorEq] at hm'
  | fixed a => simp only [hm, Policy.counted, reduceCtorEq] at hm'

variable [GammaFunctions α]

/-! ### Logs -/

/-- What an event makes the strategy take in, if anything. -/
def accepted? (s : Strategy α) : Event α → Option Seen
  | .request (.observe action outcome) =>
    match (s.observe action outcome).2 with
    | .ok () => s.pending.map fun p => (p.2, outcome.kind)
    | .error _ => none
  | .request (.select _) => none
  | .features _ => none

/-- What is taken in along a run, in its order. -/
def log (s : Strategy α) : List (Event α) → List Seen
  | [] => []
  | e :: events => (s.accepted? e).toList ++ (s.step e).log events

/-! ### The tally along runs -/

theorem Tallied.of_kept {s : Strategy α} {seen : List Seen} (h : s.Tallied seen)
    {policy : Policy α} (hkept : s.policy.Kept policy) :
    ∀ m, policy = .modeling m → m.Tallied seen := by
  intro m hm
  obtain ⟨policy₀, _, _, _⟩ := s
  cases hkept with
  | modeling view _ _ =>
      obtain rfl := Policy.modeling.inj hm
      exact (h _ rfl).of_view view
  | sequence => cases hm
  | fixed a => cases hm

theorem tallied_select {s : Strategy α} (h : s.Inv) {seen : List Seen} (ht : s.Tallied seen)
    (remaining : α) : (s.select remaining).1.Tallied seen := by
  rcases select_cases h remaining with ⟨_, _, heq⟩ | ⟨_, _, _, _, hchosen, heq⟩ |
    ⟨_, _, hchosen, heq⟩
  · rw [heq]
    exact ht
  · rw [heq]
    exact ht.of_kept hchosen.kept
  · rw [heq]
    exact ht.of_kept hchosen.kept

/-- What is taken in adds one to its cell. -/
theorem tallied_observe {s : Strategy α} (h : s.Inv) (hs : s.Stocked) {seen : List Seen}
    (ht : s.Tallied seen) (action : Action α) (outcome : Outcome) :
    (s.observe action outcome).1.Tallied
      (seen ++ (s.accepted? (.request (.observe action outcome))).toList) := by
  rcases observe_cases h action outcome with ⟨_, _, heq⟩ | ⟨_, index, _, hpend, hcan, hkept, heq⟩
  · rw [accepted?, heq, Option.toList_none, List.append_nil]
    exact ht
  · rw [accepted?, heq, hpend, Option.map_some, Option.toList_some]
    exact (ht.counted hs hpend hcan).of_kept hkept

theorem tallied_step {s : Strategy α} (h : s.Inv) (hs : s.Stocked) {seen : List Seen}
    (ht : s.Tallied seen) :
    ∀ e : Event α, (s.step e).Tallied (seen ++ (s.accepted? e).toList)
  | .request (.select remaining) => by
      rw [accepted?, Option.toList_none, List.append_nil]
      exact tallied_select h ht remaining
  | .request (.observe action outcome) => tallied_observe h hs ht action outcome
  | .features given => by
      rw [accepted?, Option.toList_none, List.append_nil, step]
      rcases withFeatures_cases s given with ⟨m, hm, heq⟩ | ⟨_, heq⟩
      · rw [heq]
        intro m' hm'
        obtain rfl := Policy.modeling.inj hm'
        exact ⟨(ht m hm).shape, (ht m hm).known, (ht m hm).counts⟩
      · rw [heq]
        exact ht

theorem tallied_play {s : Strategy α} (h : s.Inv) (hs : s.Stocked) {seen : List Seen}
    (ht : s.Tallied seen) (events : List (Event α)) :
    (s.play events).Tallied (seen ++ s.log events) := by
  induction events generalizing s seen with
  | nil =>
      rw [log, List.append_nil]
      exact ht
  | cons e events ih =>
      rw [log, ← List.append_assoc]
      exact ih (inv_step h e) (stocked_step h hs e) (tallied_step h hs ht e)

/-- From the start on, the history is the tally of the log. -/
theorem tallied_log {start : Strategy α} (h : Fresh start) (events : List (Event α)) :
    (start.play events).Tallied (start.log events) :=
  tallied_play (inv_fresh h) (stocked_fresh h) (tallied_fresh h) events

end Strategy

end SolverPortfolio

namespace SolverPortfolio

/-!
## What is handed out along a run

A request to select is answered with an action or with none, or it is refused. `Strategy.answers`
lists the answers along a run, `Strategy.handed` the actions among them with the indices their
outcomes count under.

An action that was handed out is awaited until its outcome is taken in, and no other one is handed
out meanwhile. So the outcomes are taken in under the indices of the actions, in their order
(`indices_play`); one step moves an index from what is handed out to what is awaited, and from
there to the log (`indices_step`).
-/

/-- An action that was handed out, the index its outcome counts under, and the budget of the
request. -/
structure Handed (α : Type) where
  action : Action α
  index : Option Nat
  remaining : α

namespace Strategy

variable {α : Type} [Analytic α] [GammaFunctions α] {s : Strategy α}

/-- What a request to select hands out, if the event is one and is answered. -/
def answer? (s : Strategy α) : Event α → Option (Option (Handed α))
  | .request (.select remaining) =>
    match s.select remaining with
    | (s', .ok given) => some (given.map fun a => ⟨a, s'.pending.bind Prod.snd, remaining⟩)
    | (_, .error _) => none
  | .request (.observe _ _) => none
  | .features _ => none

/-- The answers to the requests to select along a run. -/
def answers (s : Strategy α) : List (Event α) → List (Option (Handed α))
  | [] => []
  | e :: events => (s.answer? e).toList ++ (s.step e).answers events

/-- What is handed out along a run, in its order. -/
def handed (s : Strategy α) (events : List (Event α)) : List (Handed α) :=
  (s.answers events).reduceOption

theorem answer?_of_error {s' : Strategy α} {remaining : α} {e : PortfolioError α}
    (h : s.select remaining = (s', .error e)) :
    s.answer? (.request (.select remaining)) = none := by
  rw [answer?, h]

theorem answer?_of_some {s' : Strategy α} {remaining : α} {p : Pending α}
    (h : s.select remaining = (s', .ok (some p.1))) (hp : s'.pending = some p) :
    s.answer? (.request (.select remaining)) = some (some ⟨p.1, p.2, remaining⟩) := by
  rw [answer?, h]
  simp [hp]

theorem answer?_of_none {s' : Strategy α} {remaining : α}
    (h : s.select remaining = (s', .ok none)) :
    s.answer? (.request (.select remaining)) = some none := by
  rw [answer?, h]
  rfl

theorem handed_cons (s : Strategy α) (e : Event α) (events : List (Event α)) :
    s.handed (e :: events) = (s.answer? e).toList.reduceOption ++ (s.step e).handed events := by
  rw [handed, answers, List.reduceOption_append]
  rfl

theorem handed_append (s : Strategy α) (events later : List (Event α)) :
    s.handed (events ++ later) = s.handed events ++ (s.play events).handed later := by
  induction events generalizing s with
  | nil => rfl
  | cons e events ih =>
      rw [List.cons_append, handed_cons, handed_cons, ih, List.append_assoc]
      rfl

/-! ### Requests without an answer -/

theorem phase_of_select {s' : Strategy α} {remaining : α} {given : Option (Action α)}
    (h : s.select remaining = (s', .ok given)) : s.phase = .ready := by
  by_contra hready
  rw [select, if_pos hready] at h
  cases h

/-- A ready strategy is changed by the requests to select that it answers, and by nothing else. -/
theorem after_of_unanswered (hinv : s.Inv) (hready : s.phase = .ready) :
    ∀ r : Request α, s.answer? (.request r) = none → s.after r = s
  | .select remaining, h => by
      rw [after]
      rcases select_cases hinv remaining with ⟨_, _, heq⟩ | ⟨_, _, _, _, _, heq⟩ | ⟨_, _, _, heq⟩
      · rw [heq]
      · rw [answer?_of_some heq rfl] at h
        cases h
      · rw [answer?_of_none heq] at h
        cases h
  | .observe action outcome, _ => by
      rw [after]
      rcases observe_cases hinv action outcome with ⟨_, _, heq⟩ | ⟨_, _, _, hp, _, _⟩
      · rw [heq]
      · rw [hinv.pending_eq_none hready] at hp
        cases hp

/-! ### Indices -/

/-- The index of the action whose outcome is awaited, if there is one. -/
def indexAwaited (s : Strategy α) : List (Option Nat) := (s.pending.map Prod.snd).toList

theorem indices_step (hinv : s.Inv) : ∀ e : Event α,
    s.indexAwaited ++ (s.answer? e).toList.reduceOption.map Handed.index =
      (s.accepted? e).toList.map Prod.fst ++ (s.step e).indexAwaited
  | .request (.select remaining) => by
      rw [step, after, accepted?]
      rcases select_cases hinv remaining with ⟨_, _, heq⟩ | ⟨_, _, _, p, _, heq⟩ | ⟨_, _, _, heq⟩
      · rw [answer?_of_error heq, heq]
        exact List.append_nil _
      · have hp : s.pending = none := hinv.pending_eq_none (phase_of_select heq)
        rw [answer?_of_some heq rfl, heq, indexAwaited, hp]
        rfl
      · have hp : s.pending = none := hinv.pending_eq_none (phase_of_select heq)
        rw [answer?_of_none heq, heq, indexAwaited, hp]
        rfl
  | .request (.observe action outcome) => by
      rw [step, after, answer?, accepted?]
      rcases observe_cases hinv action outcome with ⟨_, _, heq⟩ | ⟨_, index, _, hp, _, _, heq⟩
      · rw [heq]
        exact List.append_nil _
      · rw [heq, indexAwaited, hp]
        rfl
  | .features given => by
      have hp : (s.step (.features given)).pending = s.pending := by
        rcases withFeatures_cases s given with ⟨_, _, heq⟩ | ⟨_, heq⟩
        · rw [step, heq]
        · rw [step, heq]
      rw [indexAwaited, indexAwaited, hp]
      exact List.append_nil _

/-- What is handed out counts under its own index, in its order. -/
theorem indices_play (hinv : s.Inv) (events : List (Event α)) :
    s.indexAwaited ++ (s.handed events).map Handed.index =
      (s.log events).map Prod.fst ++ (s.play events).indexAwaited := by
  induction events generalizing s with
  | nil => exact List.append_nil _
  | cons e events ih =>
      rw [handed_cons, log, List.map_append, List.map_append, ← List.append_assoc,
        indices_step hinv e, List.append_assoc, ih (inv_step hinv e), List.append_assoc]
      rfl

end Strategy

end SolverPortfolio

import SolverPortfolio.Proofs.Scalar.RoundedDouble
import SolverPortfolio.Proofs.Strategy.Exhaustion
import SolverPortfolio.Proofs.Strategy.History

/-!
# Progress

An action that was handed out can be observed, provided that it equals itself. Its ceiling
decides that: the pending action is the very one that was handed out, so solver and text
agree, and ceilings are compared as numbers.

So a session gets on with every action whose cost is a number, and a modeling session adds
one to one cell of its history. Only where that one is one too many for its cell or its row
(`Policy.CanCount`) the library stops. An action of any other cost is handed out by a sequence,
and there the session is stuck for good (`play_of_isNaN`). `observe_selected` is the
headline.
-/

namespace SolverPortfolio

open Scalar Rounded

/-- What is not a number equals no number. -/
theorem Action.beq_eq_false {α : Type} [Scalar α] [Rounded α] [EqualByValue α] {a : Action α}
    (h : isNaN a.cost = true) (b : Action α) : (a == b) = false := by
  have hcost : (a.cost == b.cost) = false := by
    rw [Bool.eq_false_iff, ne_eq, EqualByValue.beq_iff, ← isNaN_eq_false_iff, h]
    exact fun hab => Bool.noConfusion hab.1
  show (a.solver == b.solver && a.cost == b.cost && a.description == b.description) = false
  rw [hcost, Bool.and_false, Bool.false_and]

namespace Strategy

variable {α : Type}

theorem history?_of_modeling {s : Strategy α} {m : Modeling α} (h : s.policy = .modeling m) :
    s.history? = some m.history := by
  rw [history?, modelingState?, h, Option.map_some]

theorem exists_modeling {s : Strategy α} {c : Counts} (h : s.history? = some c) :
    ∃ m, s.policy = .modeling m ∧ m.history = c := by
  obtain ⟨m, hm, hc⟩ := Option.map_eq_some_iff.mp h
  cases hp : s.policy with
  | modeling m' =>
      rw [modelingState?, hp] at hm
      obtain rfl := Option.some.inj hm
      exact ⟨m', rfl, hc⟩
  | sequence => rw [modelingState?, hp] at hm; cases hm
  | fixed a => rw [modelingState?, hp] at hm; cases hm

variable [Analytic α] [GammaFunctions α]

/-- Counting an outcome of an action adds one to one cell. -/
theorem history?_of_counted {s s' : Strategy α} {m : Modeling α} (hm : s.policy = .modeling m)
    {i : Nat} {kind : OutcomeKind} (hkept : (s.policy.counted (some i) kind).Kept s'.policy) :
    s'.history? = some (m.history.bump i kind.index) := by
  obtain ⟨policy, _, _, _⟩ := s'
  rw [hm, Policy.counted] at hkept
  cases hkept with
  | modeling view _ _ =>
      rw [history?_of_modeling rfl, view.history]
      rfl

variable [Rounded α] [EqualByValue α]

/-! ## An action without a cost -/

/-- Nothing gets a sequence past an action whose cost is not a number. -/
theorem step_of_isNaN {s : Strategy α} {a : Action α} {index : Option Nat}
    (hs : s.policy = .sequence) (hw : s.phase = .awaitingOutcome)
    (hp : s.pending = some (a, index)) (hnan : isNaN a.cost = true) :
    ∀ e : Event α, s.step e = s
  | .request (.select remaining) => by
      rw [step, after, select, if_pos (by rw [hw]; exact Phase.noConfusion)]
  | .request (.observe action outcome) => by
      rw [step, after, observe_of_differs hw hp (Action.beq_eq_false hnan action)]
  | .features given => by rw [step, withFeatures, hs]

theorem play_of_isNaN {s : Strategy α} {a : Action α} {index : Option Nat}
    (hs : s.policy = .sequence) (hw : s.phase = .awaitingOutcome)
    (hp : s.pending = some (a, index)) (hnan : isNaN a.cost = true) (events : List (Event α)) :
    s.play events = s := by
  induction events with
  | nil => rfl
  | cons e events ih =>
      rw [play, List.foldl_cons, step_of_isNaN hs hw hp hnan e]
      exact ih

/-! ## The headline theorem -/

/-- **Progress.** After an action is handed out, observing it with any outcome succeeds,
leaves the session ready, and adds one to the cell of the action and the outcome in the
history of a modeling session; provided that its cost is a number and that there is room for
one more, without which the library stops and the session stays as it is. If the cost is not
a number, the session runs a sequence, the observation is refused, and so is everything it
will ever be asked. -/
theorem observe_selected {start : Strategy α} (hstart : Fresh start) (events : List (Event α))
    {remaining : α} {s : Strategy α} {a : Action α}
    (hselect : (start.play events).select remaining = (s, .ok (some a))) (outcome : Outcome) :
    (isNaN a.cost = false → ∃ index, s.pending = some (a, index) ∧
      (s.policy.CanCount index outcome.kind →
        ∃ s', s.observe a outcome = (s', .ok ()) ∧ s'.phase = .ready ∧
          ∀ c, s.history? = some c → ∃ i < c.nactions, index = some i ∧
            ∃ c', s'.history? = some c' ∧ c.record i outcome.kind = some c' ∧
              ∀ (j : Nat) (k : OutcomeKind), (c'.get j k.index).toNat =
                (c.get j k.index).toNat + if j = i ∧ k = outcome.kind then 1 else 0) ∧
      (¬s.policy.CanCount index outcome.kind → s.observe a outcome = (s, .error .overflow))) ∧
      (isNaN a.cost = true →
        s.policy = .sequence ∧
          s.observe a outcome =
            (s, .error (.unexpectedObservation a.description a.description)) ∧
          ∀ later, s.play later = s) := by
  obtain ⟨hinv₀, hstocked₀⟩ := stocked_play hstart events
  obtain ⟨hr, policy, queue, index, hkept, hout, heq⟩ :=
    select_eq_some hinv₀ hstocked₀ (congrArg Prod.snd hselect)
  have hs : s = ⟨policy, .awaitingOutcome, queue, some (a, index)⟩ :=
    (congrArg Prod.fst hselect).symm.trans heq
  have hw : s.phase = .awaitingOutcome := by rw [hs]
  have hp : s.pending = some (a, index) := by rw [hs]
  constructor
  · intro hnumber
    let events' := events ++ [.request (.select remaining)]
    have hplay : start.play events' = s := by
      rw [play, List.foldl_append]
      exact congrArg Prod.fst hselect
    obtain ⟨hinv, hstocked⟩ : s.Inv ∧ s.Stocked := hplay ▸ stocked_play hstart events'
    have htallied : s.Tallied (start.log events') := hplay ▸ tallied_log hstart events'
    have hsame : (a == a) = true := (Action.beq_self_iff a).mpr hnumber
    refine ⟨index, hp, fun hcan => ?_, fun hfull => ?_⟩
    · obtain ⟨policy', hkept', hobserve⟩ := observe_of_pending hinv hw hp hsame hcan
      refine ⟨_, hobserve, rfl, fun c hc => ?_⟩
      obtain ⟨m, hm, rfl⟩ := exists_modeling hc
      have hshape := (htallied m hm).shape
      obtain ⟨i, hi, rfl⟩ := Stocked.pending_index hstocked hm hp
      rw [hm] at hcan
      have hrecord := Counts.record_eq_some (Modeling.CanCount.room hcan i rfl)
      exact ⟨i, hshape.nactions.symm ▸ hi, rfl, _, history?_of_counted hm hkept', hrecord,
        hshape.toNat_get_of_record hi hrecord⟩
    · obtain ⟨m, hm, hfull'⟩ := Policy.of_not_canCount hfull
      exact observe_of_not_canCount hw hp hsame hm hfull'
  · intro hnan
    have hpolicy : s.policy = .sequence := by
      rw [hs]
      exact hout.eq_sequence hr
        (fun m hm => Portfolio.world_check (hkept.coherent hm).checked) hnan
    exact ⟨hpolicy, observe_of_differs hw hp (Action.beq_eq_false hnan a) outcome,
      play_of_isNaN hpolicy hw hp hnan⟩

theorem longRunner_selects :
    ∃ s a, (modeling longRunner "t").select 20 = (s, .ok (some a)) ∧ isNaN a.cost = false ∧
      s.history? = some (Counts.fresh 2) ∧ (s.observe a .unsolved).2.toOption.isSome = true := by
  have hgets : (((modeling longRunner "t").select 20).2.toOption.bind id).any (fun a =>
      !isNaN a.cost && (((modeling longRunner "t").select 20).1.observe a
        .unsolved).2.toOption.isSome) = true := by
    decide +kernel
  have hhistory : ((modeling longRunner "t").select 20).1.history? = some (Counts.fresh 2) := by
    decide +kernel
  rcases hselect : (modeling longRunner "t").select 20 with ⟨s, e | none | a⟩
  · rw [hselect] at hgets
    cases hgets
  · rw [hselect] at hgets
    cases hgets
  · rw [hselect] at hgets hhistory
    obtain ⟨hnumber, hobserve⟩ := Bool.and_eq_true_iff.mp hgets
    exact ⟨s, a, rfl, Bool.not_inj hnumber, hhistory, hobserve⟩

/-- A session that gets on, and one that is stuck with an action without a cost. -/
theorem observe_selected_longRunner :
    (∃ s a s' i, (modeling longRunner "t").select 20 = (s, .ok (some a)) ∧
        s.observe a .unsolved = (s', .ok ()) ∧ i < 2 ∧
        s'.history? = (Counts.fresh 2).record i .unsolved) ∧
      ∃ s, (Strategy.sequence [unpriced]).select 10 = (s, .ok (some unpriced)) ∧
        ∀ later, s.play later = s := by
  constructor
  · obtain ⟨s, a, hselect, hnumber, hhistory, hgets⟩ := longRunner_selects
    obtain ⟨index, _, hsucceeds, hstops⟩ :=
      (observe_selected (.modeling longRunner rfl "t" none) [] hselect .unsolved).1 hnumber
    have hcan : s.policy.CanCount index .unsolved := by
      by_contra hfull
      rw [hstops hfull] at hgets
      cases hgets
    obtain ⟨s', hobserve, _, hcell⟩ := hsucceeds hcan
    obtain ⟨i, hi, _, c', hhistory', hrecord, _⟩ := hcell _ hhistory
    exact ⟨s, a, s', i, hselect, hobserve, hi, hhistory'.trans hrecord.symm⟩
  · have hnan : isNaN unpriced.cost = true := by decide +kernel
    have hselect : ((Strategy.sequence [unpriced]).play []).select 10 =
        (⟨.sequence, .awaitingOutcome, [], some (unpriced, none)⟩, .ok (some unpriced)) := rfl
    exact ⟨_, hselect, ((observe_selected (.sequence [unpriced]) [] hselect .unsolved).2 hnan).2.2⟩

end Strategy

end SolverPortfolio

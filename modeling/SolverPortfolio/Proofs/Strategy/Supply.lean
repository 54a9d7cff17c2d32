import Mathlib.Order.Bounds.Defs
import SolverPortfolio.Proofs.Strategy.History
import SolverPortfolio.Proofs.Strategy.Progress

/-!
# Strategies without a model

What a sequence or a repeated action hands out is laid down before the session begins: the
`i`-th action in a list, or the same action at every place. `Supplies` says what a strategy will
still hand out, by place.

- A request that is answered takes the first action of the supply, or ends the session because
  there is none or it costs more than the budget (`select_of_supplies`).
- Whatever else happens takes nothing: requests that are refused, outcomes and new features leave
  the supply as it is (`supplies_step`).

So the answers along a run go through the supply in its order (`InOrder`, `inOrder_answered`), and
the run ends at the first place that ends it (`InOrder.ends_or_goes_on`). `runs_until_misfit` is the
headline.
-/

namespace SolverPortfolio

open Scalar Rounded

/-- A request to select that was answered: its budget, and the action handed out, if any. -/
structure Answered (α : Type) where
  remaining : α
  given : Option (Action α)

/-! ## Answers in order -/

section

variable {α : Type} [Scalar α] {supply : ℕ → Option (Action α)} {answers : List (Answered α)}

/-- Nothing is left to hand out, or the next action costs more than the budget. -/
def Misfit (next : Option (Action α)) (remaining : α) : Prop :=
  ∀ a, next = some a → remaining < a.cost

/-- The request that is answered at this place ends the session. -/
def EndsAt (supply : ℕ → Option (Action α)) (answers : List (Answered α)) (i : ℕ) : Prop :=
  ∃ x, answers[i]? = some x ∧ Misfit (supply i) x.remaining

/-- The answers hand out the supply in its order, and a misfit is the last of them. -/
inductive InOrder : (ℕ → Option (Action α)) → List (Answered α) → Prop
  | nil (supply : ℕ → Option (Action α)) : InOrder supply []
  | next {supply : ℕ → Option (Action α)} {answers : List (Answered α)} {a : Action α}
      {remaining : α} (first : supply 0 = some a) (fits : ¬remaining < a.cost)
      (rest : InOrder (fun i => supply (i + 1)) answers) :
      InOrder supply (⟨remaining, some a⟩ :: answers)
  | stop {supply : ℕ → Option (Action α)} {remaining : α} (misfit : Misfit (supply 0) remaining) :
      InOrder supply [⟨remaining, none⟩]

theorem not_misfit {a : Action α} {remaining : α} (h : ¬remaining < a.cost) :
    ¬Misfit (some a) remaining :=
  fun hmisfit => h (hmisfit a rfl)

theorem endsAt_cons_zero {x : Answered α} :
    EndsAt supply (x :: answers) 0 ↔ Misfit (supply 0) x.remaining := by
  simp [EndsAt]

theorem endsAt_cons_succ {x : Answered α} {i : ℕ} :
    EndsAt supply (x :: answers) (i + 1) ↔ EndsAt (fun i => supply (i + 1)) answers i :=
  Iff.rfl

/-- The first places of a supply are its first one and then the first ones of the rest. -/
theorem map_range_succ {β : Type} (f : ℕ → β) (n : ℕ) :
    (List.range (n + 1)).map f = f 0 :: (List.range n).map fun i => f (i + 1) := by
  rw [List.range_succ_eq_map, List.map_cons, List.map_map]
  rfl

/-- A second action over its budget is the first misfit. -/
theorem isLeast_endsAt_one {x y : Answered α} {a b : Action α} (hfirst : supply 0 = some a)
    (hfits : ¬x.remaining < a.cost) (hsecond : supply 1 = some b) (hover : y.remaining < b.cost) :
    IsLeast {i | EndsAt supply [x, y] i} 1 := by
  constructor
  · refine ⟨y, rfl, ?_⟩
    intro c hc
    obtain rfl := Option.some.inj (hsecond.symm.trans hc)
    exact hover
  · intro i hi
    cases i with
    | zero =>
        have hmisfit : Misfit (supply 0) x.remaining := endsAt_cons_zero.mp hi
        rw [hfirst] at hmisfit
        exact absurd hmisfit (not_misfit hfits)
    | succ i => omega

/-- Answers in order end at the first misfit, or there is none and they go on. -/
theorem InOrder.ends_or_goes_on (h : InOrder supply answers) :
    (∃ n, IsLeast {i | EndsAt supply answers i} n ∧
      answers.map Answered.given = (List.range n).map supply ++ [none]) ∨
    ((∀ i, ¬EndsAt supply answers i) ∧
      answers.map Answered.given = (List.range answers.length).map supply) := by
  induction h with
  | nil supply =>
      refine Or.inr ⟨?_, rfl⟩
      rintro i ⟨x, hx, _⟩
      cases hx
  | @next supply answers a remaining first fits rest ih =>
      have hzero : ¬EndsAt supply (⟨remaining, some a⟩ :: answers) 0 := by
        rw [endsAt_cons_zero, first]
        exact not_misfit fits
      rcases ih with ⟨n, ⟨hends, hleast⟩, hgiven⟩ | ⟨hnone, hgiven⟩
      · refine Or.inl ⟨n + 1, ⟨endsAt_cons_succ.mpr hends, ?_⟩, ?_⟩
        · intro i hi
          cases i with
          | zero => exact absurd hi hzero
          | succ i => exact Nat.succ_le_succ (hleast (endsAt_cons_succ.mp hi))
        · rw [List.map_cons, hgiven, map_range_succ, first]
          rfl
      · refine Or.inr ⟨?_, ?_⟩
        · intro i hi
          cases i with
          | zero => exact hzero hi
          | succ i => exact hnone i (endsAt_cons_succ.mp hi)
        · rw [List.map_cons, hgiven, List.length_cons, map_range_succ, first]
  | stop misfit =>
      refine Or.inl ⟨0, ⟨endsAt_cons_zero.mpr misfit, ?_⟩, rfl⟩
      intro i _
      exact Nat.zero_le i

end

namespace Strategy

variable {α : Type} [Analytic α]

/-- What a strategy will hand out, by place: the rest of a list, or one action for ever. -/
inductive Supplies : (ℕ → Option (Action α)) → Strategy α → Prop
  | sequence {s : Strategy α} (actions : List (Action α)) (policy : s.policy = .sequence)
      (queue : s.queue = actions.map .ofAction)
      (priced : ∀ a ∈ actions, isNaN a.cost = false) : Supplies (fun i => actions[i]?) s
  | fixed {s : Strategy α} (a : Action α) (policy : s.policy = .fixed a)
      (priced : isNaN a.cost = false) : Supplies (fun _ => some a) s

variable {supply : ℕ → Option (Action α)} {s : Strategy α}

theorem Supplies.of_same (h : s.Supplies supply) {s' : Strategy α} (hpolicy : s'.policy = s.policy)
    (hqueue : s'.queue = s.queue) : s'.Supplies supply := by
  cases h with
  | sequence actions policy queue priced =>
      exact .sequence actions (hpolicy.trans policy) (hqueue.trans queue) priced
  | fixed a policy priced => exact .fixed a (hpolicy.trans policy) priced

/-- A strategy that is over hands out what it could without a queue. -/
theorem Supplies.ended (h : s.Supplies supply) :
    ∃ rest, Supplies rest { s with queue := [], phase := .exhausted } := by
  cases h with
  | sequence actions policy _ _ => exact ⟨_, .sequence [] policy rfl nofun⟩
  | fixed a policy priced => exact ⟨_, .fixed a policy priced⟩

theorem Supplies.ne_modeling (h : s.Supplies supply) (m : Modeling α) : s.policy ≠ .modeling m := by
  intro hm
  cases h with
  | sequence _ hpolicy _ _ =>
      rw [hpolicy] at hm
      cases hm
  | fixed _ hpolicy _ =>
      rw [hpolicy] at hm
      cases hm

omit [Analytic α] in
/-- Only strategies with a model look at features. -/
theorem withFeatures_of_ne_modeling (h : ∀ m, s.policy ≠ .modeling m)
    (given : Option (FeatureVector α)) : s.withFeatures given = s := by
  rcases withFeatures_cases s given with ⟨m, hm, _⟩ | ⟨_, heq⟩
  · exact absurd hm (h m)
  · exact heq

/-- The actions of a supply have costs that are numbers. -/
theorem Supplies.isNaN_cost (h : s.Supplies supply) {i : ℕ} {a : Action α}
    (ha : supply i = some a) : isNaN a.cost = false := by
  cases h with
  | sequence actions _ _ priced => exact priced a (List.mem_of_getElem? ha)
  | fixed b _ priced =>
      obtain rfl := Option.some.inj ha
      exact priced

variable [GammaFunctions α]

/-- A request to select that is answered. -/
def answered? (s : Strategy α) : Event α → Option (Answered α)
  | .request (.select remaining) =>
    match s.select remaining with
    | (_, .ok given) => some ⟨remaining, given⟩
    | (_, .error _) => none
  | .request (.observe _ _) => none
  | .features _ => none

/-- The requests to select that are answered along a run. -/
def answered (s : Strategy α) : List (Event α) → List (Answered α)
  | [] => []
  | e :: events => (s.answered? e).toList ++ (s.step e).answered events

theorem answered?_of_ok {s' : Strategy α} {remaining : α} {given : Option (Action α)}
    (h : s.select remaining = (s', .ok given)) :
    s.answered? (.request (.select remaining)) = some ⟨remaining, given⟩ := by
  rw [answered?, h]

theorem answered?_of_error {s' : Strategy α} {remaining : α} {e : PortfolioError α}
    (h : s.select remaining = (s', .error e)) :
    s.answered? (.request (.select remaining)) = none := by
  rw [answered?, h]

theorem answered_cons (s : Strategy α) (e : Event α) (events : List (Event α)) :
    s.answered (e :: events) = (s.answered? e).toList ++ (s.step e).answered events := rfl

/-! ## One request -/

/-- A session that is over answers nothing. -/
theorem answered?_of_exhausted (hx : s.phase = .exhausted) : ∀ e : Event α, s.answered? e = none
  | .request (.select remaining) => by
      rw [answered?, select, if_pos (by rw [hx]; exact Phase.noConfusion)]
  | .request (.observe _ _) => rfl
  | .features _ => rfl

theorem isBudget_of_select {s' : Strategy α} {remaining : α} {given : Option (Action α)}
    (h : s.select remaining = (s', .ok given)) : s.phase = .ready ∧ IsBudget remaining := by
  have hready : s.phase = .ready := phase_of_select h
  refine ⟨hready, ?_⟩
  by_contra hr
  rw [select_of_not_isBudget hready hr] at h
  cases h

section

variable [Rounded α]

/-- A ready strategy takes the first action of its supply if there is one within the budget, and
is over otherwise. -/
theorem select_of_supplies (h : s.Supplies supply) (hready : s.phase = .ready) {remaining : α}
    (hr : IsBudget remaining) :
    (∃ a s', supply 0 = some a ∧ ¬remaining < a.cost ∧
      s.select remaining = (s', .ok (some a)) ∧ s'.Supplies (fun i => supply (i + 1)) ∧
      s'.phase = .awaitingOutcome) ∨
    (Misfit (supply 0) remaining ∧
      s.select remaining = ({ s with queue := [], phase := .exhausted }, .ok none)) := by
  rw [select_of_ready hready hr]
  cases h with
  | sequence actions policy queue priced =>
      cases actions with
      | nil =>
          refine Or.inr ⟨nofun, ?_⟩
          simp only [choose, policy, queue, List.map_nil, QueuedStep.frontFitting, unlessStopped_ok]
      | cons a rest =>
          by_cases hover : remaining < a.cost
          · have hfit : (QueuedStep.ofAction a).fit? remaining = none := if_pos hover
            refine Or.inr ⟨?_, ?_⟩
            · intro b hb
              obtain rfl := Option.some.inj hb
              exact hover
            · simp only [choose, policy, queue, List.map_cons, QueuedStep.frontFitting, hfit,
                unlessStopped_ok]
          · have hfit : (QueuedStep.ofAction a).fit? remaining = some (a, none) := if_neg hover
            refine Or.inl ⟨a, ⟨.sequence, .awaitingOutcome, rest.map .ofAction, some (a, none)⟩,
              rfl, hover, ?_, ?_, rfl⟩
            · simp only [choose, policy, queue, List.map_cons, QueuedStep.frontFitting, hfit,
                unlessStopped_ok]
            · exact .sequence rest rfl rfl fun b hb => priced b (List.mem_cons_of_mem _ hb)
  | fixed a policy priced =>
      by_cases hover : remaining < a.cost
      · have hle : ¬a.cost ≤ remaining := fun hle => not_lt_of_le hle hover
        refine Or.inr ⟨?_, ?_⟩
        · intro b hb
          obtain rfl := Option.some.inj hb
          exact hover
        · simp only [choose, policy, if_neg hle, unlessStopped_ok]
      · have hle : a.cost ≤ remaining := (not_lt_iff_le hr priced).mp hover
        refine Or.inl ⟨a, ⟨.fixed a, .awaitingOutcome, s.queue, some (a, none)⟩, rfl, hover, ?_,
          .fixed a rfl priced, rfl⟩
        simp only [choose, policy, if_pos hle, unlessStopped_ok]

end

theorem Supplies.eq_of_kept (h : s.Supplies supply) {index : Option ℕ} {kind : OutcomeKind}
    {policy : Policy α} (hkept : (s.policy.counted index kind).Kept policy) :
    policy = s.policy := by
  cases h with
  | sequence _ hpolicy _ _ =>
      rw [hpolicy] at hkept ⊢
      cases hkept
      rfl
  | fixed a hpolicy _ =>
      rw [hpolicy] at hkept ⊢
      cases hkept
      rfl

/-- Nothing but an answered request takes from the supply, and nothing else ends a session. -/
theorem supplies_step (hinv : s.Inv) (h : s.Supplies supply) :
    ∀ e : Event α, s.answered? e = none →
      (s.step e).Supplies supply ∧ (s.phase ≠ .exhausted → (s.step e).phase ≠ .exhausted)
  | .request (.select remaining), he => by
      rw [step, after]
      rcases select_cases hinv remaining with ⟨_, _, heq⟩ | ⟨_, _, _, _, _, heq⟩ | ⟨_, _, _, heq⟩
      · rw [heq]
        exact ⟨h, id⟩
      · rw [answered?_of_ok heq] at he
        cases he
      · rw [answered?_of_ok heq] at he
        cases he
  | .request (.observe action outcome), _ => by
      rw [step, after]
      rcases observe_cases hinv action outcome with ⟨_, _, heq⟩ |
        ⟨_, _, policy, _, _, hkept, heq⟩
      · rw [heq]
        exact ⟨h, id⟩
      · rw [heq]
        exact ⟨h.of_same (h.eq_of_kept hkept) rfl, fun _ => Phase.noConfusion⟩
  | .features given, _ => by
      rw [step, withFeatures_of_ne_modeling h.ne_modeling]
      exact ⟨h, id⟩

/-! ## Along runs -/

/-- Exhaustion is for good, also among new features. -/
theorem play_of_exhausted (hinv : s.Inv) (hmodel : ∀ m, s.policy ≠ .modeling m)
    (hx : s.phase = .exhausted) (events : List (Event α)) :
    s.play events = s ∧ s.answered events = [] := by
  induction events with
  | nil => exact ⟨rfl, rfl⟩
  | cons e events ih =>
      have hsame : s.step e = s := by
        cases e with
        | request r => exact (after_of_fault hinv (fault_of_exhausted hx r)).1
        | features given => exact withFeatures_of_ne_modeling hmodel given
      rw [play, List.foldl_cons, answered_cons, hsame, answered?_of_exhausted hx e]
      exact ih

variable [Rounded α]

/-- What a request that is answered takes from the supply. -/
theorem answered_step (h : s.Supplies supply) {e : Event α} {x : Answered α}
    (he : s.answered? e = some x) :
    (∃ a, x.given = some a ∧ supply 0 = some a ∧ ¬x.remaining < a.cost ∧
      (s.step e).Supplies (fun i => supply (i + 1)) ∧ (s.step e).phase = .awaitingOutcome) ∨
    (x.given = none ∧ Misfit (supply 0) x.remaining ∧
      s.step e = { s with queue := [], phase := .exhausted }) := by
  cases e with
  | request r =>
      cases r with
      | select remaining =>
          rw [step, after]
          cases hselect : s.select remaining with
          | mk s' result =>
              cases result with
              | error e =>
                  rw [answered?_of_error hselect] at he
                  cases he
              | ok given =>
                  rw [answered?_of_ok hselect] at he
                  obtain rfl := Option.some.inj he
                  obtain ⟨hready, hr⟩ := isBudget_of_select hselect
                  rcases select_of_supplies h hready hr with
                    ⟨a, s'', hfirst, hfits, heq, hnext, hphase⟩ | ⟨hmisfit, heq⟩
                  · obtain ⟨rfl, hgiven⟩ := Prod.mk.inj (hselect.symm.trans heq)
                    exact Or.inl ⟨a, Except.ok.inj hgiven, hfirst, hfits, hnext, hphase⟩
                  · obtain ⟨rfl, hgiven⟩ := Prod.mk.inj (hselect.symm.trans heq)
                    exact Or.inr ⟨Except.ok.inj hgiven, hmisfit, rfl⟩
      | observe action outcome => cases he
  | features given => cases he

/-- The answers along a run go through the supply in its order, and the run is over exactly when
one of them was no action. -/
theorem inOrder_answered (hinv : s.Inv) (h : s.Supplies supply) (hgoes : s.phase ≠ .exhausted)
    (events : List (Event α)) :
    InOrder supply (s.answered events) ∧
      ((s.play events).phase = .exhausted ↔ none ∈ (s.answered events).map Answered.given) := by
  induction events generalizing s supply with
  | nil => exact ⟨.nil supply, iff_of_false hgoes (List.not_mem_nil)⟩
  | cons e events ih =>
      rw [answered_cons]
      cases he : s.answered? e with
      | none =>
          obtain ⟨hnext, hphase⟩ := supplies_step hinv h e he
          exact ih (inv_step hinv e) hnext (hphase hgoes)
      | some x =>
          obtain ⟨remaining, given⟩ := x
          rcases answered_step h he with ⟨a, rfl, hfirst, hfits, hnext, hphase⟩ |
            ⟨rfl, hmisfit, hstep⟩
          · obtain ⟨hrest, hover⟩ := ih (inv_step hinv e) hnext (by rw [hphase]; exact nofun)
            refine ⟨.next hfirst hfits hrest, hover.trans ?_⟩
            simp
          · have hx : (s.step e).phase = .exhausted := by rw [hstep]
            obtain ⟨hplay, hnone⟩ := play_of_exhausted (inv_step hinv e)
              (by rw [hstep]; exact h.ne_modeling) hx events
            rw [hnone]
            refine ⟨.stop hmisfit, iff_of_true ?_ (List.mem_cons_self ..)⟩
            show ((s.step e).play events).phase = .exhausted
            rw [hplay, hx]

/-- There is a supply at any time. -/
theorem supplies_play (hinv : s.Inv) (h : s.Supplies supply) (events : List (Event α)) :
    (s.play events).Inv ∧ ∃ rest, (s.play events).Supplies rest := by
  refine play_induction (P := fun s => ∃ rest, s.Supplies rest) ?_ hinv ⟨supply, h⟩ events
  rintro s hinv ⟨supply, h⟩ e
  cases he : s.answered? e with
  | none => exact ⟨supply, (supplies_step hinv h e he).1⟩
  | some x =>
      rcases answered_step h he with ⟨_, _, _, _, hnext, _⟩ | ⟨_, _, hstep⟩
      · exact ⟨_, hnext⟩
      · rw [hstep]
        exact h.ended

/-! ## The headline theorem -/

/-- The run of a strategy that hands out a supply: it goes through it in its order up to the first
misfit, and never gets stuck before. -/
structure RunsUntilMisfit (supply : ℕ → Option (Action α)) (start : Strategy α)
    (events : List (Event α)) : Prop where
  /-- Up to the first misfit every action is handed out once, in its place. The misfit is answered
  with none, and everything after it is refused. -/
  ends : ∀ n, IsLeast {i | EndsAt supply (start.answered events) i} n →
    (start.answered events).map Answered.given = (List.range n).map supply ++ [none] ∧
      ∀ later r, ((start.play events).play later).fault? r =
        some (.invalidTransition .exhausted r.call)
  /-- As long as there is no misfit, every answer is the action at its place. -/
  goes_on : (∀ i, ¬EndsAt supply (start.answered events) i) →
    (start.answered events).map Answered.given =
        (List.range (start.answered events).length).map supply ∧
      (start.play events).phase ≠ .exhausted
  /-- Every budget is answered when the strategy is ready. -/
  answers : (start.play events).phase = .ready → ∀ remaining, IsBudget remaining →
    ∃ given, ((start.play events).select remaining).2 = .ok given
  /-- The outcome of an action that was handed out makes it ready again. -/
  observes : ∀ remaining s a, (start.play events).select remaining = (s, .ok (some a)) →
    ∀ outcome, ∃ s', s.observe a outcome = (s', .ok ()) ∧ s'.phase = .ready

variable [EqualByValue α]

/-- An action of a supply can be observed, because it equals itself. -/
theorem observe_of_supplies (hinv : s.Inv) (h : s.Supplies supply) {remaining : α}
    {s' : Strategy α} {a : Action α} (hselect : s.select remaining = (s', .ok (some a)))
    (outcome : Outcome) : ∃ s'', s'.observe a outcome = (s'', .ok ()) ∧ s''.phase = .ready := by
  have hpriced : isNaN a.cost = false := by
    obtain ⟨b, hb, hfirst, _⟩ | ⟨hnone, _⟩ := answered_step h (answered?_of_ok hselect)
    · obtain rfl := Option.some.inj hb
      exact h.isNaN_cost hfirst
    · cases hnone
  rcases select_cases hinv remaining with ⟨_, _, heq⟩ | ⟨_, policy, queue, p, hchosen, heq⟩ |
    ⟨_, _, _, heq⟩
  · rw [hselect] at heq
    cases heq
  · have hinv' : s'.Inv := by
      have hsame : (s.select remaining).1 = s' := by rw [hselect]
      exact hsame ▸ inv_select hinv remaining
    obtain ⟨rfl, hgiven⟩ := Prod.mk.inj (hselect.symm.trans heq)
    obtain rfl := Option.some.inj (Except.ok.inj hgiven)
    have hcan : policy.CanCount p.2 outcome.kind := by
      by_contra hfull
      obtain ⟨m, hm, _⟩ := Policy.of_not_canCount hfull
      exact hchosen.kept.ne_modeling h.ne_modeling m hm
    obtain ⟨_, _, hobserve⟩ :=
      observe_of_pending hinv' rfl rfl ((Action.beq_self_iff p.1).mpr hpriced) hcan
    exact ⟨_, hobserve, rfl⟩
  · rw [hselect] at heq
    cases heq

theorem runsUntilMisfit {start : Strategy α} (hfresh : Fresh start) (h : start.Supplies supply)
    (events : List (Event α)) : start.RunsUntilMisfit supply events := by
  have hgoes : start.phase ≠ .exhausted := by
    rw [hfresh.phase]
    exact Phase.noConfusion
  obtain ⟨horder, hover⟩ := inOrder_answered (inv_fresh hfresh) h hgoes events
  obtain ⟨hinv, rest, hrest⟩ := supplies_play (inv_fresh hfresh) h events
  constructor
  · intro n hn
    rcases horder.ends_or_goes_on with ⟨m, hm, hgiven⟩ | ⟨hnone, _⟩
    · obtain rfl := hm.unique hn
      have hx : (start.play events).phase = .exhausted := hover.mpr (by rw [hgiven]; simp)
      refine ⟨hgiven, fun later r => ?_⟩
      rw [(play_of_exhausted hinv hrest.ne_modeling hx later).1]
      exact fault_of_exhausted hx r
    · exact absurd hn.1 (hnone n)
  · intro hnone
    rcases horder.ends_or_goes_on with ⟨m, hm, _⟩ | ⟨_, hgiven⟩
    · exact absurd hm.1 (hnone m)
    · refine ⟨hgiven, fun hx => ?_⟩
      have hmem : none ∈ (start.answered events).map Answered.given := hover.mp hx
      rw [hgiven, List.mem_map] at hmem
      obtain ⟨i, hi, hout⟩ := hmem
      obtain ⟨x, hx⟩ : ∃ x, (start.answered events)[i]? = some x :=
        ⟨_, List.getElem?_eq_getElem (List.mem_range.mp hi)⟩
      refine hnone i ⟨x, hx, ?_⟩
      intro a ha
      rw [hout] at ha
      cases ha
  · intro hready remaining hr
    rcases select_of_supplies hrest hready hr with ⟨a, _, _, _, heq, _, _⟩ | ⟨_, heq⟩
    · exact ⟨some a, by rw [heq]⟩
    · exact ⟨none, by rw [heq]⟩
  · intro remaining s a hselect outcome
    exact observe_of_supplies hinv hrest hselect outcome

/-- **A list is run in its order, and the first misfit is the end.** Whatever a session is asked
between, a sequence hands out the elements of its list in their places, none skipped or repeated,
and a fixed action is handed out every time, up to the first request that finds nothing left or a
cost over its budget. -/
theorem runs_until_misfit (events : List (Event α)) :
    (∀ actions : List (Action α), (∀ a ∈ actions, isNaN a.cost = false) →
      (sequence actions).RunsUntilMisfit (fun i => actions[i]?) events) ∧
    ∀ a : Action α, isNaN a.cost = false → (fixed a).RunsUntilMisfit (fun _ => some a) events := by
  constructor
  · intro actions hpriced
    exact runsUntilMisfit (.sequence actions) (.sequence actions rfl rfl hpriced) events
  · intro a hpriced
    exact runsUntilMisfit (.fixed a) (.fixed a rfl hpriced) events

/-- A list whose last action costs least. -/
def threeActions : List (Action Float) :=
  [⟨"a", 10, "a@10s"⟩, ⟨"b", 50, "b@50s"⟩, ⟨"c", 1, "c@1s"⟩]

/-- Requests of which the second does not reach for the second action, nor for the first once
more; the last is large enough for all. -/
def shortOnSecond : List (Event Float) :=
  [.request (.select 20), .request (.select 20),
    .request (.observe ⟨"a", 10, "a@10s"⟩ .unsolved), .request (.select 5),
    .request (.select 100)]

/-- A list that ends before its cheapest action, and an action that is repeated once. -/
theorem runs_until_misfit_shortOnSecond :
    (((sequence threeActions).answered shortOnSecond).map Answered.given =
        [some ⟨"a", 10, "a@10s"⟩, none] ∧
      ((sequence threeActions).play shortOnSecond).fault? (.select 100) =
        some (.invalidTransition .exhausted .select)) ∧
    ((fixed ⟨"a", 10, "a@10s"⟩).answered shortOnSecond).map Answered.given =
      [some ⟨"a", 10, "a@10s"⟩, none] := by
  have hpriced : ∀ a ∈ threeActions, isNaN a.cost = false := by
    have : threeActions.all (fun a => !isNaN a.cost) = true := by decide +kernel
    intro a ha
    simpa using List.all_eq_true.mp this a ha
  have hlisted : (sequence threeActions).answered shortOnSecond =
      [⟨20, some ⟨"a", 10, "a@10s"⟩⟩, ⟨5, none⟩] := rfl
  have hrepeated : (fixed ⟨"a", 10, "a@10s"⟩).answered shortOnSecond =
      [⟨20, some ⟨"a", 10, "a@10s"⟩⟩, ⟨5, none⟩] := rfl
  have hfits : ¬(20 : Float) < 10 := by decide +kernel
  constructor
  · have hleast : IsLeast {i | EndsAt (fun i => threeActions[i]?)
        ((sequence threeActions).answered shortOnSecond) i} 1 := by
      rw [hlisted]
      exact isLeast_endsAt_one rfl hfits rfl (by decide +kernel)
    obtain ⟨hgiven, hrefused⟩ :=
      ((runs_until_misfit shortOnSecond).1 threeActions hpriced).ends 1 hleast
    exact ⟨hgiven, hrefused [] (.select 100)⟩
  · have hleast : IsLeast {i | EndsAt (fun _ => some ⟨"a", 10, "a@10s"⟩)
        ((fixed ⟨"a", 10, "a@10s"⟩).answered shortOnSecond) i} 1 := by
      rw [hrepeated]
      exact isLeast_endsAt_one rfl hfits rfl (by decide +kernel)
    exact (((runs_until_misfit shortOnSecond).2 _
      (hpriced _ (List.mem_cons_self ..))).ends 1 hleast).1

end Strategy

end SolverPortfolio

import SolverPortfolio.Proofs.Strategy.Beliefs
import SolverPortfolio.Proofs.Strategy.History

/-!
# One fixed plan

A session with the Bellman planner plans once. Until a request to select is answered nothing
happens to it (`play_of_unanswered`); the first one that is answered makes the plan and takes its
answer from it (`exists_select_eq`). From then on the queue is what is left of that plan
(`OnPlan`): a request to select drops steps from its front and takes one, with whatever budget it
comes (`select_cases_of_planned`), and nothing puts a step back (`onPlan_step`, `onPlan_play`).

So what is handed out stands at ascending places of the plan (`Handed.StandsAt`,
`Handed.PlacedBefore`), as it is planned there except at the last place, which runs to the budget
of its request. `follows_first_plan` is the headline.
-/

namespace SolverPortfolio

open Scalar

/-! ## The queue of a plan -/

namespace Bellman

variable {α : Type}

theorem extendLast_cons_cons (step next : PlanStep α) (rest : List (PlanStep α)) :
    extendLast (step :: next :: rest) = step :: extendLast (next :: rest) := rfl

/-- Only the last step is changed. -/
theorem getElem?_extendLast : ∀ (steps : List (PlanStep α)) (k : Nat),
    (extendLast steps)[k]? = steps[k]?.map fun step =>
      if k + 1 = steps.length then { step with runsToRemaining := true } else step
  | [], _ => rfl
  | [_], 0 => rfl
  | [_], _ + 1 => rfl
  | step :: next :: rest, 0 => by
      have hlast : ¬0 + 1 = (step :: next :: rest).length := by
        rw [List.length_cons, List.length_cons]
        omega
      rw [extendLast_cons_cons, List.getElem?_cons_zero, List.getElem?_cons_zero,
        Option.map_some, if_neg hlast]
  | step :: next :: rest, k + 1 => by
      have hlength : (step :: next :: rest).length = (next :: rest).length + 1 := rfl
      rw [extendLast_cons_cons, List.getElem?_cons_succ, List.getElem?_cons_succ,
        getElem?_extendLast (next :: rest) k, hlength]
      simp only [Nat.add_right_cancel_iff]

variable [Scalar α]

/-- What a session has to do by a plan. -/
def queueOf (w : World α) (is : List Nat) : List (QueuedStep α) :=
  (extendLast (is.map w.planStep)).map .ofPlan

theorem getElem?_queueOf (w : World α) (is : List Nat) (k : Nat) :
    (queueOf w is)[k]? =
      is[k]?.map fun i => ⟨w.action i, some i, decide (k + 1 = is.length)⟩ := by
  unfold queueOf
  rw [List.getElem?_map, getElem?_extendLast, List.getElem?_map, List.length_map]
  cases is[k]? with
  | none => rfl
  | some i =>
      by_cases hlast : k + 1 = is.length
      · simp [hlast, World.planStep, QueuedStep.ofPlan]
      · simp [hlast, World.planStep, QueuedStep.ofPlan]

end Bellman

/-! ## Places of a plan -/

section

variable {α : Type} [Scalar α] {w : World α} {is : List Nat}

/-- It is what the plan has at this place: the action of its index, except that the last place
takes all of the budget for its ceiling. -/
structure Handed.StandsAt (w : World α) (is : List Nat) (place : Fin is.length) (h : Handed α) :
    Prop where
  index : h.index = some is[place]
  asPlanned : place + 1 < is.length → h.action = w.action is[place]
  toRemaining : place + 1 = is.length → h.action = (w.action is[place]).withCost h.remaining

theorem Handed.standsAt_of_fit? {passed rest : List (QueuedStep α)} {q : QueuedStep α}
    {remaining : α} {p : Pending α} (hqueue : passed ++ q :: rest = Bellman.queueOf w is)
    (hfit : q.fit? remaining = some p) :
    ∃ h : passed.length < is.length,
      StandsAt w is ⟨passed.length, h⟩ ⟨p.1, p.2, remaining⟩ := by
  have hq : (Bellman.queueOf w is)[passed.length]? = some q := by
    rw [← hqueue, List.getElem?_append_right (Nat.le_refl _), Nat.sub_self,
      List.getElem?_cons_zero]
  rw [Bellman.getElem?_queueOf] at hq
  obtain ⟨i, hi, rfl⟩ := Option.map_eq_some_iff.mp hq
  obtain ⟨hlt, rfl⟩ := List.getElem?_eq_some_iff.mp hi
  obtain ⟨_, rfl⟩ := QueuedStep.of_fit? hfit
  refine ⟨hlt, rfl, fun hbefore => ?_, fun hlast => ?_⟩
  · have hne : ¬passed.length + 1 = is.length := Nat.ne_of_lt hbefore
    simp [hne]
  · have heq : passed.length + 1 = is.length := hlast
    simp [heq]

namespace Handed

/-- What was handed out stands at places before this one, one after the other. -/
def PlacedBefore (w : World α) (is : List Nat) (bound : Nat) (given : List (Handed α)) : Prop :=
  ∃ places : List (Fin is.length), places.Pairwise (· < ·) ∧ (∀ k ∈ places, k < bound) ∧
    List.Forall₂ (StandsAt w is) places given

variable {bound : Nat} {given : List (Handed α)}

theorem PlacedBefore.mono {bound' : Nat} (h : PlacedBefore w is bound given)
    (hle : bound ≤ bound') : PlacedBefore w is bound' given := by
  obtain ⟨places, hsorted, hbound, hstand⟩ := h
  exact ⟨places, hsorted, fun k hk => Nat.lt_of_lt_of_le (hbound k hk) hle, hstand⟩

theorem PlacedBefore.concat {next : Handed α} (h : PlacedBefore w is bound given)
    {hlt : bound < is.length} (hnext : StandsAt w is ⟨bound, hlt⟩ next) :
    PlacedBefore w is (bound + 1) (given ++ [next]) := by
  obtain ⟨places, hsorted, hbound, hstand⟩ := h
  refine ⟨places ++ [⟨bound, hlt⟩], ?_, ?_, List.rel_append hstand (.cons hnext .nil)⟩
  · refine List.pairwise_append.mpr ⟨hsorted, List.pairwise_singleton _ _, ?_⟩
    intro k hk j hj
    obtain rfl := List.mem_singleton.mp hj
    exact hbound k hk
  · intro k hk
    rcases List.mem_append.mp hk with hk | hk
    · exact Nat.lt_succ_of_lt (hbound k hk)
    · obtain rfl := List.mem_singleton.mp hk
      exact Nat.lt_succ_self _

theorem map_index {places : List (Fin is.length)}
    (h : List.Forall₂ (StandsAt w is) places given) :
    given.map index = (places.map fun k => is[k]).map some := by
  induction h with
  | nil => rfl
  | cons hplace _ ih =>
      rw [List.map_cons, hplace.index, ih]
      rfl

theorem PlacedBefore.index_sublist (h : PlacedBefore w is bound given) :
    (given.map index).Sublist (is.map some) := by
  obtain ⟨places, hsorted, _, hstand⟩ := h
  rw [map_index hstand]
  exact (List.map_getElem_sublist hsorted).map some

end Handed

end

namespace Strategy

/-! ## The session on its plan -/

section

variable {α : Type} [Analytic α]

/-- The session with a plan queued. -/
def withPlan (s : Strategy α) (m : Modeling α) (is : List Nat) : Strategy α :=
  { s with policy := .modeling m, queue := Bellman.queueOf m.portfolio.world is }

/-- The session keeps to a plan: its queue is what is left of the plan, and what was handed out
stands at places that are passed. -/
structure OnPlan (w : World α) (is : List Nat) (s : Strategy α) (given : List (Handed α)) :
    Prop where
  keeps : ∃ m, s.policy = .modeling m ∧ m.wantsNewPlan = false
  left : ∃ passed : List (QueuedStep α), passed ++ s.queue = Bellman.queueOf w is ∧
    Handed.PlacedBefore w is passed.length given

theorem onPlan_withPlan (s : Strategy α) {m : Modeling α} (hw : m.wantsNewPlan = false)
    (is : List Nat) : OnPlan m.portfolio.world is (s.withPlan m is) [] where
  keeps := ⟨m, rfl, hw⟩
  left := ⟨[], rfl, [], .nil, nofun, .nil⟩

end

variable {α : Type} [Analytic α] [GammaFunctions α] {s : Strategy α} {w : World α}
  {is : List Nat} {given : List (Handed α)}

theorem choose_of_planned {m : Modeling α} (hm : s.policy = .modeling m)
    (hw : m.wantsNewPlan = false) (remaining : α) :
    s.choose remaining = ({ s with queue := (QueuedStep.nextFitting remaining s.queue).2 },
      .ok (QueuedStep.nextFitting remaining s.queue).1) := by
  simp only [choose, hm, replan, hw, Bool.false_eq_true, if_false]

/-- Whatever the budget, a session with a plan takes a step of its queue, and drops those in
front of it, or is done. -/
theorem select_cases_of_planned {m : Modeling α} (hm : s.policy = .modeling m)
    (hw : m.wantsNewPlan = false) (remaining : α) :
    (∃ e : PortfolioError α, s.select remaining = (s, .error e)) ∨
    (∃ dropped q rest p, s.queue = dropped ++ q :: rest ∧ q.fit? remaining = some p ∧
      s.select remaining = (⟨s.policy, .awaitingOutcome, rest, some p⟩, .ok (some p.1))) ∨
    s.select remaining = (⟨s.policy, .exhausted, [], s.pending⟩, .ok none) := by
  by_cases hready : s.phase = .ready
  · by_cases hr : IsBudget remaining
    · have hchoose := choose_of_planned hm hw remaining
      rw [select_of_ready hready hr]
      rcases QueuedStep.nextFitting_cases remaining s.queue with
        ⟨dropped, q, rest, p, hqueue, hfit, heq⟩ | heq
      · rw [hchoose, heq]
        exact Or.inr (Or.inl ⟨dropped, q, rest, p, hqueue, hfit, rfl⟩)
      · rw [hchoose, heq]
        exact Or.inr (Or.inr rfl)
    · exact Or.inl ⟨_, select_of_not_isBudget hready hr⟩
  · exact Or.inl ⟨_, by rw [select, if_pos hready]⟩

theorem onPlan_select (h : s.OnPlan w is given) (remaining : α) :
    (s.select remaining).1.OnPlan w is
      (given ++ (s.answer? (.request (.select remaining))).toList.reduceOption) := by
  obtain ⟨⟨m, hm, hw⟩, passed, hqueue, hplaced⟩ := h
  have hmore : ∀ steps : List (QueuedStep α),
      Handed.PlacedBefore w is (passed ++ steps).length given := fun steps =>
    hplaced.mono (List.length_append ▸ Nat.le_add_right _ _)
  rcases select_cases_of_planned hm hw remaining with
    ⟨e, heq⟩ | ⟨dropped, q, rest, p, hsplit, hfit, heq⟩ | heq
  · rw [answer?_of_error heq, heq, Option.toList_none, List.reduceOption_nil, List.append_nil]
    exact ⟨⟨m, hm, hw⟩, passed, hqueue, hplaced⟩
  · -- The step that is taken stands behind all that was passed before and is dropped now.
    have hqueue' : (passed ++ dropped) ++ q :: rest = Bellman.queueOf w is := by
      rw [List.append_assoc, ← hsplit, hqueue]
    obtain ⟨hlt, hplace⟩ := Handed.standsAt_of_fit? hqueue' hfit
    rw [answer?_of_some heq rfl, heq]
    refine ⟨⟨m, hm, hw⟩, (passed ++ dropped) ++ [q], ?_, ?_⟩
    · rw [List.append_assoc, List.singleton_append, hqueue']
    · rw [List.length_append, List.length_singleton]
      exact (hmore dropped).concat hplace
  · rw [answer?_of_none heq, heq]
    refine ⟨⟨m, hm, hw⟩, passed ++ s.queue, ?_, ?_⟩
    · rw [List.append_nil, hqueue]
    · show Handed.PlacedBefore w is _ (given ++ [])
      rw [List.append_nil]
      exact hmore s.queue

theorem wantsNewPlan_refresh (m : Modeling α) : m.refresh.1.wantsNewPlan = m.wantsNewPlan := by
  unfold Modeling.refresh
  split
  · rfl
  · split <;> rfl

theorem wantsNewPlan_absorb {m : Modeling α} (hm : s.policy = .modeling m) (index : Option Nat)
    (kind : OutcomeKind) :
    ∃ m', (s.absorb index kind).1.policy = .modeling m' ∧ m'.wantsNewPlan = m.wantsNewPlan := by
  simp only [absorb, hm]
  cases hcount : m.count? index kind with
  | none => exact ⟨m, hm, rfl⟩
  | some counted =>
      refine ⟨counted.refresh.1, rfl, (wantsNewPlan_refresh counted).trans ?_⟩
      cases index with
      | none => rw [← Option.some.inj hcount]
      | some i =>
          obtain ⟨_, _, rfl⟩ := Option.map_eq_some_iff.mp hcount
          rfl

/-- An outcome does not bring the plan into question. -/
theorem wantsNewPlan_observe {m : Modeling α} (hm : s.policy = .modeling m) (action : Action α)
    (outcome : Outcome) :
    ∃ m', (s.observe action outcome).1.policy = .modeling m' ∧
      m'.wantsNewPlan = m.wantsNewPlan := by
  unfold observe
  split
  · exact ⟨m, hm, rfl⟩
  · split
    · exact ⟨m, hm, rfl⟩
    · rename_i index _
      split
      · exact ⟨m, hm, rfl⟩
      · obtain ⟨m', hm', hw'⟩ :=
          wantsNewPlan_absorb (s := { s with pending := none }) hm index outcome.kind
        rcases hab : absorb { s with pending := none } index outcome.kind with ⟨s', e | _⟩
        all_goals rw [hab] at hm'
        · rcases s.unlessStopped_cases (s', (.error e : Decision α Unit)) with heq | heq
          · rw [heq]
            exact ⟨m, hm, rfl⟩
          · rw [heq]
            exact ⟨m', hm', hw'⟩
        · exact ⟨m', hm', hw'⟩

theorem onPlan_observe (hinv : s.Inv) (h : s.OnPlan w is given) (action : Action α)
    (outcome : Outcome) : (s.observe action outcome).1.OnPlan w is given := by
  obtain ⟨m, hm, hw⟩ := h.keeps
  obtain ⟨m', hm', hw'⟩ := wantsNewPlan_observe hm action outcome
  have hqueue : (s.observe action outcome).1.queue = s.queue := by
    rcases observe_cases hinv action outcome with ⟨_, _, heq⟩ | ⟨_, _, _, _, _, _, heq⟩
    · rw [heq]
    · rw [heq]
  refine ⟨⟨m', hm', hw'.trans hw⟩, ?_⟩
  rw [hqueue]
  exact h.left

theorem onPlan_step (hinv : s.Inv) (h : s.OnPlan w is given) :
    ∀ e : Event α, (s.step e).OnPlan w is (given ++ (s.answer? e).toList.reduceOption)
  | .request (.select remaining) => onPlan_select h remaining
  | .request (.observe action outcome) => by
      rw [answer?, Option.toList_none, List.reduceOption_nil, List.append_nil]
      exact onPlan_observe hinv h action outcome
  | .features features => by
      obtain ⟨m, hm, hw⟩ := h.keeps
      rw [answer?, Option.toList_none, List.reduceOption_nil, List.append_nil, step,
        withFeatures_eq hm]
      exact ⟨⟨_, rfl, hw⟩, h.left⟩

theorem onPlan_play (hinv : s.Inv) (h : s.OnPlan w is given) (events : List (Event α)) :
    (s.play events).OnPlan w is (given ++ s.handed events) := by
  induction events generalizing s given with
  | nil =>
      show s.OnPlan w is (given ++ [])
      rw [List.append_nil]
      exact h
  | cons e events ih =>
      rw [handed_cons, ← List.append_assoc]
      exact ih (inv_step hinv e) (onPlan_step hinv h e)

end Strategy

/-! ## The first answer -/

theorem Modeling.wantsNewPlan_of_buildPlan {α : Type} [Analytic α] [GammaFunctions α]
    {m m' : Modeling α} {remaining : α} {steps : List (PlanStep α)}
    (hkind : m'.portfolio.planner.kind = .bellman)
    (h : m.buildPlan remaining = (m', .ok steps)) : m'.wantsNewPlan = false := by
  have hplanned : m'.planned = true := by
    unfold buildPlan at h
    split at h
    · cases h
    · exact (congrArg (fun built => built.1.planned) h).symm
  have hkept : m'.planner.supportsReplanning = false := by
    rw [planner, Planner.ofSettings, hkind]
    rfl
  rw [wantsNewPlan, hplanned, hkept, Bool.and_false]
  rfl

namespace Strategy

variable {α : Type} [Analytic α] [GammaFunctions α] {s : Strategy α}

/-- A session without a plan answers as it does with the plan for this request. -/
theorem exists_select_eq (hinv : s.Inv) {m : Modeling α} (hm : s.policy = .modeling m)
    (hw : m.wantsNewPlan = true) (hkind : m.portfolio.planner.kind = .bellman) {remaining : α}
    (hok : (s.select remaining).2.isOk = true) :
    ∃ t is m', m.predicted = .ok t ∧
      Bellman.planIndices m.portfolio.world t.successRates remaining
        m.portfolio.planner.discount m.portfolio.planner.horizon = .ok is ∧
      Modeling.SameView m m' ∧ m'.wantsNewPlan = false ∧ (s.withPlan m' is).Inv ∧
      s.select remaining = (s.withPlan m' is).select remaining := by
  by_cases hready : s.phase = .ready
  · by_cases hr : IsBudget remaining
    · by_cases hk : m.Knows
      · obtain ⟨t, m', ht, hbuild, hview, hco, ⟨_, steps, hsteps⟩ | ⟨_, hstop⟩⟩ :=
          Modeling.buildPlan_of_knows (hinv.coherent m hm) hk hr
        case inr =>
          rw [hstop] at hbuild
          have hchoose : s.choose remaining =
              ({ s with policy := .modeling m' }, .error .overflow) := by
            simp only [choose, hm, replan, hw, if_true, hbuild]
          rw [select_of_ready hready hr, hchoose] at hok
          cases hok
        rw [hsteps] at hbuild
        have hkind' : m'.portfolio.planner.kind = .bellman := hview.portfolio.symm ▸ hkind
        have hw' : m'.wantsNewPlan = false := Modeling.wantsNewPlan_of_buildPlan hkind' hbuild
        rw [Modeling.planner, Planner.ofSettings, hkind] at hsteps
        obtain ⟨is, his, rfl⟩ := Decision.map_eq_ok hsteps
        have hready' : (s.withPlan m' is).phase = .ready := hready
        refine ⟨t, is, m', ht, his, hview, hw', ?_, ?_⟩
        · exact
            { pending_isSome := hinv.pending_isSome
              queue_nil := fun he => by
                rw [hready'] at he
                cases he
              coherent := fun _ h => Policy.modeling.inj h ▸ hco
              knows := fun _ h _ => Policy.modeling.inj h ▸ hview.knows hk }
        · have hplanned : (s.withPlan m' is).choose remaining = _ :=
            choose_of_planned rfl hw' remaining
          have hchoose : s.choose remaining = (s.withPlan m' is).choose remaining := by
            rw [hplanned, withPlan, Bellman.queueOf, hview.portfolio]
            simp only [choose, hm, replan, hw, if_true, hbuild]
          rw [select_of_ready hready hr, select_of_ready hready' hr, hchoose, hplanned]
          cases (QueuedStep.nextFitting remaining (s.withPlan m' is).queue).1 <;> rfl
      · rw [select_of_not_knows hinv hready hm hk hr] at hok
        cases hok
    · rw [select_of_not_isBudget hready hr] at hok
      cases hok
  · rw [select, if_pos hready] at hok
    cases hok

section

variable {p : Portfolio α} {taskId : String} {features : Option (FeatureVector α)}

/-- A session that has not answered a request to select is as it was at its start, with the
features it was given last. -/
theorem play_of_unanswered (checked : p.check = .ok ()) {events : List (Event α)}
    (h : ((modeling p taskId).withFeatures features).answers events = []) :
    ((modeling p taskId).withFeatures features).play events =
      (modeling p taskId).withFeatures (currentFeatures features events) := by
  induction events generalizing features with
  | nil => rfl
  | cons e events ih =>
      rw [answers, List.append_eq_nil_iff, Option.toList_eq_nil_iff] at h
      obtain ⟨hhead, htail⟩ := h
      cases e with
      | request r =>
          have hinv := inv_fresh (.modeling p checked taskId features)
          have hsame := after_of_unanswered hinv rfl r hhead
          rw [step, hsame] at htail
          rw [play, List.foldl_cons, step, hsame]
          exact ih htail
      | features given => exact ih htail

/-- The first request that is answered, and whatever follows it. -/
theorem onPlan_of_fresh (checked : p.check = .ok ()) (hkind : p.planner.kind = .bellman)
    (hs : s = (modeling p taskId).withFeatures features) {remaining : α}
    (hok : (s.select remaining).2.isOk = true) (events : List (Event α)) :
    ∃ t is, p.model.predict taskId features (Counts.fresh p.world.nactions) = .ok t ∧
      Bellman.planIndices p.world t.successRates remaining p.planner.discount p.planner.horizon =
        .ok is ∧
      OnPlan p.world is (s.play (.request (.select remaining) :: events))
        (s.handed (.request (.select remaining) :: events)) := by
  subst hs
  have hinv := inv_fresh (.modeling p checked taskId features)
  obtain ⟨t, is, m, ht, his, hview, hw, hinv', hselect⟩ :=
    exists_select_eq hinv rfl rfl hkind hok
  refine ⟨t, is, ht, his, ?_⟩
  have hworld : m.portfolio.world = p.world := congrArg Portfolio.world hview.portfolio
  have hplan := onPlan_play hinv' (onPlan_withPlan _ hw is) (.request (.select remaining) :: events)
  rw [hworld, List.nil_append, handed_cons, play, List.foldl_cons, step, after, answer?,
    ← hselect] at hplan
  rw [handed_cons, play, List.foldl_cons, step, after, answer?]
  exact hplan

end

/-! ## The headline theorem -/

/-- A run follows one plan of its portfolio. -/
structure FollowsPlan (p : Portfolio α) (is : List Nat) (start : Strategy α)
    (events : List (Event α)) : Prop where
  /-- There is a plan, and no other one is wanted. -/
  settled : ∃ m, (start.play events).modelingState? = some m ∧ m.wantsNewPlan = false
  /-- What is handed out stands at places of the plan, one after the other. -/
  places : ∃ places : List (Fin is.length), places.Pairwise (· < ·) ∧
    List.Forall₂ (Handed.StandsAt p.world is) places (start.handed events)
  subsequence : ((start.handed events).map Handed.index).Sublist (is.map some)
  atMost : (start.handed events).length ≤ p.planner.horizon
  /-- What is handed out is taken in under its index, but for an outcome that is awaited. -/
  recorded : (start.handed events).map Handed.index =
    (start.log events).map Prod.fst ++ (start.play events).indexAwaited
  counted : ∀ (i : Nat) (k : OutcomeKind),
    (start.play events).history?.map (fun c => (c.get i k.index).toNat) =
      some ((start.log events).count (some i, k))

/-- **One fixed plan.** A session with the Bellman planner over a checked portfolio is as it was
at its start, without a plan, until a request to select is answered. The first one that is makes
a plan for its budget and for the features of the time, and whatever follows, with whatever
budgets, follows that plan: no other one is made; what is handed out are its actions in their
order, none twice, the last of them with all of the remaining budget for a ceiling; there are no
more of them than the horizon; and their outcomes count under their indices in the plan. -/
theorem follows_first_plan {p : Portfolio α} (checked : p.check = .ok ())
    (hkind : p.planner.kind = .bellman) (taskId : String) :
    let start : Strategy α := modeling p taskId
    (∀ events : List (Event α), start.answers events = [] →
      start.play events = start.withFeatures (currentFeatures none events)) ∧
    ∀ (before after : List (Event α)) (remaining : α), start.answers before = [] →
      ((start.play before).select remaining).2.isOk = true →
      ∃ t is, p.model.predict taskId (currentFeatures none before)
          (Counts.fresh p.world.nactions) = .ok t ∧
        Bellman.planIndices p.world t.successRates remaining p.planner.discount
          p.planner.horizon = .ok is ∧
        start.FollowsPlan p is (before ++ .request (.select remaining) :: after) := by
  intro start
  refine ⟨fun events h => play_of_unanswered checked h, ?_⟩
  intro before after remaining hbefore hok
  have hinv : start.Inv := inv_fresh (.modeling p checked taskId none)
  have hplay : start.play before = start.withFeatures (currentFeatures none before) :=
    play_of_unanswered checked hbefore
  obtain ⟨t, is, ht, his, hplan⟩ := onPlan_of_fresh checked hkind hplay hok after
  refine ⟨t, is, ht, his, ?_⟩
  generalize hevents : before ++ .request (.select remaining) :: after = events
  have hrun : start.play events =
      (start.play before).play (.request (.select remaining) :: after) := by
    rw [← hevents]
    exact List.foldl_append
  have hhanded : start.handed events =
      (start.play before).handed (.request (.select remaining) :: after) := by
    have hnone : start.handed before = [] := by
      rw [handed, hbefore]
      rfl
    rw [← hevents, handed_append, hnone, List.nil_append]
  rw [← hrun, ← hhanded] at hplan
  obtain ⟨m, hm, hw⟩ := hplan.keeps
  obtain ⟨_, _, hplaced⟩ := hplan.left
  have hsublist := hplaced.index_sublist
  obtain ⟨places, hsorted, _, hstand⟩ := hplaced
  obtain ⟨_, m', hm', _, hcurrent⟩ := current_play checked taskId events
  have hhorizon : is.length ≤ p.planner.horizon := by
    obtain ⟨-, -, rfl⟩ := Bellman.of_planIndices his
    exact (Bellman.follow_rows_admits p.planner.horizon (Nat.zero_le _)).length
  have hlength := hsublist.length_le
  rw [List.length_map, List.length_map] at hlength
  exact
    { settled := ⟨m, by rw [modelingState?, hm], hw⟩
      places := ⟨places, hsorted, hstand⟩
      subsequence := hsublist
      atMost := hlength.trans hhorizon
      recorded := indices_play hinv events
      counted := fun i k => by
        rw [history?, modelingState?, hm']
        exact congrArg some (hcurrent.counts i k) }

/-- A ready session answers every budget that its planner has tables for, if its model knows the
task. -/
theorem isOk_select (hinv : s.Inv) (hready : s.phase = .ready) {remaining : α}
    (hr : IsBudget remaining) (hk : ∀ m, s.policy = .modeling m →
      m.Knows ∧ m.planner.hasTables m.portfolio.world remaining = true) :
    (s.select remaining).2.isOk = true := by
  rcases select_cases hinv remaining with ⟨_, hrefused, heq⟩ | ⟨_, _, _, _, _, heq⟩ |
    ⟨_, _, _, heq⟩
  · cases hrefused with
    | transition hphase => exact absurd hready hphase
    | budget hbudget => exact absurd hr hbudget
    | task hm hunknown => exact absurd (hk _ hm).1 hunknown
    | stopped hstops =>
        cases hstops with
        | plan hm _ htables => cases (hk _ hm).2.symm.trans htables
  · rw [heq]
    rfl
  · rw [heq]
    rfl

/-- The portfolio of a long run, with a plan of at most four actions. -/
def fourAhead : Portfolio Float :=
  { longRunner with planner := ⟨.bellman, true, 0, 4⟩ }

/-- A session that was told an outcome too early, and that is asked for more than is left. -/
theorem follows_first_plan_fourAhead :
    let start := modeling fourAhead "t"
    let before : List (Event Float) :=
      [.request (.observe (fourAhead.world.action 0) .unsolved), .features (some .empty)]
    let after : List (Event Float) :=
      [.request (.observe (fourAhead.world.action 1) .negative), .request (.select 1000)]
    fourAhead.check = .ok () ∧ start.answers before = [] ∧
      ((start.play before).select 20).2.isOk = true ∧
      ∃ is, start.FollowsPlan fourAhead is (before ++ .request (.select 20) :: after) := by
  intro start before after
  have hchecked : fourAhead.check = .ok () := rfl
  have hbefore : start.answers before = [] := rfl
  have hplay : start.play before = start.withFeatures (some .empty) :=
    play_of_unanswered hchecked hbefore
  have hok : ((start.play before).select 20).2.isOk = true := by
    rw [hplay]
    refine isOk_select (inv_fresh (.modeling fourAhead hchecked "t" _)) rfl rfl ?_
    intro m hm
    obtain rfl := Policy.modeling.inj hm
    exact ⟨trivial, by decide +kernel⟩
  obtain ⟨_, is, _, _, hfollows⟩ :=
    (follows_first_plan hchecked rfl "t").2 before after 20 hbefore hok
  exact ⟨hchecked, hbefore, hok, is, hfollows⟩

end Strategy

end SolverPortfolio

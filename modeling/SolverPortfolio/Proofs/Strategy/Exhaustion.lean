import SolverPortfolio.Proofs.Planner.Knapsack
import SolverPortfolio.Proofs.Portfolio.Rates
import SolverPortfolio.Proofs.Strategy.Selection

/-!
# When a session is exhausted

A session that replans with the knapsack planner should end exactly when no action of
the world fits into the budget. Three tests have to agree for that: the number of slots
in the budget, the plan that fills them, and the comparison of each planned ceiling with
the budget.

They agree except in two places (`select_eq_none_iff`). An infinite budget has no slots.
And a finite one just below a multiple of the step is padded to one slot too many; if
the plan makes a single run of all the slots, its ceiling is over the budget
(`Modeling.Overshoots`). A plan of two runs or more always has one that fits, since one
of them takes at most half of the slots.

A budget of more slots than a table can have cells stops the library before it plans; the
lowest rung fits into such a budget (`World.someFits_of_not_hasTables`).
-/

namespace SolverPortfolio

open Scalar Rounded

/-! ## What fits -/

/-- An infinite budget has no slots. -/
theorem Ladder.slotsWithin_of_infinite {α : Type} [Scalar α] {l : Ladder α} {remaining : α}
    (h : isFinite remaining = false) : l.slotsWithin remaining = 0 :=
  if_neg (by rw [isPositiveFinite, h]; exact Bool.false_ne_true)

namespace World

variable {α : Type} [Scalar α]

/-- Some action of the world has a ceiling within the budget. -/
def SomeFits (w : World α) (remaining : α) : Prop :=
  ∃ a < w.nactions, (w.action a).cost ≤ remaining

variable [Rounded α]

/-- A finite budget without slots has no room for any action. -/
theorem not_someFits {w : World α} (hw : w.check = .ok ()) {remaining : α}
    (hfinite : isFinite remaining = true) (hslots : w.ladder.slotsWithin remaining = 0) :
    ¬w.SomeFits remaining := by
  rintro ⟨a, _, hfits⟩
  obtain ⟨step, hpos, hstep⟩ := exists_step_value hw
  obtain ⟨x, hx⟩ := isFinite_iff.mp hfinite
  have hle := Exact.le_trans (Ladder.step_le_budget hstep hpos (w.rungOf a))
    ((le_iff _ _).mp hfits)
  rw [hx, Exact.real_le] at hle
  have := Ladder.one_le_slotsWithin hstep hpos hx hle
  omega

theorem someFits_of_not_hasTables {w : World α} (hw : w.check = .ok ()) {remaining : α}
    (htables : w.hasTables remaining = false) : w.SomeFits remaining := by
  obtain ⟨step, hpos, hstep⟩ := exists_step_value hw
  have hword : Scalar.wordBound = 2 ^ 64 := rfl
  have hmany : ¬w.ladder.slotsWithin remaining + 1 < Scalar.wordBound := fun hlt => by
    rw [hasTables_iff.mpr hlt] at htables
    cases htables
  refine ⟨w.index 0 0, index_lt_nactions (nsolvers_pos hw) (nbudgets_pos hw), ?_⟩
  rw [cost_action, rungOf_index (nbudgets_pos hw)]
  exact Ladder.budget_le_of_half hstep hpos (by omega)

end World

/-! ## Taking a step from the queue -/

namespace QueuedStep

variable {α : Type} [Scalar α] {remaining : α}

theorem nextFitting_plan_eq_none_iff (w : World α) (plan : List ℕ) :
    (nextFitting remaining ((plan.map w.planStep).map .ofPlan)).1 = none ↔
      ∀ a ∈ plan, remaining < (w.action a).cost := by
  induction plan with
  | nil => simp [nextFitting]
  | cons a rest ih =>
      by_cases hover : remaining < (w.action a).cost
      · have hfit : (QueuedStep.ofPlan (w.planStep a)).fit? remaining = none := if_pos hover
        rw [List.map_cons, List.map_cons, nextFitting, hfit, List.forall_mem_cons]
        exact ih.trans (and_iff_right hover).symm
      · have hfit : (QueuedStep.ofPlan (w.planStep a)).fit? remaining =
            some (w.action a, some a) := if_neg hover
        rw [List.map_cons, List.map_cons, nextFitting, hfit, List.forall_mem_cons]
        exact iff_of_false (Option.some_ne_none _) fun h => hover h.1

/-- A step of a knapsack plan is run as it is planned. -/
theorem nextFitting_planStep {w : World α} {plan : List ℕ} {next : Pending α}
    (h : (nextFitting remaining ((plan.map w.planStep).map .ofPlan)).1 = some next) :
    ∃ a ∈ plan, next.1 = w.action a ∧ ¬remaining < (w.action a).cost := by
  obtain ⟨q, hq, hfit⟩ := (takenFrom_nextFitting remaining _).taken next h
  obtain ⟨st, hst, rfl⟩ := List.mem_map.mp hq
  obtain ⟨a, ha, rfl⟩ := List.mem_map.mp hst
  obtain ⟨hfits, rfl⟩ := of_fit? hfit
  exact ⟨a, ha, rfl, hfits⟩

end QueuedStep

/-! ## Sessions that replan -/

/-- The plan makes a single run of all the slots, and its ceiling is over the budget. -/
def Modeling.Overshoots {α : Type} [Analytic α] [GammaFunctions α] (m : Modeling α)
    (remaining : α) : Prop :=
  ∃ t s a, m.predicted = .ok t ∧
    Knapsack.solve m.portfolio.world t.successRates remaining = .ok s ∧ s.plan = [a] ∧
    m.portfolio.world.slotUse a = m.portfolio.world.ladder.slotsWithin remaining ∧
    remaining < (m.portfolio.world.action a).cost

theorem Modeling.planner_of_replan {α : Type} [Analytic α] {m : Modeling α}
    (hkind : m.portfolio.planner.kind = .knapsack) (hreplan : m.portfolio.planner.replan = true) :
    m.planner = .knapsack ∧ m.wantsNewPlan = true := by
  have hplanner : m.planner = .knapsack := by rw [planner, Planner.ofSettings, hkind]
  refine ⟨hplanner, ?_⟩
  rw [wantsNewPlan, hreplan, hplanner]
  exact Bool.or_true _

namespace Strategy

variable {α : Type} [Analytic α] [GammaFunctions α]

variable {p : Portfolio α} {taskId : String} {features : Option (FeatureVector α)}

section

variable {s : Strategy α} (hinv : s.Inv) (hready : s.phase = .ready) {m : Modeling α}
  (hm : s.policy = .modeling m) (hkind : m.portfolio.planner.kind = .knapsack)
  (hreplan : m.portfolio.planner.replan = true) (hknows : m.Knows) {remaining : α}
  (hr : IsBudget remaining)

include hinv hready hm hkind hreplan hknows hr

/-- With a knapsack plan made anew, a request to select takes the plan's first step that
fits. -/
theorem select_of_replan (htables : m.portfolio.world.hasTables remaining = true) :
    ∃ t sol, m.predicted = .ok t ∧
      Knapsack.solve m.portfolio.world t.successRates remaining = .ok sol ∧
      ∃ next rest, QueuedStep.nextFitting remaining
          ((sol.plan.map m.portfolio.world.planStep).map .ofPlan) = (next, rest) ∧
        (s.select remaining).2 = .ok (next.map Prod.fst) ∧
        (s.select remaining).1.phase = if next.isSome then .awaitingOutcome else .exhausted := by
  obtain ⟨hplanner, hwants⟩ := Modeling.planner_of_replan hkind hreplan
  obtain ⟨t, m', ht, hbuild, _, _, ⟨_, steps, hsteps⟩ | ⟨hnone, _⟩⟩ :=
    Modeling.buildPlan_of_knows (hinv.coherent m hm) hknows hr
  case inr =>
    rw [hplanner] at hnone
    cases hnone.symm.trans htables
  rw [hsteps] at hbuild
  rw [hplanner] at hsteps
  obtain ⟨sol, hsol, rfl⟩ := Decision.map_eq_ok hsteps
  obtain ⟨next, rest, hnext⟩ : ∃ next rest, QueuedStep.nextFitting remaining
      ((sol.plan.map m.portfolio.world.planStep).map .ofPlan) = (next, rest) := ⟨_, _, rfl⟩
  have hchoose : s.choose remaining =
      ({ s with policy := .modeling m', queue := rest }, .ok next) := by
    simp only [choose, hm, replan, hwants, if_true, hbuild, hnext]
  refine ⟨t, sol, ht, hsol, next, rest, hnext, ?_⟩
  rw [select_of_ready hready hr, hchoose]
  cases next with
  | none => exact ⟨rfl, rfl⟩
  | some _ => exact ⟨rfl, rfl⟩

/-- Without a table for the budget the library stops, and the session stays as it was. -/
theorem select_of_not_hasTables (htables : m.portfolio.world.hasTables remaining = false) :
    s.select remaining = (s, .error .overflow) := by
  obtain ⟨hplanner, hwants⟩ := Modeling.planner_of_replan hkind hreplan
  obtain ⟨t, m', _, hbuild, _, _, ⟨hsome, _⟩ | ⟨_, hstop⟩⟩ :=
    Modeling.buildPlan_of_knows (hinv.coherent m hm) hknows hr
  case inl =>
    rw [hplanner] at hsome
    cases hsome.symm.trans htables
  rw [hstop] at hbuild
  have hchoose : s.choose remaining = ({ s with policy := .modeling m' }, .error .overflow) := by
    simp only [choose, hm, replan, hwants, if_true, hbuild]
  rw [select_of_ready hready hr, hchoose]
  rfl

end

/-! ## The headline theorem -/

variable [Rounded α]

/-- What a knapsack plan without a step that fits means. -/
theorem plan_misses_iff {m : Modeling α} {t : Prediction α} {sol : Knapsack.Solution α}
    (hco : m.Coherent) (ht : m.predicted = .ok t) {remaining : α} (hr : IsBudget remaining)
    (hsol : Knapsack.solve m.portfolio.world t.successRates remaining = .ok sol) :
    (∀ a ∈ sol.plan, remaining < (m.portfolio.world.action a).cost) ↔
      ¬m.portfolio.world.SomeFits remaining ∨ isFinite remaining = false ∨
        m.Overshoots remaining := by
  have hw : m.portfolio.world.check = .ok () := Portfolio.world_check hco.checked
  have hlen : t.successRates.length = m.portfolio.world.nactions := by
    obtain ⟨t', ht', hn⟩ :=
      hco.predicted_of_knows (Modeling.knows_of_predicted ht) hco.readable
    obtain rfl := Except.ok.inj (ht.symm.trans ht')
    rw [Prediction.successRates, List.length_map, List.length_range, hn]
  obtain ⟨sol', hsol', hmem, huse⟩ := Knapsack.solve_uses_slots hw hlen
    (Portfolio.isProbability_successRate hco.checked ht) hr (Knapsack.of_solve hsol).2.1
  obtain rfl := Except.ok.inj (hsol.symm.trans hsol')
  constructor
  · intro hover
    rcases Knapsack.plan_cases huse with ⟨_, hslots⟩ | ⟨a, hplan, hslots⟩ | ⟨a, ha, hhalf⟩
    · cases hfinite : isFinite remaining with
      | true => exact Or.inl (World.not_someFits hw hfinite hslots)
      | false => exact Or.inr (Or.inl rfl)
    · exact Or.inr (Or.inr ⟨t, sol, a, ht, hsol, hplan, hslots, hover a (by simp [hplan])⟩)
    · obtain ⟨step, hpos, hstep⟩ := World.exists_step_value hw
      exact absurd (hover a ha)
        ((World.not_lt_cost_iff hw hr a).mpr (Ladder.budget_le_of_half hstep hpos hhalf))
  · rintro (hnone | hinfinite | ⟨t', sol', b, ht', hsol', hplan, _, hover⟩) a ha
    · by_contra hlt
      exact hnone ⟨a, hmem a ha, (World.not_lt_cost_iff hw hr a).mp hlt⟩
    · have hslots := Ladder.slotsWithin_of_infinite (l := m.portfolio.world.ladder) hinfinite
      have hle := List.single_le_sum (fun _ _ => Nat.zero_le _) _
        (List.mem_map_of_mem (f := m.portfolio.world.slotUse) ha)
      rw [huse, hslots, World.slotUse] at hle
      omega
    · obtain rfl := Except.ok.inj (ht.symm.trans ht')
      obtain rfl := Except.ok.inj (hsol.symm.trans hsol')
      rw [hplan] at ha
      obtain rfl := List.mem_singleton.mp ha
      exact hover

/-- **When a session is exhausted.** A ready session that replans with the knapsack
planner finds nothing to run exactly when no action fits, or the budget is infinite, or
it falls short of the single run that the plan makes of all its slots. Otherwise it
runs an action that fits; only where the planner has no table for the budget the library
stops, and the session stays ready. -/
theorem select_eq_none_iff (checked : p.check = .ok ()) (hkind : p.planner.kind = .knapsack)
    (hreplan : p.planner.replan = true) {known : Prediction α}
    (hknown : p.model.predict taskId features (Counts.fresh p.world.nactions) = .ok known)
    (requests : List (Request α)) {s : Strategy α}
    (hs : s = ((Strategy.modeling p taskId).withFeatures features).run requests)
    (hready : s.phase = .ready) {remaining : α} (hr : IsBudget remaining) :
    ∃ m, s.modelingState? = some m ∧ m.portfolio = p ∧
      ((s.select remaining).2 = .ok none ↔
        ¬p.world.SomeFits remaining ∨ isFinite remaining = false ∨ m.Overshoots remaining) ∧
      (p.world.hasTables remaining = true ∧
          ((s.select remaining).2 = .ok none ∧ (s.select remaining).1.phase = .exhausted ∨
            ∃ a : Action α, (s.select remaining).2 = .ok (some a) ∧ a.cost ≤ remaining ∧
              (s.select remaining).1.phase = .awaitingOutcome) ∨
        p.world.hasTables remaining = false ∧ s.select remaining = (s, .error .overflow)) := by
  have hfresh : Fresh ((Strategy.modeling p taskId).withFeatures features) :=
    .modeling p checked taskId features
  have hinv : s.Inv := hs ▸ inv_run (inv_fresh hfresh) requests
  obtain ⟨m, hm, rfl, rfl, rfl⟩ : s.Serves p taskId features :=
    hs ▸ Serves.run ⟨_, rfl, rfl, rfl, rfl⟩ (inv_fresh hfresh) requests
  have hco : m.Coherent := hinv.coherent m hm
  have hknows : m.Knows := by
    by_contra hnot
    rw [(Model.predict_of_not_knows hnot _ _).1] at hknown
    cases hknown
  have hw : m.portfolio.world.check = .ok () := Portfolio.world_check checked
  refine ⟨m, by rw [modelingState?, hm], rfl, ?_⟩
  cases htables : m.portfolio.world.hasTables remaining with
  | false =>
      have hstop := select_of_not_hasTables hinv hready hm hkind hreplan hknows hr htables
      refine ⟨iff_of_false (by rw [hstop]; exact nofun) ?_, Or.inr ⟨rfl, hstop⟩⟩
      rintro (hnone | hinfinite | ⟨_, _, _, _, hsol, _⟩)
      · exact hnone (World.someFits_of_not_hasTables hw htables)
      · rw [World.hasTables, Ladder.slotsWithin_of_infinite hinfinite] at htables
        cases htables
      · cases (Knapsack.of_solve hsol).2.1.symm.trans htables
  | true =>
      obtain ⟨t, sol, ht, hsol, next, rest, hnext, hresult, hphase⟩ :=
        select_of_replan hinv hready hm hkind hreplan hknows hr htables
      refine ⟨?_, Or.inl ⟨rfl, ?_⟩⟩
      · have hmisses : next = none ↔
            ∀ a ∈ sol.plan, remaining < (m.portfolio.world.action a).cost := by
          rw [← QueuedStep.nextFitting_plan_eq_none_iff, hnext]
        rw [← plan_misses_iff hco ht hr hsol, ← hmisses, hresult]
        cases next with
        | none => exact iff_of_true rfl rfl
        | some _ => exact iff_of_false (fun h => by cases h) (Option.some_ne_none _)
      · cases next with
        | none => exact Or.inl ⟨hresult, hphase⟩
        | some p =>
            obtain ⟨a, _, hact, hfits⟩ :=
              QueuedStep.nextFitting_planStep (congrArg Prod.fst hnext)
            refine Or.inr ⟨p.1, hresult, ?_, hphase⟩
            rw [hact]
            exact (World.not_lt_cost_iff hw hr a).mp hfits

/-- One long run is likelier to succeed than two short ones. -/
def longRun : Prediction Float :=
  ⟨2, 3, [0.5, 0.25, 0.25, 0.125, 0.625, 0.25]⟩

/-- A session whose best use of two slots is one long run. -/
def longRunner : Portfolio Float :=
  ⟨⟨["a"], ⟨10, 2⟩⟩, .multinomial longRun, ⟨.knapsack, true, 0, 4⟩⟩

theorem longRunner_overshoots :
    (Modeling.start longRunner "t").Overshoots 19.999999999 := by
  have hslots : longRunner.world.ladder.slotsWithin 19.999999999 = 2 := by decide +kernel
  have hplan : Knapsack.backtrack longRunner.world
      (Knapsack.table longRunner.world longRun.successRates 2) = [1] := by
    decide +kernel
  have htables : longRunner.world.hasTables 19.999999999 = true := by
    rw [World.hasTables, hslots]
    rfl
  have hinputs : longRunner.world.checkInputs longRun.successRates 19.999999999 = .ok () :=
    World.checkInputs_eq_ok rfl rfl
  have hsolve := Knapsack.solve_eq hinputs
  rw [if_pos htables] at hsolve
  refine ⟨longRun, _, 1, rfl, hsolve, ?_, hslots.symm, ?_⟩
  · show Knapsack.byDensity longRunner.world longRun.successRates
      (Knapsack.backtrack longRunner.world (Knapsack.table longRunner.world longRun.successRates
        (longRunner.world.ladder.slotsWithin 19.999999999))) = [1]
    rw [hslots, hplan]
    exact List.mergeSort_singleton 1
  · decide +kernel

theorem select_eq_none_iff_longRunner :
    longRunner.check = .ok () ∧ longRunner.world.SomeFits 19.999999999 ∧
      (((Strategy.modeling longRunner "t").withFeatures none).select 19.999999999).2 =
        .ok none := by
  have hr : IsBudget (19.999999999 : Float) := rfl
  have hknown : longRunner.model.predict "t" none (Counts.fresh longRunner.world.nactions) =
      .ok longRun := rfl
  obtain ⟨m, hm, _, hiff, _⟩ := select_eq_none_iff rfl rfl rfl hknown [] rfl rfl hr
  obtain rfl := Option.some.inj hm
  refine ⟨rfl, ⟨0, by decide, ?_⟩, hiff.mpr (Or.inr (Or.inr ?_))⟩
  · decide +kernel
  · exact longRunner_overshoots

end Strategy

end SolverPortfolio

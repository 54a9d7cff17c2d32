import SolverPortfolio.Proofs.Strategy.Exhaustion
import SolverPortfolio.Proofs.Strategy.History

/-!
# Beliefs of a session

What a modeling session believes is never older than what it has seen: its history is the
tally of the outcomes it took in, and its prediction and posterior, where it keeps them,
are those for that history and the features it was given last (`Modeling.Current`).

A session that plans anew with the knapsack planner therefore answers by what it has seen
and nothing else (`select_eq_of_view`). Neither the order of the outcomes nor the budgets
of earlier requests can be told from its answers: `current_and_path_independent` is the
headline.
-/

namespace SolverPortfolio

open Scalar

variable {α : Type} [Analytic α] [GammaFunctions α]

theorem Modeling.SameView.predicted {m m' : Modeling α} (h : SameView m m') :
    m'.predicted = m.predicted := by
  rw [Modeling.predicted, Modeling.predicted, h.portfolio, h.taskId, h.features, h.history]

/-- The session decides by this portfolio, task and features, and what it knows and has
worked out is what follows from the outcomes seen. -/
structure Modeling.Current (m : Modeling α) (p : Portfolio α) (task : String)
    (given : Option (FeatureVector α)) (seen : List Seen) : Prop where
  portfolio : m.portfolio = p
  taskId : m.taskId = task
  features : m.features = given
  /-- No outcome goes uncounted. -/
  known : ∀ e ∈ seen, ∃ i < p.world.nactions, e.1 = some i
  counts : ∀ (i : Nat) (k : OutcomeKind),
    (m.history.get i k.index).toNat = seen.count (some i, k)
  prediction : ∀ t, m.prediction = some t →
    p.model.predict task given m.history = .ok t
  posterior : ∀ v, m.posterior = some v → p.model.posterior m.history = .ok (some v)

namespace Strategy

theorem select_of_not_knows {s : Strategy α} (hinv : s.Inv) (hready : s.phase = .ready)
    {m : Modeling α} (hm : s.policy = .modeling m) (hk : ¬m.Knows) {remaining : α}
    (hr : IsBudget remaining) :
    s.select remaining = (s, .error (.invalidModel (.unknownTask m.taskId))) := by
  have hco : m.Coherent := hinv.coherent m hm
  have hwants : m.wantsNewPlan = true := by
    by_contra hw
    exact hk (knows_of_not_wantsNewPlan hco hw)
  have hsame : { s with policy := .modeling m } = s := by rw [← hm]
  have hchoose : s.choose remaining = (s, .error (.invalidModel (.unknownTask m.taskId))) := by
    simp only [choose, hm, replan, hwants, if_true, Modeling.buildPlan_of_not_knows hco hk, hsame]
  rw [select_of_ready hready hr, hchoose]
  rfl

/-- Sessions that have seen the same and plan anew give the same answer, whatever they
have planned before. -/
theorem select_eq_of_view {s s' : Strategy α} (hinv : s.Inv) (hinv' : s'.Inv)
    (hready : s.phase = .ready) (hready' : s'.phase = .ready) {m m' : Modeling α}
    (hm : s.policy = .modeling m) (hm' : s'.policy = .modeling m')
    (hview : Modeling.SameView m m') (hkind : m.portfolio.planner.kind = .knapsack)
    (hreplan : m.portfolio.planner.replan = true) (remaining : α) :
    (s.select remaining).2 = (s'.select remaining).2 := by
  have hkind' : m'.portfolio.planner.kind = .knapsack := hview.portfolio.symm ▸ hkind
  have hreplan' : m'.portfolio.planner.replan = true := hview.portfolio.symm ▸ hreplan
  by_cases hr : IsBudget remaining
  · by_cases hk : m.Knows
    · cases htables : m.portfolio.world.hasTables remaining with
      | false =>
          rw [select_of_not_hasTables hinv hready hm hkind hreplan hk hr htables,
            select_of_not_hasTables hinv' hready' hm' hkind' hreplan' (hview.knows hk) hr
              (hview.portfolio.symm ▸ htables)]
      | true =>
          obtain ⟨t, sol, ht, hsol, next, _, hnext, hresult, _⟩ :=
            select_of_replan hinv hready hm hkind hreplan hk hr htables
          obtain ⟨t', sol', ht', hsol', next', _, hnext', hresult', _⟩ :=
            select_of_replan hinv' hready' hm' hkind' hreplan' (hview.knows hk) hr
              (hview.portfolio.symm ▸ htables)
          rw [hview.predicted] at ht'
          obtain rfl := Except.ok.inj (ht.symm.trans ht')
          rw [hview.portfolio] at hsol' hnext'
          obtain rfl := Except.ok.inj (hsol.symm.trans hsol')
          obtain rfl : next = next' := congrArg Prod.fst (hnext.symm.trans hnext')
          rw [hresult, hresult']
    · have hk' : ¬m'.Knows := fun hk' => hk (by
        simpa only [Modeling.Knows, hview.portfolio, hview.taskId] using hk')
      rw [select_of_not_knows hinv hready hm hk hr, select_of_not_knows hinv' hready' hm' hk' hr,
        hview.taskId]
  · rw [select_of_not_isBudget hready hr, select_of_not_isBudget hready' hr]

/-! ## The headline theorem -/

/-- Everything that holds of a modeling session along its runs, in one place. -/
theorem current_play {p : Portfolio α} (checked : p.check = .ok ()) (taskId : String)
    (events : List (Event α)) :
    ((modeling p taskId).play events).Inv ∧ ∃ m,
      ((modeling p taskId).play events).policy = .modeling m ∧
      m.history.Tallies p.world.nactions ∧
      m.Current p taskId (currentFeatures none events) ((modeling p taskId).log events) := by
  have hfresh : Fresh (modeling p taskId) := .modeling p checked taskId none
  obtain ⟨hinv, _⟩ := stocked_play hfresh events
  obtain ⟨m, hm, rfl, rfl, hf⟩ :=
    Serves.play ⟨_, rfl, rfl, rfl, rfl⟩ (inv_fresh hfresh) events
  have htallied : m.Tallied ((modeling m.portfolio m.taskId).log events) :=
    tallied_log hfresh events m hm
  have hco : m.Coherent := hinv.coherent m hm
  refine ⟨hinv, m, hm, htallied.shape, ?_⟩
  exact
    { portfolio := rfl
      taskId := rfl
      features := hf
      known := htallied.known
      counts := htallied.counts
      prediction := fun t ht => hf ▸ hco.prediction t ht
      posterior := hco.posterior }

/-- **No stale beliefs, and no memory of the path.** Along every run of a session over a
checked portfolio, its history counts the outcomes it took in, and what it keeps
of prediction and posterior is that of the history and the features as they are. With the
knapsack planner and new plans for every request, two runs that are ready and agree in
features and counts give the same answer to every budget. -/
theorem current_and_path_independent {p : Portfolio α} (checked : p.check = .ok ())
    (taskId : String) :
    (∀ events : List (Event α), ∃ m,
        ((modeling p taskId).play events).modelingState? = some m ∧
        m.Current p taskId (currentFeatures none events) ((modeling p taskId).log events)) ∧
      (p.planner.kind = .knapsack → p.planner.replan = true →
        ∀ events events' : List (Event α),
          ((modeling p taskId).play events).phase = .ready →
          ((modeling p taskId).play events').phase = .ready →
          currentFeatures none events = currentFeatures none events' →
          (∀ i < p.world.nactions, ∀ k : OutcomeKind,
            ((modeling p taskId).play events).history?.map (fun h => h.get i k.index) =
              ((modeling p taskId).play events').history?.map fun h => h.get i k.index) →
          ∀ remaining, (((modeling p taskId).play events).select remaining).2 =
            (((modeling p taskId).play events').select remaining).2) := by
  refine ⟨fun events => ?_, fun hkind hreplan events events' hready hready' hfeatures hcounts => ?_⟩
  · obtain ⟨_, m, hm, _, hcurrent⟩ := current_play checked taskId events
    exact ⟨m, by rw [modelingState?, hm], hcurrent⟩
  · obtain ⟨hinv, m, hm, hshape, hcurrent⟩ := current_play checked taskId events
    obtain ⟨hinv', m', hm', hshape', hcurrent'⟩ := current_play checked taskId events'
    have hhistory : m.history = m'.history := by
      refine hshape.ext hshape' fun i hi k => ?_
      have := hcounts i hi k
      simp only [history?, modelingState?, hm, hm', Option.map_some, Option.some.injEq] at this
      exact this
    refine select_eq_of_view hinv hinv' hready hready' hm hm' ?_ ?_ ?_
    · exact
        { portfolio := hcurrent'.portfolio.trans hcurrent.portfolio.symm
          taskId := hcurrent'.taskId.trans hcurrent.taskId.symm
          features := by rw [hcurrent'.features, hcurrent.features, hfeatures]
          history := hhistory.symm }
    · rw [hcurrent.portfolio, hkind]
    · rw [hcurrent.portfolio, hreplan]

/-- Two runs in the one order, and in the other with a change of features between. -/
def longThenShort : List (Event Float) :=
  [.request (.select 20), .request (.observe (longRunner.world.action 1) .unsolved),
    .request (.select 10), .request (.observe (longRunner.world.action 0) .negative)]

def shortThenLong : List (Event Float) :=
  [.request (.select 12), .request (.observe (longRunner.world.action 0) .negative),
    .features (some .empty), .request (.select 25),
    .request (.observe (longRunner.world.action 1) .unsolved), .features none]

theorem current_and_path_independent_longRunner :
    (modeling longRunner "t").log longThenShort = [(some 1, .unsolved), (some 0, .negative)] ∧
      (modeling longRunner "t").log shortThenLong = [(some 0, .negative), (some 1, .unsolved)] ∧
      ∀ remaining, (((modeling longRunner "t").play longThenShort).select remaining).2 =
        (((modeling longRunner "t").play shortThenLong).select remaining).2 := by
  have hhistory : ((modeling longRunner "t").play longThenShort).history? =
      ((modeling longRunner "t").play shortThenLong).history? := by
    decide +kernel
  have hlong : currentFeatures none longThenShort = none := rfl
  have hshort : currentFeatures none shortThenLong = none := rfl
  refine ⟨by decide +kernel, by decide +kernel, ?_⟩
  exact (current_and_path_independent rfl "t").2 rfl rfl longThenShort shortThenLong
    (by decide +kernel) (by decide +kernel) (hlong.trans hshort.symm) fun i _ k => by rw [hhistory]

end Strategy

end SolverPortfolio

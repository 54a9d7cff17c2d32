import SolverPortfolio.Planner
import SolverPortfolio.Proofs.Planner.Bellman
import SolverPortfolio.Proofs.Planner.Knapsack
import SolverPortfolio.Proofs.Portfolio.Checked

/-!
# Plans and their ceilings

Which steps a plan is made of, for any rates, and what their ceilings add up to.
-/

namespace SolverPortfolio

/-!
## What plans are made of

Whatever rates a planner is given, also such as are no probabilities, every step of its
plan is an action of the world under its index (`Planner.plan_steps`). A cell of either
table is unfilled or holds an action that fits into its slots, and the walks from cell to
cell meet nothing else.
-/

variable {α : Type}

/-! ### Knapsack -/

namespace Knapsack

variable [Scalar α] {w : World α}

/-- A cell is unfilled or holds an action that fits, whatever the rates. -/
theorem cellAt_succ_cases (w : World α) (rates : List α) (b : Nat) :
    (cellAt w rates (b + 1)).choice = none ∨
      ∃ a < w.nactions, w.rungOf a ≤ b ∧ (cellAt w rates (b + 1)).choice = some a := by
  rw [cellAt, nextCell, length_take_table]
  rcases (selects_improve w rates (table w rates b)).foldl_cases
    (w.choices (min w.nbudgets (b + 1))) unfilled with hunfilled | ⟨⟨s, r⟩, hc, heq⟩
  · exact Or.inl (by rw [hunfilled]; rfl)
  · obtain ⟨hs, hr⟩ := World.mem_choices.mp hc
    have hrung : r < w.nbudgets := by omega
    refine Or.inr ⟨w.index s r, World.index_lt_nactions hs hrung, ?_, by rw [heq]; rfl⟩
    rw [World.rungOf_index hrung]
    omega

/-- The walk back from a cell meets actions that fit into its slots. -/
theorem fits_of_mem_backtrack {rates : List α} (b : Nat) :
    ∀ a ∈ backtrack w (table w rates b), a < w.nactions ∧ w.slotUse a ≤ b := by
  induction b using Nat.strongRecOn with
  | ind b ih =>
      cases b with
      | zero =>
          have hnil : backtrack w (table w rates 0) = [] := by
            show backtrack w [emptyCell] = []
            rw [backtrack]
            rfl
          rw [hnil]
          exact fun _ ha => (List.not_mem_nil ha).elim
      | succ b =>
          rw [table_succ, backtrack]
          rcases cellAt_succ_cases w rates b with hnone | ⟨a, ha, hrung, hsome⟩
          · rw [hnone]
            exact fun _ ha => (List.not_mem_nil ha).elim
          · rw [hsome]
            intro a' ha'
            rcases List.mem_cons.mp ha' with rfl | ha'
            · exact ⟨ha, Nat.succ_le_succ hrung⟩
            · rw [drop_table hrung] at ha'
              obtain ⟨hlt, huse⟩ := ih (b - w.rungOf a) (by omega) a' ha'
              exact ⟨hlt, by omega⟩

/-- The steps of a plan run actions that fit into the slots of the budget, as they are. -/
theorem plan_steps {rates : List α} {remaining : α} {steps : List (PlanStep α)}
    (h : plan w rates remaining = .ok steps) :
    ∀ st ∈ steps, ∃ a < w.nactions, w.slotUse a ≤ w.ladder.slotsWithin remaining ∧
      st = w.planStep a := by
  obtain ⟨sol, hsol, rfl⟩ := Decision.map_eq_ok h
  obtain ⟨-, -, rfl⟩ := of_solve hsol
  intro st hst
  obtain ⟨a, ha, rfl⟩ := List.mem_map.mp hst
  obtain ⟨hlt, huse⟩ := fits_of_mem_backtrack _ a ((byDensity_perm w rates _).mem_iff.mp ha)
  exact ⟨a, hlt, huse, rfl⟩

end Knapsack

/-! ### Plans -/

theorem Bellman.of_mem_extendLast {P : Action α → Nat → Prop} :
    ∀ {steps : List (PlanStep α)}, (∀ st ∈ steps, P st.action st.index) →
      ∀ st ∈ extendLast steps, P st.action st.index
  | [], _, _, hst => (List.not_mem_nil hst).elim
  | [step], h, st, hst => by
      obtain rfl := List.mem_singleton.mp hst
      exact h step (List.mem_singleton.mpr rfl)
  | step :: next :: rest, h, st, hst => by
      rcases List.mem_cons.mp hst with rfl | hst
      · exact h st (List.mem_cons_self ..)
      · exact of_mem_extendLast (fun st hst => h st (List.mem_cons_of_mem _ hst)) st hst

/-- The step is an action of the world under its index. -/
def World.Offers [Scalar α] (w : World α) (action : Action α) (index : Nat) : Prop :=
  index < w.nactions ∧ action = w.action index

theorem World.offers_of_mem_planSteps [Scalar α] {w : World α} {plan : List Nat}
    (h : ∀ a ∈ plan, a < w.nactions) :
    ∀ st ∈ plan.map w.planStep, w.Offers st.action st.index := by
  intro st hst
  obtain ⟨a, ha, rfl⟩ := List.mem_map.mp hst
  exact ⟨h a ha, rfl⟩

variable [Analytic α]

theorem Planner.plan_steps {p : Planner α} {w : World α} {rates : List α} {remaining : α}
    {steps : List (PlanStep α)} (h : p.plan w rates remaining = .ok steps) :
    ∀ st ∈ steps, w.Offers st.action st.index := by
  cases p with
  | knapsack =>
      intro st hst
      obtain ⟨a, ha, _, rfl⟩ := Knapsack.plan_steps h st hst
      exact ⟨ha, rfl⟩
  | bellman discount horizon =>
      obtain ⟨is, his, rfl⟩ := Decision.map_eq_ok h
      exact Bellman.of_mem_extendLast (World.offers_of_mem_planSteps
        (Bellman.planIndices_admits his).actions)

end SolverPortfolio

namespace SolverPortfolio

/-!
## What a plan spends

The ceilings of a plan add up to a whole number of steps, no more than the budget has slots
(`Planner.plan_uses`), and the slots are the steps that fit into the budget and its slack
(`Ladder.le_slotsWithin_iff`). So a plan overspends its budget by at most the slack, and only
if some multiple of the step lies between the two. A knapsack plan fills every slot, so
then it does (`Planner.ceilings_overspend_iff`).
-/

/-! ### Slots and steps -/

namespace Ladder

/-- What counting slots adds to a budget: a billionth of it, but at least of the step. -/
noncomputable def slack (step x : ℝ) : ℝ := max x step / (10 ^ 9 : ℕ)

/-- Some multiple of the step that a count can reach is above the budget, but not by more
than its slack. -/
def Overcounts (step x : ℝ) : Prop :=
  ∃ n < Scalar.wordBound, x < step * (n : ℕ) ∧ step * (n : ℕ) ≤ x + slack step x

variable {l : Ladder Exact} {step x : ℝ}

theorem slotsWithin_lt_wordBound (l : Ladder Exact) (x : Exact) :
    l.slotsWithin x < Scalar.wordBound := by
  rw [slotsWithin]
  split
  · exact wholePart_lt _
  · exact Nat.two_pow_pos 64

theorem le_slotsWithin_iff (hstep : l.step = .real step) (hpos : 0 < step) (hx : 0 ≤ x)
    {n : ℕ} (hn : n < Scalar.wordBound) :
    n ≤ l.slotsWithin (.real x) ↔ step * n ≤ x + slack step x := by
  have hscale : (x + slack step x) / step = x / step + 1 / 10 ^ 9 * max (x / step) 1 := by
    rw [slack, add_div, div_right_comm, ← max_div_div_right hpos.le, div_self hpos.ne']
    push_cast
    ring
  rw [mul_comm, ← le_div_iff₀ hpos, hscale]
  rcases hx.lt_or_eq with hx | rfl
  · rw [slotsWithin_real hstep hpos hx, Nat.le_min, Nat.le_floor_iff (by positivity)]
    exact ⟨And.left, fun h => ⟨h, Nat.le_pred_of_lt hn⟩⟩
  · -- no slots are counted in an empty budget, and its slack is too small for one
    have hempty : l.slotsWithin (.real 0) = 0 := if_neg (by simp [Scalar.isPositiveFinite])
    rw [hempty, zero_div, zero_add, max_eq_right zero_le_one, Nat.le_zero]
    constructor
    · rintro rfl
      norm_num
    · intro hle
      by_contra hn0
      have hone : (1 : ℝ) ≤ n := by exact_mod_cast Nat.one_le_iff_ne_zero.mpr hn0
      norm_num at hle
      linarith

end Ladder

/-! ### Ceilings -/

/-- The ceilings of runs add up to the steps of all slots they use. -/
theorem World.sum_costs {w : World Exact} {step : ℝ} (hstep : w.ladder.step = .real step)
    (plan : List ℕ) :
    Scalar.sum (plan.map fun a => (w.action a).cost) =
      .real (step * (plan.map w.slotUse).sum) := by
  have hcosts : (plan.map fun a => (w.action a).cost) =
      (plan.map fun a => step * (w.slotUse a : ℝ)).map Exact.real := by
    rw [List.map_map]
    exact List.map_congr_left fun a _ => World.budget_real hstep (w.rungOf a)
  rw [hcosts, Exact.sum_real, List.sum_map_mul_left]
  push_cast
  rw [List.map_map]
  rfl

theorem World.actions_planSteps {w : World Exact} (plan : List ℕ) :
    (plan.map w.planStep).map PlanStep.action = plan.map w.action := by
  rw [List.map_map]
  rfl

/-- Running the last step to the remaining budget leaves the ceilings of the plan alone. -/
theorem Bellman.actions_extendLast : ∀ steps : List (PlanStep Exact),
    (extendLast steps).map PlanStep.action = steps.map PlanStep.action
  | [] => rfl
  | [_] => rfl
  | step :: next :: rest => congrArg (step.action :: ·) (actions_extendLast (next :: rest))

/-! ### Plans -/

namespace Planner

variable {w : World Exact} {rates : List ℝ}

/-- A plan runs actions of the world within the slots of the budget, and a knapsack plan
uses all of them. -/
theorem plan_uses {p : Planner Exact} (hw : w.check = .ok ()) (hlen : rates.length = w.nactions)
    (hrates : ∀ r ∈ rates, 0 ≤ r ∧ r ≤ 1) {remaining : ℝ} (hremaining : 0 ≤ remaining)
    {steps : List (PlanStep Exact)}
    (h : p.plan w (rates.map .real) (.real remaining) = .ok steps) :
    ∃ plan : List ℕ, steps.map PlanStep.action = plan.map w.action ∧
      (plan.map w.slotUse).sum ≤ w.ladder.slotsWithin (.real remaining) ∧
      (p = .knapsack →
        (plan.map w.slotUse).sum = w.ladder.slotsWithin (.real remaining)) := by
  have hlen' : (rates.map Exact.real).length = w.nactions := by rw [List.length_map, hlen]
  cases p with
  | knapsack =>
      obtain ⟨s, hs, rfl⟩ := Decision.map_eq_ok h
      obtain ⟨-, htables, -⟩ := Knapsack.of_solve hs
      obtain ⟨s', hs', _, huse⟩ := Knapsack.solve_uses_slots hw hlen'
        (Knapsack.isProbability_rateOf hrates) (Exact.isBudget_real hremaining) htables
      obtain rfl := Except.ok.inj (hs.symm.trans hs')
      exact ⟨s.plan, World.actions_planSteps s.plan, huse.le, fun _ => huse⟩
  | bellman discount horizon =>
      obtain ⟨plan, hplan, rfl⟩ := Decision.map_eq_ok h
      refine ⟨plan, ?_, (Bellman.planIndices_admits hplan).slots, fun h => by cases h⟩
      rw [Bellman.actions_extendLast, World.actions_planSteps]

/-- **What a plan spends.** The ceilings of a plan exceed the budget by at most the slack of
counting slots, and at all only if the count takes in a step that does not fit. The knapsack
plan then does exceed it. A budget that the planner has no tables for is not planned for. -/
theorem ceilings_overspend_iff (p : Planner Exact) (hw : w.check = .ok ())
    (hlen : rates.length = w.nactions) (hrates : ∀ r ∈ rates, 0 ≤ r ∧ r ≤ 1) {remaining : ℝ}
    (hremaining : 0 ≤ remaining) :
    (p.hasTables w (.real remaining) = true →
        ∃ steps total, p.plan w (rates.map .real) (.real remaining) = .ok steps ∧
          Scalar.sum (steps.map fun st => st.action.cost) = .real total ∧
          total ≤ remaining + Ladder.slack w.ladder.step.toReal remaining ∧
          (remaining < total → Ladder.Overcounts w.ladder.step.toReal remaining) ∧
          (p = .knapsack → Ladder.Overcounts w.ladder.step.toReal remaining →
            remaining < total)) ∧
      (p.hasTables w (.real remaining) = false →
        p.plan w (rates.map .real) (.real remaining) = .error .overflow) := by
  have hlen' : (rates.map Exact.real).length = w.nactions := by rw [List.length_map, hlen]
  rcases p.plan_cases (Exact.isBudget_real hremaining) hlen' with
    ⟨htables, steps, hplan⟩ | ⟨htables, hplan⟩
  · rw [htables]
    refine ⟨fun _ => ?_, fun h => Bool.noConfusion h⟩
    obtain ⟨step, hpos, hstep⟩ := World.exists_step hw
    obtain ⟨plan, hactions, huse, hall⟩ := plan_uses hw hlen hrates hremaining hplan
    have hcosts : (steps.map fun st => st.action.cost) = plan.map fun a => (w.action a).cost := by
      have := congrArg (List.map Action.cost) hactions
      rwa [List.map_map, List.map_map] at this
    have hcount {n : ℕ} (hn : n < Scalar.wordBound) :=
      Ladder.le_slotsWithin_iff hstep hpos hremaining hn
    have hbound := huse.trans_lt (Ladder.slotsWithin_lt_wordBound w.ladder (.real remaining))
    have htotal := (hcount hbound).mp huse
    refine ⟨steps, step * ((plan.map w.slotUse).sum : ℕ), hplan, ?_, ?_, ?_, ?_⟩
    · rw [hcosts, World.sum_costs hstep]
    · rwa [hstep]
    · rw [hstep]
      exact fun hover => ⟨_, hbound, hover, htotal⟩
    · rw [hstep]
      rintro hknapsack ⟨n, hn, hover, hslack⟩
      have hle : n ≤ (plan.map w.slotUse).sum := hall hknapsack ▸ (hcount hn).mpr hslack
      exact hover.trans_le (mul_le_mul_of_nonneg_left (by exact_mod_cast hle) hpos.le)
  · rw [htables]
    exact ⟨fun h => Bool.noConfusion h, fun _ => hplan⟩

/-- A budget a billionth below the step is spent on a whole one. -/
theorem ceilings_overspend_iff_twoRungs :
    World.twoRungs.check = .ok () ∧
      ∃ steps total, Planner.knapsack.plan World.twoRungs ([1 / 2, 3 / 4].map .real)
          (.real (9.999999999)) = .ok steps ∧
        Scalar.sum (steps.map fun st => st.action.cost) = .real total ∧
        9.999999999 < total := by
  have hslots : World.twoRungs.ladder.slotsWithin (.real 9.999999999) = 1 := by
    rw [Ladder.slotsWithin_real rfl (by norm_num) (by norm_num)]
    norm_num [Scalar.wordBound]
  obtain ⟨steps, total, hplan, hsum, _, _, hover⟩ :=
    (ceilings_overspend_iff .knapsack World.twoRungs_check (by rfl)
      World.twoRungs_rates_mem_unit (by norm_num : (0 : ℝ) ≤ 9.999999999)).1
      (World.hasTables_iff.mpr (by rw [hslots]; decide))
  have hcounts : Ladder.Overcounts World.twoRungs.ladder.step.toReal 9.999999999 := by
    refine ⟨1, by decide, ?_, ?_⟩ <;>
      norm_num [World.twoRungs, Exact.toReal, Ladder.slack]
  exact ⟨World.twoRungs_check, steps, total, hplan, hsum, hover rfl hcounts⟩

end Planner

end SolverPortfolio

import Mathlib.Order.Defs.Unbundled
import SolverPortfolio.Planner

/-!
# Planners

What both planners have in common: the inputs they accept, the tables they cannot hold, and the way
they fill a cell.
-/

namespace SolverPortfolio

/-!
## Inputs of planners

Which budgets and rates a planner accepts. Within them it answers with a plan if its tables have
sizes that are words, and stops if they have not (`Knapsack.solve_eq`, `Bellman.planIndices_eq`,
`Planner.plan_cases`).
-/

/-- A budget that can be planned within: a number, and not below zero. -/
def Scalar.IsBudget {α : Type} [Scalar α] (x : α) : Prop :=
  (isNaN x || decide (x < 0)) = false

theorem World.checkInputs_eq_ok {α : Type} [Scalar α] {w : World α} {rates : List α}
    {remaining : α} (hr : Scalar.IsBudget remaining) (hlen : rates.length = w.nactions) :
    w.checkInputs rates remaining = .ok () := by
  unfold checkInputs
  rw [if_neg (by rw [hr]; exact Bool.false_ne_true), if_neg (by simp [hlen])]

theorem World.hasTables_iff {α : Type} [Scalar α] {w : World α} {remaining : α} :
    w.hasTables remaining = true ↔ w.ladder.slotsWithin remaining + 1 < Scalar.wordBound :=
  decide_eq_true_iff

theorem Knapsack.solve_eq {α : Type} [Scalar α] {w : World α} {rates : List α} {remaining : α}
    (hok : w.checkInputs rates remaining = .ok ()) :
    solve w rates remaining = if w.hasTables remaining = true then
      .ok (solutionOf w rates (table w rates (w.ladder.slotsWithin remaining)))
      else .error .overflow := by
  rw [solve, hok]
  cases w.hasTables remaining <;> rfl

theorem Knapsack.of_solve {α : Type} [Scalar α] {w : World α} {rates : List α} {remaining : α}
    {s : Solution α} (h : solve w rates remaining = .ok s) :
    w.checkInputs rates remaining = .ok () ∧ w.hasTables remaining = true ∧
      s = solutionOf w rates (table w rates (w.ladder.slotsWithin remaining)) := by
  obtain ⟨_, hok, h⟩ := Decision.bind_eq_ok h
  obtain ⟨_, htables, h⟩ := Decision.bind_eq_ok h
  exact ⟨hok, Decision.of_provided htables, (Except.ok.inj h).symm⟩

section

variable {α : Type} [Analytic α] {w : World α} {rates : List α} {remaining : α}

theorem Bellman.hasRows_iff {horizon : Nat} :
    hasRows w remaining horizon = true ↔
      w.ladder.slotsWithin remaining + 1 < Scalar.wordBound ∧
        horizon + 1 < Scalar.wordBound := by
  rw [hasRows, Bool.and_eq_true, World.hasTables_iff, decide_eq_true_iff]

theorem Bellman.planIndices_eq (hok : w.checkInputs rates remaining = .ok ()) (discount : α)
    (horizon : Nat) :
    planIndices w rates remaining discount horizon =
      if hasRows w remaining horizon = true then
        .ok (follow w (rows w rates (1 - discount) (w.ladder.slotsWithin remaining) horizon) 0)
      else .error .overflow := by
  rw [planIndices, hok]
  cases hasRows w remaining horizon <;> rfl

theorem Bellman.of_planIndices {discount : α} {horizon : Nat} {plan : List Nat}
    (h : planIndices w rates remaining discount horizon = .ok plan) :
    w.checkInputs rates remaining = .ok () ∧ hasRows w remaining horizon = true ∧
      plan = follow w
        (rows w rates (1 - discount) (w.ladder.slotsWithin remaining) horizon) 0 := by
  obtain ⟨_, hok, h⟩ := Decision.bind_eq_ok h
  obtain ⟨_, hrows, h⟩ := Decision.bind_eq_ok h
  exact ⟨hok, Decision.of_provided hrows, (Except.ok.inj h).symm⟩

theorem Planner.plan_cases (p : Planner α) (hr : Scalar.IsBudget remaining)
    (hlen : rates.length = w.nactions) :
    p.hasTables w remaining = true ∧ (∃ steps, p.plan w rates remaining = .ok steps) ∨
      p.hasTables w remaining = false ∧ p.plan w rates remaining = .error .overflow := by
  have hok := World.checkInputs_eq_ok hr hlen
  cases p with
  | knapsack =>
      rw [hasTables, plan, Knapsack.plan, Knapsack.solve_eq hok]
      cases w.hasTables remaining with
      | true => exact Or.inl ⟨rfl, _, rfl⟩
      | false => exact Or.inr ⟨rfl, rfl⟩
  | bellman discount horizon =>
      rw [hasTables, plan, Bellman.plan, Bellman.planIndices_eq hok]
      cases Bellman.hasRows w remaining horizon with
      | true => exact Or.inl ⟨rfl, _, rfl⟩
      | false => exact Or.inr ⟨rfl, rfl⟩

end

/-!
## Keeping the best

Both planners fill a cell by going through the choices and replacing the cell whenever
a choice makes a better one (`Selects`). What is left in the end is the cell of the
start or one that a choice makes, and no choice makes a better one.
-/

/-- A step that takes what a choice makes if it is better than what there is. -/
structure Selects {β γ : Type} (better : β → β → Prop) (make : γ → β) (step : β → γ → β) :
    Prop where
  take : ∀ best c, better (make c) best → step best c = make c
  leave : ∀ best c, ¬better (make c) best → step best c = best

namespace Selects

variable {β γ : Type} {better : β → β → Prop} {make : γ → β} {step : β → γ → β}

theorem foldl_cases (h : Selects better make step) :
    ∀ (cs : List γ) (best : β),
      cs.foldl step best = best ∨ ∃ c ∈ cs, cs.foldl step best = make c
  | [], _ => Or.inl rfl
  | c :: cs, best => by
      rw [List.foldl_cons]
      rcases foldl_cases h cs (step best c) with heq | ⟨c', hc', heq⟩
      · rw [heq]
        by_cases hbetter : better (make c) best
        · exact Or.inr ⟨c, List.mem_cons_self .., h.take best c hbetter⟩
        · exact Or.inl (h.leave best c hbetter)
      · exact Or.inr ⟨c', List.mem_cons_of_mem _ hc', heq⟩

/-- If the first choice is an improvement, some choice is taken. -/
theorem foldl_of_better (h : Selects better make step) {c : γ} {best : β} (cs : List γ)
    (hbetter : better (make c) best) :
    ∃ c' ∈ c :: cs, (c :: cs).foldl step best = make c' := by
  rw [List.foldl_cons, h.take best c hbetter]
  rcases foldl_cases h cs (make c) with heq | ⟨c', hc', heq⟩
  · exact ⟨c, List.mem_cons_self .., heq⟩
  · exact ⟨c', List.mem_cons_of_mem _ hc', heq⟩

theorem foldl_eq_or_better [IsTrans β better] (h : Selects better make step) :
    ∀ (cs : List γ) (best : β), cs.foldl step best = best ∨ better (cs.foldl step best) best
  | [], _ => Or.inl rfl
  | c :: cs, best => by
      rw [List.foldl_cons]
      by_cases hbetter : better (make c) best
      · rw [h.take best c hbetter]
        rcases foldl_eq_or_better h cs (make c) with heq | hlt
        · exact Or.inr (by rw [heq]; exact hbetter)
        · exact Or.inr (IsTrans.trans _ _ _ hlt hbetter)
      · rw [h.leave best c hbetter]
        exact foldl_eq_or_better h cs best

/-- No choice is better than the one that is kept. -/
theorem not_better_foldl [IsStrictOrder β better] (h : Selects better make step) :
    ∀ (cs : List γ) (best : β), ∀ c ∈ cs, ¬better (make c) (cs.foldl step best)
  | [], _, _, hc => (List.not_mem_nil hc).elim
  | c :: cs, best, c', hc' => by
      rw [List.foldl_cons]
      rcases List.mem_cons.mp hc' with rfl | hc'
      · intro hkept
        by_cases hbetter : better (make c') best
        · rw [h.take best c' hbetter] at hkept
          rcases foldl_eq_or_better h cs (make c') with heq | hlt
          · rw [heq] at hkept
            exact irrefl _ hkept
          · exact irrefl _ (IsTrans.trans _ _ _ hkept hlt)
        · rw [h.leave best c' hbetter] at hkept
          rcases foldl_eq_or_better h cs best with heq | hlt
          · rw [heq] at hkept
            exact hbetter hkept
          · exact hbetter (IsTrans.trans _ _ _ hkept hlt)
      · exact not_better_foldl h cs _ c' hc'

end Selects

end SolverPortfolio

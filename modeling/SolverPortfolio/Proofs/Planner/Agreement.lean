import SolverPortfolio.Proofs.Planner.Bellman
import SolverPortfolio.Proofs.Planner.Knapsack

/-!
# The two planners agree

Without a discount the utility of a sequence is the probability that one of its runs
succeeds (`utility_eq_one_sub`), which is what the knapsack plan maximises. So the planners
differ in the horizon alone, and a run uses at least one slot: a horizon of as many actions
as there are slots admits everything that fits.

The plans themselves need not be the same. Where rates are zero or tie, the knapsack plan
still fills every slot and the Bellman plan stops early; only what they are worth agrees
(`planIndices_attains_value`).
-/

namespace SolverPortfolio

/-- There are no more runs than slots. -/
theorem World.length_le_slots {α : Type} (w : World α) (runs : List ℕ) :
    runs.length ≤ (runs.map w.slotUse).sum := by
  induction runs with
  | nil => exact le_rfl
  | cons a runs ih =>
      have hone : 1 ≤ w.slotUse a := Nat.le_add_left 1 _
      rw [List.length_cons, List.map_cons, List.sum_cons]
      omega

theorem World.Admits.fits {α : Type} {w : World α} {horizon slots : ℕ} {runs : List ℕ}
    (h : w.Admits horizon slots runs) : w.Fits (runs : Multiset ℕ) slots :=
  ⟨fun a ha => h.actions a (Multiset.mem_coe.mp ha), by simpa using h.slots⟩

/-- The last value is that of the cell for all slots. -/
theorem Knapsack.getLast?_values {α : Type} [Scalar α] {w : World α} {rates : List α} (b : ℕ) :
    ((table w rates b).map Cell.value).reverse.getLast? = some (cellAt w rates b).value := by
  obtain ⟨below, hbelow⟩ := table_eq_cons w rates b
  rw [List.getLast?_reverse, hbelow, List.map_cons, List.head?_cons]

namespace Bellman

open Knapsack (failure)

variable {w : World Exact} {rates : List ℝ}

/-- Without a discount, what counts is that some run succeeds. -/
theorem utility_eq_one_sub (w : World Exact) (rates : List ℝ) (runs : List ℕ) :
    utility w rates 0 runs = 1 - (runs.map (failure rates)).prod := by
  induction runs with
  | nil => simp [utility]
  | cons a runs ih =>
      rw [utility, ih, sub_zero, Real.one_rpow, List.map_cons, List.prod_cons,
        Knapsack.failure]
      ring

/-- A horizon of as many actions as there are slots keeps nothing out, so the walk through
the rows does as well as the walk back through the knapsack table. -/
theorem prod_follow_le (hw : w.check = .ok ()) (hrates : ∀ r ∈ rates, 0 ≤ r ∧ r ≤ 1)
    {slots horizon : ℕ} (hhorizon : slots ≤ horizon) {least : ℝ}
    (hleast : (Knapsack.cellAt w (rates.map Exact.real) slots).value = .real least) :
    ((follow w (rows w (rates.map .real) (.real (1 - 0)) slots horizon) 0).map
      (failure rates)).prod ≤ least := by
  obtain ⟨hmem, huse, hval⟩ := Knapsack.backtrack_table hw
    (Knapsack.closed_isProbability (Knapsack.isProbability_rateOf hrates)) slots
  rw [hleast, Knapsack.failureOf_real] at hval
  have hadmits : w.Admits horizon slots
      (Knapsack.backtrack w (Knapsack.table w (rates.map Exact.real) slots)) :=
    ⟨hmem, (w.length_le_slots _).trans (huse.le.trans hhorizon), huse.le⟩
  have hbest := utility_le_cell hw hrates zero_lt_one _ hadmits
    (follow_rows_attains hw hrates zero_lt_one slots horizon (Nat.zero_le slots))
  rw [utility_eq_one_sub, utility_eq_one_sub] at hbest
  rw [Exact.real.inj hval]
  linarith

/-- **The planners agree.** Without a discount, no Bellman plan leaves a lower probability
of failure than the last entry of the knapsack table, and one whose horizon is at least the
number of slots leaves exactly that. Where the knapsack table has no size there is no Bellman
plan either. -/
theorem planIndices_attains_value (hw : w.check = .ok ()) (hlen : rates.length = w.nactions)
    (hrates : ∀ r ∈ rates, 0 ≤ r ∧ r ≤ 1) {remaining : ℝ} (hremaining : 0 ≤ remaining)
    (horizon : ℕ) :
    (w.ladder.slotsWithin (.real remaining) + 1 < Scalar.wordBound →
        horizon + 1 < Scalar.wordBound →
        ∃ plan s least,
          planIndices w (rates.map .real) (.real remaining) (.real 0) horizon = .ok plan ∧
          Knapsack.solve w (rates.map .real) (.real remaining) = .ok s ∧
          s.value.getLast? = some (.real least) ∧
          least ≤ (plan.map (failure rates)).prod ∧
          (w.ladder.slotsWithin (.real remaining) ≤ horizon →
            (plan.map (failure rates)).prod = least)) ∧
      (Scalar.wordBound ≤ w.ladder.slotsWithin (.real remaining) + 1 →
        planIndices w (rates.map .real) (.real remaining) (.real 0) horizon = .error .overflow ∧
          Knapsack.solve w (rates.map .real) (.real remaining) = .error .overflow) := by
  have hok : w.checkInputs (rates.map .real) (.real remaining) = .ok () :=
    World.checkInputs_eq_ok (Exact.isBudget_real hremaining) (by rw [List.length_map, hlen])
  rw [planIndices_eq hok, Knapsack.solve_eq hok, Exact.one_eq, Exact.real_sub]
  refine ⟨fun hsize hhorizon => ?_, fun hsize => ⟨if_neg fun hrows => ?_,
    if_neg fun htables => ?_⟩⟩
  · rw [if_pos (hasRows_iff.mpr ⟨hsize, hhorizon⟩), if_pos (World.hasTables_iff.mpr hsize)]
    generalize w.ladder.slotsWithin (.real remaining) = slots
    obtain ⟨least, _, hleast⟩ := Knapsack.cell_real hw hrates slots
    have hadmits : w.Admits horizon slots
        (follow w (rows w (rates.map .real) (.real (1 - 0)) slots horizon) 0) :=
      follow_rows_admits horizon (Nat.zero_le slots)
    have hlow : least ≤
        ((follow w (rows w (rates.map .real) (.real (1 - 0)) slots horizon) 0).map
          (failure rates)).prod := by
      simpa using Knapsack.cell_le_prod hw hrates _ hadmits.fits hleast
    refine ⟨_, _, least, rfl, rfl, ?_, hlow, fun hfits => ?_⟩
    · exact (Knapsack.getLast?_values slots).trans (congrArg some hleast)
    · exact le_antisymm (prod_follow_le hw hrates hfits hleast) hlow
  · exact (hasRows_iff.mp hrows).1.not_ge hsize
  · exact (World.hasTables_iff.mp htables).not_ge hsize

/-- Two slots: a horizon of two actions does as well as the knapsack plan. -/
theorem planIndices_attains_value_twoRungs :
    World.twoRungs.check = .ok () ∧
      ∃ plan s least,
        planIndices World.twoRungs ([1 / 2, 3 / 4].map .real) (.real 20) (.real 0) 2 =
          .ok plan ∧
        Knapsack.solve World.twoRungs ([1 / 2, 3 / 4].map .real) (.real 20) = .ok s ∧
        s.value.getLast? = some (.real least) ∧
        (plan.map (failure [1 / 2, 3 / 4])).prod = least := by
  have h := planIndices_attains_value World.twoRungs_check (by rfl)
    World.twoRungs_rates_mem_unit (by norm_num : (0 : ℝ) ≤ 20) 2
  rw [World.twoRungs_slots] at h
  obtain ⟨plan, s, least, hplan, hs, hlast, _, hagree⟩ := h.1 (by decide) (by decide)
  exact ⟨World.twoRungs_check, plan, s, least, hplan, hs, hlast, hagree le_rfl⟩

end Bellman

end SolverPortfolio

import SolverPortfolio.Proofs.Planner.Agreement
import SolverPortfolio.Proofs.Scalar.Rounded
import SolverPortfolio.Proofs.Scalar.RoundedDouble
import SolverPortfolio.Proofs.World

/-!
# More budget never hurts

A larger budget has at least as many slots, however its quotient is rounded
(`Ladder.slotsWithin_mono`: every operation on the way is monotone). The table of a plan falls
from each cell to the next, since running any solver on the lowest rung on top of a cell makes
nothing worse (`Knapsack.cellAt_succ_le`), so more slots mean no higher a probability of
failure.

An infinite budget is no larger budget: it counts no slots at all
(`Ladder.slotsWithin_of_not_isFinite`), so that it has room for nothing.
-/

namespace SolverPortfolio

open Scalar Rounded

/-! ## Budgets -/

theorem Scalar.isBudget_iff {α : Type} [Scalar α] [Rounded α] {x : α} :
    IsBudget x ↔ .real 0 ≤ value x := by
  have hzero : value (0 : α) ≠ .nan := by
    rw [value_zero]
    exact Exact.noConfusion
  unfold IsBudget
  rw [Bool.or_eq_false_iff, decide_eq_false_iff_not, isNaN_eq_false_iff, lt_iff]
  constructor
  · rintro ⟨hnum, hneg⟩
    rwa [Exact.not_lt_iff hnum hzero, value_zero] at hneg
  · intro hle
    rw [Exact.not_lt_iff hle.2.1 hzero, value_zero]
    exact ⟨hle.2.1, hle⟩

theorem Scalar.IsBudget.of_le {α : Type} [Scalar α] [Rounded α] {x y : α} (hx : IsBudget x)
    (hxy : x ≤ y) : IsBudget y :=
  isBudget_iff.mpr (Exact.le_trans (isBudget_iff.mp hx) ((le_iff x y).mp hxy))

/-! ## Slots -/

namespace Ladder

theorem slotsWithin_of_not_isFinite {α : Type} [Scalar α] (l : Ladder α) {x : α}
    (h : isFinite x = false) : l.slotsWithin x = 0 := by
  rw [slotsWithin, if_neg]
  rw [isPositiveFinite, h, Bool.false_and]
  exact Bool.false_ne_true

variable {α : Type} [Scalar α] [Rounded α]

/-- Padding keeps the order of positions. -/
theorem padded_mono {p q : α} (hp : .real 0 ≤ value p) (hpq : p ≤ q) :
    value (padded p) ≤ value (padded q) := by
  obtain ⟨t, ht, ht0, _⟩ := tolerance_near (α := α)
  have htpos : 0 < t := lt_of_lt_of_le (by norm_num) ht0
  have hone : isNaN (1 : α) = false :=
    isNaN_eq_false_iff.mpr (by rw [value_one]; exact Exact.noConfusion)
  have hle := (le_iff p q).mp hpq
  have hmaxp := max_cases (isNaN_eq_false_iff.mpr hle.1) hone
  have hmaxq := max_cases (isNaN_eq_false_iff.mpr hle.2.1) hone
  have hpos : .real 0 ≤ value (Scalar.max p 1) := by
    rcases hmaxp with ⟨heq, _⟩ | ⟨heq, _⟩ <;> rw [heq]
    · exact hp
    · rw [value_one, Exact.real_le]
      exact zero_le_one
  have hmax : value (Scalar.max p 1) ≤ value (Scalar.max q 1) := by
    rw [← le_iff]
    rcases hmaxp with ⟨heq, _⟩ | ⟨heq, _⟩ <;> rcases hmaxq with ⟨heq', h1⟩ | ⟨heq', h1⟩ <;>
      rw [heq, heq']
    · exact hpq
    · exact (le_iff _ _).mpr (Exact.le_trans hle ((le_iff _ _).mp h1))
    · exact h1
    · exact (le_iff _ _).mpr (Exact.le_refl (isNaN_eq_false_iff.mp hone))
  have hscaled : value (tolerance * Scalar.max p 1) ≤ value (tolerance * Scalar.max q 1) := by
    rw [value_mul, value_mul, ht]
    exact Exact.rounded_mono (Exact.mul_le_mul_left htpos hpos hmax)
  have hscaled0 : .real 0 ≤ value (tolerance * Scalar.max p 1) := by
    have := Exact.rounded_mono (α := α) (Exact.mul_le_mul_left htpos (Exact.le_refl nofun) hpos)
    rwa [← ht, ← value_mul, ht, Exact.real_mul, mul_zero, Exact.rounded, nearest_zero] at this
  rw [padded, padded, value_add, value_add]
  exact Exact.rounded_mono (Exact.add_le_add hp hscaled0 hle hscaled)

/-- A larger budget that is finite has no fewer slots. -/
theorem slotsWithin_mono {l : Ladder α} (hstep : isPositiveFinite l.step = true) {x y : α}
    (hxy : x ≤ y) (hy : isFinite y = true) : l.slotsWithin x ≤ l.slotsWithin y := by
  by_cases hx : isPositiveFinite x = true
  · obtain ⟨step, hpos, hstep⟩ := isPositiveFinite_iff.mp hstep
    obtain ⟨u, hu0, hu⟩ := isPositiveFinite_iff.mp hx
    obtain ⟨v, hv⟩ := isFinite_iff.mp hy
    have huv : u ≤ v := by rwa [le_iff, hu, hv, Exact.real_le] at hxy
    have hquotient : .real 0 ≤ value (x / l.step) := by
      rw [value_position hstep hpos hu, ← nearest_zero α]
      exact nearest_mono (div_nonneg hu0.le hpos.le)
    have hquotients : x / l.step ≤ y / l.step := by
      rw [le_iff, value_position hstep hpos hu, value_position hstep hpos hv]
      exact nearest_mono (div_le_div_of_nonneg_right huv hpos.le)
    rw [slotsWithin_eq hx, slotsWithin_eq (isPositiveFinite_iff.mpr ⟨v, hu0.trans_le huv, hv⟩),
      wholePart_eq, wholePart_eq (padded (y / l.step))]
    exact Exact.wholePart_mono (padded_mono hquotient hquotients)
  · rw [slotsWithin, if_neg hx]
    exact Nat.zero_le _

end Ladder

theorem World.actionsWithin_subset {α : Type} [Scalar α] {w : World α} {x y : α}
    (h : w.ladder.slotsWithin x ≤ w.ladder.slotsWithin y) :
    w.actionsWithin x ⊆ w.actionsWithin y := by
  intro a ha
  obtain ⟨⟨s, r⟩, hmem, rfl⟩ := List.mem_map.mp ha
  obtain ⟨hs, hr⟩ := mem_choices.mp hmem
  exact List.mem_map.mpr ⟨(s, r), mem_choices.mpr ⟨hs, by omega⟩, rfl⟩

/-! ## The table -/

namespace Knapsack

variable {α : Type} [Scalar α] [Rounded α] {w : World α} {rates : List α}

theorem isProbability_rateOf_of_mem (h : ∀ r ∈ rates, IsProbability r) (a : ℕ) :
    IsProbability (rateOf rates a) := by
  rw [rateOf, List.getD_eq_getElem?_getD]
  cases hget : rates[a]? with
  | none => exact isProbability_zero
  | some r => exact h r (List.mem_of_getElem? hget)

section table

variable (hw : w.check = .ok ()) (hrates : ∀ a, IsProbability (rateOf rates a))

include hw hrates

theorem isProbability_cellAt (b : ℕ) : IsProbability (cellAt w rates b).value :=
  (cellAt_succ hw (closed_isProbability hrates) b).1

/-- With the lowest rung of any solver on top of it, a cell is not beaten by the one below. -/
theorem cellAt_succ_le (b : ℕ) :
    (cellAt w rates (b + 1)).value ≤ (cellAt w rates b).value := by
  have hrung : 0 < w.nbudgets := World.nbudgets_pos hw
  have huse : w.slotUse (w.index 0 0) = 1 := World.slotUse_index hrung
  have hbest := not_extend_lt_cellAt rates
    (World.index_lt_nactions (World.nsolvers_pos hw) hrung) hrung
    (by rw [huse]; omega : w.slotUse (w.index 0 0) ≤ b + 1)
  rw [huse, Nat.add_sub_cancel] at hbest
  obtain ⟨v, _, _, hv⟩ := isProbability_cellAt hw hrates (b + 1)
  have hfail := (hrates (w.index 0 0)).one_sub
  have hdone := isProbability_cellAt hw hrates b
  obtain ⟨u, _, _, hu⟩ := hfail.mul hdone
  rw [lt_iff, hu, hv, Exact.real_lt, not_lt] at hbest
  rw [le_iff]
  refine Exact.le_trans ?_ ((le_iff _ _).mp (hfail.mul_le hdone))
  rwa [hu, hv, Exact.real_le]

theorem cellAt_antitone {b c : ℕ} (h : b ≤ c) :
    (cellAt w rates c).value ≤ (cellAt w rates b).value := by
  induction c, h using Nat.le_induction with
  | base =>
      obtain ⟨v, _, _, hv⟩ := isProbability_cellAt hw hrates b
      exact (le_iff _ _).mpr (Exact.le_refl (by rw [hv]; exact Exact.noConfusion))
  | succ c _ ih =>
      rw [le_iff] at ih ⊢
      exact Exact.le_trans ((le_iff _ _).mp (cellAt_succ_le hw hrates c)) ih

/-- The table falls from each entry to the next. -/
theorem pairwise_values (slots : ℕ) :
    ((table w rates slots).map Cell.value).reverse.Pairwise fun u v => v ≤ u := by
  rw [value_table, List.pairwise_map]
  exact List.pairwise_lt_range.imp fun h => cellAt_antitone hw hrates h.le

end table

/-! ## Two budgets -/

/-- **More budget never hurts.** A larger budget has no fewer slots, unless it is infinite:
that one has none. If it has no fewer, then every action that fits into the smaller budget
fits into the larger. Budgets with a table have one that falls, and if the larger one has no fewer
slots, its plan fails with no higher probability; those without a table are not planned for. -/
theorem more_budget_never_hurts (hw : w.check = .ok ()) (hlen : rates.length = w.nactions)
    (hrates : ∀ r ∈ rates, IsProbability r) {x y : α} (hx : IsBudget x) (hxy : x ≤ y) :
    (w.ladder.slotsWithin x ≤ w.ladder.slotsWithin y ↔
        isFinite y = true ∨ w.ladder.slotsWithin x = 0) ∧
      (w.ladder.slotsWithin x ≤ w.ladder.slotsWithin y →
        w.actionsWithin x ⊆ w.actionsWithin y) ∧
      (∀ z, IsBudget z →
        (w.hasTables z = true → ∃ s, solve w rates z = .ok s ∧
          s.value.Pairwise fun u v => v ≤ u) ∧
        (w.hasTables z = false → solve w rates z = .error .overflow)) ∧
      (w.ladder.slotsWithin x ≤ w.ladder.slotsWithin y → w.hasTables y = true →
        ∃ s s' u v, solve w rates x = .ok s ∧ solve w rates y = .ok s' ∧
          s.value.getLast? = some u ∧ s'.value.getLast? = some v ∧ v ≤ u) := by
  have hprob := isProbability_rateOf_of_mem hrates
  refine ⟨⟨fun h => ?_, fun h => ?_⟩, World.actionsWithin_subset, fun z hz => ⟨fun htables => ?_,
    fun htables => ?_⟩, fun h htables => ?_⟩
  · by_cases hfinite : isFinite y = true
    · exact Or.inl hfinite
    · rw [w.ladder.slotsWithin_of_not_isFinite (Bool.eq_false_iff.mpr hfinite)] at h
      exact Or.inr (Nat.le_zero.mp h)
  · rcases h with hfinite | hzero
    · exact Ladder.slotsWithin_mono (World.step_isPositiveFinite hw) hxy hfinite
    · rw [hzero]
      exact Nat.zero_le _
  · rw [solve_eq (World.checkInputs_eq_ok hz hlen), if_pos htables]
    exact ⟨_, rfl, pairwise_values hw hprob _⟩
  · rw [solve_eq (World.checkInputs_eq_ok hz hlen), if_neg (Bool.not_eq_true _ ▸ htables)]
  · have htables' : w.hasTables x = true :=
      World.hasTables_iff.mpr
        ((Nat.add_le_add_right h 1).trans_lt (World.hasTables_iff.mp htables))
    rw [solve_eq (World.checkInputs_eq_ok hx hlen), if_pos htables',
      solve_eq (World.checkInputs_eq_ok (hx.of_le hxy) hlen), if_pos htables]
    exact ⟨_, _, _, _, rfl, rfl, getLast?_values _, getLast?_values _,
      cellAt_antitone hw hprob h⟩

theorem more_budget_never_hurts_twoRungs :
    World.twoRungs.check = .ok () ∧ IsBudget (Exact.real 10) ∧ Exact.real 10 ≤ .real 20 ∧
      ∃ s s' u v, solve World.twoRungs ([1 / 2, 3 / 4].map .real) (.real 10) = .ok s ∧
        solve World.twoRungs ([1 / 2, 3 / 4].map .real) (.real 20) = .ok s' ∧
        s.value.getLast? = some u ∧ s'.value.getLast? = some v ∧ v ≤ u := by
  have hbudget : IsBudget (Exact.real 10) := Exact.isBudget_real (by norm_num)
  have hle : Exact.real 10 ≤ .real 20 := (Exact.real_le _ _).mpr (by norm_num)
  have hrates : ∀ r ∈ [(1 / 2 : ℝ), 3 / 4].map Exact.real, IsProbability r := by
    intro r hr
    obtain ⟨x, hx, rfl⟩ := List.mem_map.mp hr
    obtain ⟨h0, h1⟩ := World.twoRungs_rates_mem_unit x hx
    exact ⟨x, h0, h1, rfl⟩
  have htables : World.twoRungs.hasTables (.real 20) = true :=
    World.hasTables_iff.mpr (by rw [World.twoRungs_slots]; decide)
  obtain ⟨hslots, _, _, hmore⟩ :=
    more_budget_never_hurts World.twoRungs_check rfl hrates hbudget hle
  exact ⟨World.twoRungs_check, hbudget, hle, hmore (hslots.mpr (Or.inl rfl)) htables⟩

/-- One solver on two rungs of ten seconds each, in doubles. -/
def doubleRungs : World Float := ⟨["a"], ⟨10, 2⟩⟩

-- Both actions fit into twenty seconds, and none into an infinite budget.
example : doubleRungs.actionsWithin 20 = [0, 1] ∧ doubleRungs.actionsWithin infinity = [] := by
  decide +kernel

end Knapsack

end SolverPortfolio

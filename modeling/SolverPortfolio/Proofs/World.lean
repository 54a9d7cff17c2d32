import Mathlib.Algebra.GroupWithZero.Nat
import SolverPortfolio.Planner
import SolverPortfolio.Proofs.Ladder
import SolverPortfolio.Proofs.Planner
import SolverPortfolio.Proofs.Scalar.Exact

/-!
# Checked worlds

The indices of a checked world and the ceilings of its actions, for any scalars and in exact
arithmetic.
-/

namespace SolverPortfolio.World

/-!
## Checked worlds and their indices

What the check of a world guarantees, how the flat index of an action relates to its
solver, its rung and the slots it uses, and which sequences of actions stay within a number
of actions and slots.
-/

/-! ### Checked worlds -/

section check

variable {α : Type} [Scalar α] {w : World α}

theorem ladder_isSound (h : w.check = .ok ()) : w.ladder.isSound = true := by
  unfold check at h
  split at h
  · cases h
  · split at h
    · cases h
    · unfold Ladder.check at h
      split at h
      · assumption
      · cases h

theorem step_isPositiveFinite (h : w.check = .ok ()) :
    Scalar.isPositiveFinite w.ladder.step = true :=
  (Bool.and_eq_true_iff.mp (ladder_isSound h)).1

theorem nbudgets_pos (h : w.check = .ok ()) : 0 < w.nbudgets := by
  have := (Bool.and_eq_true_iff.mp (ladder_isSound h)).2
  simp only [bne_iff_ne, ne_eq] at this
  exact Nat.pos_of_ne_zero this

theorem nsolvers_pos (h : w.check = .ok ()) : 0 < w.nsolvers := by
  unfold check at h
  split at h
  · cases h
  · rename_i hne
    rw [nsolvers, List.length_pos_iff]
    simpa using hne

end check

/-! ### Indices -/

variable {α : Type} {w : World α}

theorem splitIndex_index {s r : Nat} (hr : r < w.nbudgets) :
    w.splitIndex (w.index s r) = (s, r) := by
  have hpos : 0 < w.nbudgets := Nat.lt_of_le_of_lt (Nat.zero_le r) hr
  simp only [splitIndex, index, Prod.mk.injEq]
  refine ⟨?_, ?_⟩
  · rw [Nat.mul_comm, Nat.mul_add_div hpos, Nat.div_eq_of_lt hr, Nat.add_zero]
  · rw [Nat.mul_comm, Nat.mul_add_mod, Nat.mod_eq_of_lt hr]

theorem index_splitIndex (a : Nat) : w.index (w.splitIndex a).1 (w.splitIndex a).2 = a := by
  simp only [splitIndex, index]
  rw [Nat.mul_comm]
  exact Nat.div_add_mod a w.nbudgets

@[simp] theorem rungOf_index {s r : Nat} (hr : r < w.nbudgets) :
    w.rungOf (w.index s r) = r := by
  rw [rungOf, splitIndex_index hr]

@[simp] theorem slotUse_index {s r : Nat} (hr : r < w.nbudgets) :
    w.slotUse (w.index s r) = r + 1 := by
  rw [slotUse, rungOf_index hr]

theorem index_lt_nactions {s r : Nat} (hs : s < w.nsolvers) (hr : r < w.nbudgets) :
    w.index s r < w.nactions := by
  have h : (s + 1) * w.nbudgets ≤ w.nsolvers * w.nbudgets := Nat.mul_le_mul_right _ hs
  rw [Nat.succ_mul] at h
  simp only [index, nactions]
  omega

theorem rungOf_lt (hpos : 0 < w.nbudgets) (a : Nat) : w.rungOf a < w.nbudgets :=
  Nat.mod_lt a hpos

theorem solver_lt {a : Nat} (ha : a < w.nactions) : (w.splitIndex a).1 < w.nsolvers :=
  Nat.div_lt_of_lt_mul (by rw [Nat.mul_comm]; exact ha)

theorem mem_choices {k s r : Nat} : (s, r) ∈ w.choices k ↔ s < w.nsolvers ∧ r < k := by
  simp only [choices, List.mem_flatMap, List.mem_map, List.mem_range, Prod.mk.injEq]
  constructor
  · rintro ⟨_, hs, _, hr, rfl, rfl⟩
    exact ⟨hs, hr⟩
  · rintro ⟨hs, hr⟩
    exact ⟨s, hs, r, hr, rfl, rfl⟩

/-- Every action of the world that uses at most `k` slots is a choice among the first
`k` rungs. -/
theorem choice_of_action {a k : Nat} (ha : a < w.nactions) (hk : w.rungOf a < k) :
    ∃ c ∈ w.choices k, w.index c.1 c.2 = a ∧ c.2 = w.rungOf a :=
  ⟨w.splitIndex a, mem_choices.mpr ⟨solver_lt ha, hk⟩, index_splitIndex a, rfl⟩

/-! ### Sequences within bounds -/

/-- The runs are actions of the world, at most `horizon` of them, and use at most this
many slots. -/
structure Admits (w : World α) (horizon slots : Nat) (runs : List Nat) : Prop where
  actions : ∀ a ∈ runs, a < w.nactions
  length : runs.length ≤ horizon
  slots : (runs.map w.slotUse).sum ≤ slots

theorem Admits.nil (horizon slots : Nat) : w.Admits horizon slots [] :=
  ⟨fun _ h => (List.not_mem_nil h).elim, Nat.zero_le _, Nat.zero_le _⟩

theorem Admits.cons {horizon slots a : Nat} {runs : List Nat} (ha : a < w.nactions)
    (hfit : w.slotUse a ≤ slots) (h : w.Admits horizon (slots - w.slotUse a) runs) :
    w.Admits (horizon + 1) slots (a :: runs) where
  actions x hx := by
    rcases List.mem_cons.mp hx with rfl | hx
    · exact ha
    · exact h.actions x hx
  length := Nat.succ_le_succ h.length
  slots := by
    have huse := h.slots
    rw [List.map_cons, List.sum_cons]
    omega

end SolverPortfolio.World

namespace SolverPortfolio

/-!
## Ceilings and budgets

The ceilings of a checked world are numbers, so each is over a budget or within it
(`World.not_lt_cost_iff`), and a test one way round says the same as the other.
-/

open Scalar Rounded

variable {α : Type} [Scalar α]

theorem World.cost_action (w : World α) (a : ℕ) :
    (w.action a).cost = w.ladder.budget (w.rungOf a) := rfl

theorem Scalar.IsBudget.isNaN {x : α} (h : IsBudget x) : isNaN x = false :=
  (Bool.or_eq_false_iff.mp h).1

variable [Rounded α]

theorem Scalar.IsBudget.value_ne_nan {x : α} (h : IsBudget x) : value x ≠ .nan :=
  isNaN_eq_false_iff.mp h.isNaN

theorem not_lt_of_le {x c : α} (h : c ≤ x) : ¬x < c := by
  rw [le_iff] at h
  rw [lt_iff, Exact.not_lt_iff h.2.1 h.1]
  exact h

/-- A number is over a budget or within it. -/
theorem not_lt_iff_le {x c : α} (hx : IsBudget x) (hc : isNaN c = false) : ¬x < c ↔ c ≤ x := by
  rw [lt_iff, le_iff, Exact.not_lt_iff hx.value_ne_nan (isNaN_eq_false_iff.mp hc)]

namespace World

theorem exists_step_value {w : World α} (hw : w.check = .ok ()) :
    ∃ step : ℝ, 0 < step ∧ value w.ladder.step = .real step :=
  isPositiveFinite_iff.mp (step_isPositiveFinite hw)

theorem isNaN_cost {w : World α} (hw : w.check = .ok ()) (a : ℕ) :
    isNaN (w.action a).cost = false := by
  obtain ⟨step, hpos, hstep⟩ := exists_step_value hw
  rw [isNaN_eq_false_iff, cost_action]
  exact (Ladder.step_le_budget hstep hpos (w.rungOf a)).2.1

/-- A ceiling is either over the budget or within it. -/
theorem not_lt_cost_iff {w : World α} (hw : w.check = .ok ()) {remaining : α}
    (hr : IsBudget remaining) (a : ℕ) :
    ¬remaining < (w.action a).cost ↔ (w.action a).cost ≤ remaining :=
  not_lt_iff_le hr (isNaN_cost hw a)

end World

end SolverPortfolio

namespace SolverPortfolio

/-!
## Planning in exact arithmetic

Rates and ceilings are real numbers, the ceilings of a checked world are positive, and the
slots of a budget are a whole part (`slotsWithin_real`).
-/

theorem rateOf_real (rates : List ℝ) (a : ℕ) :
    rateOf (rates.map Exact.real) a = .real (rates.getD a 0) := by
  rw [rateOf, Exact.zero_eq, List.getD_eq_getElem?_getD, List.getElem?_map,
    List.getD_eq_getElem?_getD]
  cases rates[a]? with
  | none => rfl
  | some r => rfl

theorem getD_mem_unit {rates : List ℝ} (h : ∀ r ∈ rates, 0 ≤ r ∧ r ≤ 1) (a : ℕ) :
    0 ≤ rates.getD a 0 ∧ rates.getD a 0 ≤ 1 := by
  rw [List.getD_eq_getElem?_getD]
  cases hget : rates[a]? with
  | none => simp
  | some r => exact h r (List.mem_of_getElem? hget)

/-! ### Slots -/

namespace Ladder

open Scalar

theorem tolerance_real : (tolerance : Exact) = .real (1 / 10 ^ 9) :=
  Exact.real_decimal_one (by norm_num)

theorem slotsWithin_real {l : Ladder Exact} {step x : ℝ} (hstep : l.step = .real step)
    (hpos : 0 < step) (hx : 0 < x) :
    l.slotsWithin (.real x) =
      min ⌊x / step + 1 / 10 ^ 9 * max (x / step) 1⌋₊ (wordBound - 1) := by
  have hfinite : isPositiveFinite (Exact.real x) = true := by simp [isPositiveFinite, hx]
  rw [slotsWithin_eq hfinite, padded, hstep, Exact.real_div _ hpos.ne', tolerance_real,
    Exact.one_eq, Exact.max_real, Exact.real_mul, Exact.real_add]
  rfl

end Ladder

/-! ### Worlds -/

namespace World

theorem exists_step {w : World Exact} (hw : w.check = .ok ()) :
    ∃ step : ℝ, 0 < step ∧ w.ladder.step = .real step :=
  Exact.eq_real_of_isPositiveFinite (step_isPositiveFinite hw)

theorem budget_real {w : World Exact} {step : ℝ} (hstep : w.ladder.step = .real step) (r : ℕ) :
    w.ladder.budget r = .real (step * (r + 1 : ℕ)) := by
  rw [Ladder.budget, hstep, Exact.ofNat_eq, Exact.real_mul]

/-- One solver on two rungs. -/
noncomputable def twoRungs : World Exact := ⟨["a"], ⟨.real 10, 2⟩⟩

theorem twoRungs_check : twoRungs.check = .ok () := by
  have hsound : twoRungs.ladder.isSound = true := by
    simp [twoRungs, Ladder.isSound, Scalar.isPositiveFinite]
  show twoRungs.ladder.check = .ok ()
  rw [Ladder.check, if_pos hsound]

theorem twoRungs_slots : twoRungs.ladder.slotsWithin (.real 20) = 2 := by
  rw [Ladder.slotsWithin_real rfl (by norm_num) (by norm_num)]
  norm_num [Scalar.wordBound]

/-- Rates for the two rungs. -/
theorem twoRungs_rates_mem_unit : ∀ r ∈ [(1 / 2 : ℝ), 3 / 4], 0 ≤ r ∧ r ≤ 1 := by
  intro r hr
  rcases List.mem_pair.mp hr with rfl | rfl <;> norm_num

end World

end SolverPortfolio

import SolverPortfolio.Proofs.Scalar.Rounded
import SolverPortfolio.World

/-!
# Slots of a budget

How the slots of a budget relate to the ceilings that fit into it, when budgets are
rounded numbers.

Counting slots pads the quotient of budget and step by a billionth, so `n` slots do not
mean that the ceiling of `n` steps fits. But half of them do (`budget_le_of_half`): the
padding and four roundings are far from making up for a factor of two. And whenever the
lowest ceiling fits there is a slot (`one_le_slotsWithin`).
-/

namespace SolverPortfolio.Ladder

open Scalar Rounded

/-! ## Whole parts -/

theorem wholePart_real_lt {x : ℝ} {n : ℕ} (hn : 0 < n) (h : x < n) :
    wholePart (Exact.real x) < n :=
  (min_le_left _ _).trans_lt ((Nat.floor_lt' hn.ne').mpr h)

theorem one_le_wholePart {a : Exact} (h : .real 1 ≤ a) : 1 ≤ wholePart a := by
  have hword : 1 ≤ wordBound - 1 := by decide
  cases a with
  | real x =>
      have hx : (1 : ℝ) ≤ x := (Exact.real_le _ _).mp h
      exact le_min (Nat.le_floor (by rwa [Nat.cast_one])) hword
  | posInf => exact hword
  | negInf => exact absurd h (Exact.not_real_le_negInf 1)
  | nan => exact absurd rfl h.2.1

theorem wholePart_lt (a : Exact) : wholePart a < wordBound := by
  have hword : wordBound - 1 < wordBound := by decide
  cases a with
  | real x => exact (min_le_right _ _).trans_lt hword
  | posInf => exact hword
  | negInf => exact Nat.zero_lt_of_lt hword
  | nan => exact Nat.zero_lt_of_lt hword

variable {α : Type} [Scalar α]

/-! ## Padding -/

/-- A position on the ladder with the slack that lookups allow. -/
def padded (position : α) : α := position + tolerance * Scalar.max position 1

theorem slotsWithin_eq {l : Ladder α} {remaining : α} (h : isPositiveFinite remaining = true) :
    l.slotsWithin remaining = wholePart (padded (remaining / l.step)) := if_pos h

variable [Rounded α]

theorem tolerance_near :
    ∃ t : ℝ, value (tolerance : α) = .real t ∧ 1 / 10 ^ 10 ≤ t ∧ t ≤ 1 / 10 ^ 8 := by
  have hvalue : value (tolerance : α) = nearest α ((1 : ℕ) / 10 ^ 9) :=
    value_decimal (by norm_num) (by norm_num)
  obtain ⟨t, ht, hnear⟩ := nearest_near_mid α (x := (1 : ℕ) / 10 ^ 9) (by norm_num)
    (by norm_num)
  obtain ⟨hlow, hhigh⟩ := abs_le.mp hnear
  refine ⟨t, hvalue.trans ht, ?_, ?_⟩
  · norm_num at hlow ⊢
    linarith
  · norm_num at hhigh ⊢
    linarith

theorem value_max_one {q : α} {x : ℝ} (hq : value q = .real x) :
    value (Scalar.max q 1) = .real (max x 1) := by
  have hnan : isNaN q = false := isNaN_eq_false_iff.mpr (by rw [hq]; exact Exact.noConfusion)
  rw [Scalar.max, if_neg (by rw [hnan]; exact Bool.false_ne_true)]
  split
  · rename_i hlt
    rw [lt_iff, hq, value_one, Exact.real_lt] at hlt
    rw [value_one, max_eq_right hlt.le]
  · rename_i hlt
    rw [lt_iff, hq, value_one, Exact.real_lt, not_lt] at hlt
    rw [hq, max_eq_left hlt]

/-- Of a position of at least one, padding does not take anything away. -/
theorem one_le_padded {q : α} (hq : .real 1 ≤ value q) : .real 1 ≤ value (padded q) := by
  obtain ⟨t, ht, ht0, ht1⟩ := tolerance_near (α := α)
  have htpos : 0 < t := lt_of_lt_of_le (by norm_num) ht0
  rw [padded, value_add]
  cases hx : value q with
  | real x =>
      rw [hx, Exact.real_le] at hq
      have hm : value (Scalar.max q 1) = .real x := by rw [value_max_one hx, max_eq_left hq]
      obtain ⟨e, he, he0, _⟩ := nearest_between α (nearest_zero α) (nearest_of_value hm)
        (mul_nonneg htpos.le (zero_le_one.trans hq))
        (by nlinarith : t * x ≤ x)
      have hpad : value (tolerance * Scalar.max q 1) = .real e := by
        rw [value_mul, ht, hm, Exact.real_mul]
        exact he
      rw [hpad, Exact.real_add, ← nearest_one α]
      exact nearest_mono (by linarith)
  | posInf =>
      have hm : value (Scalar.max q 1) = .posInf := by
        have hnan : isNaN q = false :=
          isNaN_eq_false_iff.mpr (by rw [hx]; exact Exact.noConfusion)
        have hlt : ¬q < 1 := by rw [lt_iff, hx]; exact Exact.not_posInf_lt _
        rw [Scalar.max, if_neg (by rw [hnan]; exact Bool.false_ne_true), if_neg hlt, hx]
      have hpad : value (tolerance * Scalar.max q 1) = .posInf := by
        rw [value_mul, ht, hm]
        show (Exact.infinite (SignType.sign t * 1)).rounded _ = _
        rw [sign_pos htpos]
        rfl
      rw [hpad]
      exact Exact.real_le_posInf 1
  | negInf => exact absurd (hx ▸ hq) (Exact.not_real_le_negInf 1)
  | nan => exact absurd hx hq.2.1

/-- A position of at most `u` steps stays below `2 * u` when it is padded. -/
theorem padded_lt {q : α} {x : ℝ} {u : ℕ} (hq : value q = .real x) (h0 : 0 ≤ x)
    (hu1 : 1 ≤ u) (hu2 : u ≤ 2 ^ 64) (hqu : value q ≤ nearest α u) :
    ∃ y : ℝ, value (padded q) = .real y ∧ y < 2 * u := by
  have hone : (1 : ℝ) ≤ u := by exact_mod_cast hu1
  have hbig : (u : ℝ) ≤ 2 ^ 64 := by exact_mod_cast hu2
  obtain ⟨v, hv, hvnear⟩ := nearest_near_mid α (x := u) (by norm_num; linarith)
    (hbig.trans (by norm_num))
  have hvu : v ≤ u + u / 2 ^ 53 := by linarith [(abs_le.mp hvnear).2]
  have hv1 : 1 ≤ v := by
    have hle := nearest_mono (α := α) hone
    rwa [nearest_one, hv, Exact.real_le] at hle
  have hxv : x ≤ v := by rwa [hq, hv, Exact.real_le] at hqu
  have hm : max x 1 ≤ v := max_le hxv hv1
  obtain ⟨t, ht, ht0, ht1⟩ := tolerance_near (α := α)
  have htm0 : 1 / 10 ^ 10 ≤ t * max x 1 := by
    nlinarith [le_max_right x 1]
  have htm1 : t * max x 1 ≤ u / 10 ^ 7 := by
    nlinarith [le_max_right x 1]
  obtain ⟨e, he, henear⟩ := nearest_near_mid α (x := t * max x 1)
    (le_trans (by norm_num) htm0) (htm1.trans (by norm_num; linarith))
  have hpad : value (tolerance * Scalar.max q 1) = .real e := by
    rw [value_mul, ht, value_max_one hq, Exact.real_mul]
    exact he
  have he0 : 0 ≤ e := by
    have := (abs_le.mp henear).1
    norm_num at this htm0
    linarith
  have heu : e ≤ u / 10 ^ 6 := by
    have := (abs_le.mp henear).2
    norm_num at this htm1 ⊢
    linarith
  have hsum : x + e ≤ u * (3 / 2) := by
    norm_num at hvu heu
    linarith
  obtain ⟨z, hz, hznear⟩ := nearest_near_mid α (x := u * (3 / 2))
    (by norm_num; linarith) (by norm_num; linarith)
  obtain ⟨y, hy, _, hyz⟩ := Exact.eq_real_of_between
    (nearest_zero α ▸ nearest_mono (α := α) (by linarith : 0 ≤ x + e))
    (hz ▸ nearest_mono (α := α) hsum)
  refine ⟨y, ?_, ?_⟩
  · rw [padded, value_add, hq, hpad, Exact.real_add]
    exact hy
  · have := (abs_le.mp hznear).2
    norm_num at this
    linarith

/-! ## Slots and ceilings -/

section ladder

variable {l : Ladder α} {step : ℝ} (hstep : value l.step = .real step) (hpos : 0 < step)

include hstep hpos

/-- No ceiling is below the step. -/
theorem step_le_budget (rung : ℕ) : .real step ≤ value (l.budget rung) := by
  have hone : (1 : ℝ) ≤ ((rung + 1 : ℕ) : ℝ) := by exact_mod_cast Nat.le_add_left 1 rung
  have hle := nearest_mono (α := α) hone
  rw [budget, value_mul, value_ofNat, hstep]
  rw [nearest_one] at hle
  cases hf : nearest α ((rung + 1 : ℕ) : ℝ) with
  | real f =>
      rw [hf, Exact.real_le] at hle
      rw [Exact.real_mul, ← nearest_of_value hstep]
      exact nearest_mono (le_mul_of_one_le_right hpos.le hle)
  | posInf =>
      show _ ≤ (Exact.infinite (SignType.sign step * 1)).rounded _
      rw [sign_pos hpos]
      exact Exact.real_le_posInf step
  | negInf => exact absurd (hf ▸ hle) (Exact.not_real_le_negInf 1)
  | nan => exact absurd hf (nearest_ne_nan α _)

theorem value_position {remaining : α} {x : ℝ} (hx : value remaining = .real x) :
    value (remaining / l.step) = nearest α (x / step) := by
  have hne : value l.step ≠ .real 0 := by
    rw [hstep]
    exact fun h => hpos.ne' (Exact.real.inj h)
  rw [value_div _ hne, hx, hstep, Exact.real_div _ hpos.ne']
  rfl

/-- A budget with room for the lowest ceiling has a slot. -/
theorem one_le_slotsWithin {remaining : α} {x : ℝ} (hx : value remaining = .real x)
    (hle : step ≤ x) : 1 ≤ l.slotsWithin remaining := by
  have hfinite : isPositiveFinite remaining = true :=
    isPositiveFinite_iff.mpr ⟨x, hpos.trans_le hle, hx⟩
  have hposition : .real 1 ≤ value (remaining / l.step) := by
    rw [value_position hstep hpos hx, ← nearest_one α]
    exact nearest_mono ((one_le_div hpos).mpr hle)
  rw [slotsWithin_eq hfinite, wholePart_eq]
  exact one_le_wholePart (one_le_padded hposition)

/-- A ceiling that takes no more than half of the slots fits into the budget. -/
theorem budget_le_of_half {remaining : α} {rung : ℕ}
    (hhalf : 2 * (rung + 1) ≤ l.slotsWithin remaining) : l.budget rung ≤ remaining := by
  have hfinite : isPositiveFinite remaining = true := by
    by_contra hnot
    rw [slotsWithin, if_neg hnot] at hhalf
    omega
  obtain ⟨x, hx0, hx⟩ := isPositiveFinite_iff.mp hfinite
  have hposition := value_position hstep hpos hx
  rw [slotsWithin_eq hfinite, wholePart_eq] at hhalf
  have hrung : rung + 1 ≤ 2 ^ 64 := by
    have hword : wordBound = 2 ^ 64 := rfl
    have := wholePart_lt (value (padded (remaining / l.step)))
    omega
  have hbig : ((rung + 1 : ℕ) : ℝ) ≤ 2 ^ 64 := by exact_mod_cast hrung
  have hone : (1 : ℝ) ≤ ((rung + 1 : ℕ) : ℝ) := by exact_mod_cast Nat.le_add_left 1 rung
  obtain ⟨f, hf, _⟩ := nearest_near_mid α (x := ((rung + 1 : ℕ) : ℝ)) (by norm_num; linarith)
    (hbig.trans (by norm_num))
  -- otherwise the position would be at most the rung's, and its padding below twice that
  by_contra hover
  have hbelow : x < step * f := by
    refine not_le.mp fun hle => hover ?_
    rw [le_iff, hx, budget, value_mul, value_ofNat, hstep, hf, Exact.real_mul,
      ← nearest_of_value hx]
    exact nearest_mono hle
  have hle : value (remaining / l.step) ≤ nearest α ((rung + 1 : ℕ) : ℝ) := by
    rw [hposition, hf, ← nearest_of_value ((value_ofNat (rung + 1)).trans hf)]
    exact nearest_mono ((div_le_iff₀ hpos).mpr (by linarith))
  obtain ⟨q, hq, hq0, _⟩ := Exact.eq_real_of_between (hposition ▸ nearest_zero α ▸
    nearest_mono (α := α) (div_nonneg hx0.le hpos.le)) (hf ▸ hle)
  obtain ⟨y, hy, hylt⟩ := padded_lt hq hq0 (Nat.le_add_left 1 rung) hrung hle
  rw [hy] at hhalf
  have hsmall := wholePart_real_lt (x := y) (n := 2 * (rung + 1)) (by omega)
    (by push_cast at hylt ⊢; exact hylt)
  omega

end ladder

end SolverPortfolio.Ladder

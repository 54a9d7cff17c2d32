import SolverPortfolio.Proofs.Ladder.Building
import SolverPortfolio.Proofs.Scalar.RoundedDouble

/-!
# Ladders of doubles

Step and size are checked when a ladder is made, and the ceilings follow from them by one rounded
product each. Two things can happen to a product that neither check sees. It may overflow, and then
the ceilings make no ladder, and any number stands in for the one that overflowed, because an
infinite distance is not over an infinite tolerance. Or it may be rounded to the same double as the
one before it.

Multiples of a step are rounded apart where the grid is no coarser than the step
(`Binary.onGrid_mul_lt`), and up to `2 ^ 52` steps it is not (`Binary.two_zpow_spacing_mul_le`).
Beyond `2 ^ 53` rungs the counts of steps themselves are the same (`budget_stuck`). For the distance
of a number from its ceiling the rounded test is compared with the real one
(`abs_sub_le_of_standsOn`). `accepted_is_ladder` is the headline.
-/

namespace SolverPortfolio

open Scalar Rounded

/-! ## Multiples that stay apart -/

namespace Binary

/-- A double that is positive is at least one unit of its grid. -/
theorem two_zpow_spacing_le {x : ℝ} (hx : 0 < x) (h : onGrid x = x) : 2 ^ spacing x ≤ x := by
  have hunit : (1 : ℝ) ≤ halfEven (units x) := by
    have hne : halfEven (units x) ≠ 0 := by
      intro hzero
      rw [onGrid, hzero, Nat.cast_zero, zero_mul] at h
      exact hx.ne h
    exact_mod_cast Nat.one_le_iff_ne_zero.mpr hne
  calc (2 : ℝ) ^ spacing x ≤ halfEven (units x) * 2 ^ spacing x :=
        le_mul_of_one_le_left (two_zpow_pos _).le hunit
    _ = x := h

/-- Up to `2 ^ 52` steps the grid is no coarser than the step. -/
theorem two_zpow_spacing_mul_le {step : ℝ} {n : ℕ} (hpos : 0 < step) (hstep : onGrid step = step)
    (hn : 0 < n) (hn' : n ≤ 2 ^ 52) : 2 ^ spacing (n * step) ≤ step := by
  have hmul : 0 < n * step := mul_pos (Nat.cast_pos.mpr hn) hpos
  have hsteps : (n : ℝ) ≤ 2 ^ 52 := by exact_mod_cast hn'
  rw [spacing]
  rcases max_choice (Int.log 2 (n * step) - 52) (-1074) with hmax | hmax
  · have hlog : (2 : ℝ) ^ Int.log 2 (n * step) ≤ n * step := by
      exact_mod_cast Int.zpow_log_le_self one_lt_two hmul
    rw [hmax, zpow_sub₀ two_ne_zero, div_le_iff₀ (two_zpow_pos _)]
    calc (2 : ℝ) ^ Int.log 2 (n * step) ≤ n * step := hlog
      _ ≤ step * 2 ^ (52 : ℤ) := by
          rw [mul_comm]
          exact mul_le_mul_of_nonneg_left hsteps hpos.le
  · rw [hmax]
    calc (2 : ℝ) ^ (-1074 : ℤ) ≤ 2 ^ spacing step :=
          zpow_le_zpow_right₀ one_le_two (le_max_right _ _)
      _ ≤ step := two_zpow_spacing_le hpos hstep

/-- Multiples of a step are rounded apart where the grid is no coarser than the step. Halfway
between two points they cannot meet, because multiples of the spacing are points themselves. -/
theorem onGrid_mul_lt {step : ℝ} {m n : ℕ} (hpos : 0 < step) (hm : 0 < m) (hmn : m < n)
    (hspacing : 2 ^ spacing (n * step) ≤ step) : onGrid (m * step) < onGrid (n * step) := by
  have hx : 0 < m * step := mul_pos (Nat.cast_pos.mpr hm) hpos
  have hxy : m * step ≤ n * step := mul_le_mul_of_nonneg_right (by exact_mod_cast hmn.le) hpos.le
  have hapart : m * step + step ≤ n * step := by
    have hsucc : (m : ℝ) + 1 ≤ n := by exact_mod_cast hmn
    nlinarith
  have hgrids := spacing_mono hx hxy
  have hpow : (2 : ℝ) ^ spacing (m * step) ≤ 2 ^ spacing (n * step) :=
    zpow_le_zpow_right₀ one_le_two hgrids
  refine lt_of_le_of_ne (onGrid_mono hx.le hxy) fun heq => ?_
  have hlow := (abs_le.mp (abs_onGrid_sub_le hx.le)).2
  have hhigh := (abs_le.mp (abs_onGrid_sub_le (hx.le.trans hxy))).1
  have hstep : step = 2 ^ spacing (n * step) := le_antisymm (by linarith) hspacing
  have hkept : onGrid (m * step) = m * step ∧ onGrid (n * step) = n * step := by
    constructor
    · rw [hstep]
      refine onGrid_eq_self ?_
      rw [← hstep]
      exact hgrids
    · rw [hstep]
      refine onGrid_eq_self ?_
      rw [← hstep]
  rw [hkept.1, hkept.2] at heq
  linarith

/-- A magnitude that does not overflow is rounded to a point of its grid. -/
theorem onGrid_eq_of_nearest {x y : ℝ} (hx : 0 ≤ x) (h : nearest x = .real y) :
    onGrid x = y ∧ y < overflow := by
  rw [nearest_of_nonneg hx, overflowed] at h
  split at h
  · rename_i hlt
    obtain rfl := Exact.real.inj h
    exact ⟨rfl, hlt⟩
  · cases h

end Binary

/-! ## Ceilings of doubles -/

namespace Ladder

variable {l : Ladder Float} {i j : ℕ}

/-- Up to `2 ^ 53` a ceiling is the nearest double to a multiple of the step. -/
theorem value_budget_double {step : ℝ} (hstep : value l.step = .real step) (hi : i + 1 ≤ 2 ^ 53) :
    value (l.budget i) = Binary.nearest ((i + 1 : ℕ) * step) := by
  have hcount : nearest Float ((i + 1 : ℕ) : ℝ) = .real (i + 1 : ℕ) := nearest_natCast hi
  rw [value_budget, hcount, hstep, Exact.real_mul, mul_comm]
  rfl

/-- Ceilings that do not overflow ascend for the first `2 ^ 52` rungs. -/
theorem budget_lt_budget (h : l.isSound = true) (hij : i < j) (hj : j + 1 ≤ 2 ^ 52)
    (hfinite : isFinite (l.budget j) = true) : l.budget i < l.budget j := by
  obtain ⟨step, hpos, hstep⟩ := exists_step_value h
  have hgrid : Binary.onGrid step = step :=
    (Binary.onGrid_eq_of_nearest hpos.le (nearest_of_value hstep)).1
  have hspacing := Binary.two_zpow_spacing_mul_le hpos hgrid (Nat.succ_pos j) hj
  have hlt := Binary.onGrid_mul_lt hpos (Nat.succ_pos i) (Nat.succ_lt_succ hij) hspacing
  obtain ⟨x, hx⟩ := isFinite_iff.mp (isFinite_budget h hij.le hfinite)
  obtain ⟨y, hy⟩ := isFinite_iff.mp hfinite
  have hnonneg : ∀ k : ℕ, (0 : ℝ) ≤ (k + 1 : ℕ) * step :=
    fun k => mul_nonneg (Nat.cast_nonneg _) hpos.le
  have hlow := (value_budget_double hstep (by omega)).symm.trans hx
  have hhigh := (value_budget_double hstep (by omega)).symm.trans hy
  rw [(Binary.onGrid_eq_of_nearest (hnonneg i) hlow).1,
    (Binary.onGrid_eq_of_nearest (hnonneg j) hhigh).1] at hlt
  rw [lt_iff, hx, hy, Exact.real_lt]
  exact hlt

/-- The first whole number that is no double rounds to the one before it. -/
theorem ofNat_two_pow_succ : (ofNat (2 ^ 53 + 1) : Float) = ofNat (2 ^ 53) := by
  rfl

theorem budget_stuck (l : Ladder Float) : l.budget (2 ^ 53) = l.budget (2 ^ 53 - 1) := by
  rw [budget, budget, ofNat_two_pow_succ]
  rfl

/-! ## How far a ceiling may be off -/

theorem tolerance_close : ∃ t : ℝ, value (tolerance : Float) = .real t ∧ 1 / 10 ^ 10 ≤ t ∧
    t ≤ (1 + 1 / 2 ^ 53) / 10 ^ 9 := by
  obtain ⟨t, ht, hlow, _⟩ := tolerance_near (α := Float)
  have hvalue : value (tolerance : Float) = nearest Float ((1 : ℕ) / 10 ^ 9) :=
    value_decimal (by norm_num) (by norm_num)
  obtain ⟨t', ht', hnear⟩ := nearest_near_mid Float (x := (1 : ℕ) / 10 ^ 9) (by norm_num)
    (by norm_num)
  obtain rfl := Exact.real.inj (ht.symm.trans (hvalue.trans ht'))
  refine ⟨t, ht, hlow, ?_⟩
  have hhigh := (abs_le.mp hnear).2
  norm_num at hhigh ⊢
  linarith

/-- The magnitude of a rounded number is its magnitude rounded. -/
theorem value_abs_of_nearest {a : Float} {x : ℝ} (ha : value a = Binary.nearest x) :
    value (Scalar.abs a) = Binary.nearest |x| := by
  unfold Scalar.abs
  rcases le_total 0 x with hx | hx
  · have hnonneg : ¬a < 0 := by
      rw [lt_iff, ha, value_zero, ← Binary.nearest_zero]
      refine (Exact.not_lt_iff (nearest_ne_nan Float x) (nearest_ne_nan Float 0)).mpr ?_
      exact Binary.nearest_mono hx
    rw [if_neg hnonneg, ha, abs_of_nonneg hx]
  · rw [abs_of_nonpos hx, Binary.nearest_neg, ← ha]
    split
    · exact value_neg a
    · rename_i hnonneg
      rw [lt_iff, value_zero, Exact.not_lt_iff (ha ▸ nearest_ne_nan Float x) Exact.noConfusion]
        at hnonneg
      have hle := Binary.nearest_mono hx
      rw [Binary.nearest_zero, ← ha] at hle
      obtain ⟨y, hy, hlow, hhigh⟩ := Exact.eq_real_of_between hnonneg hle
      rw [hy, le_antisymm hhigh hlow, Exact.real_neg, neg_zero]

/-- The tolerance of a ceiling is in the middle of the range of doubles. -/
theorem mid_range {c e : ℝ} (hc : 1 / 10 ^ 10 ≤ c) (hc' : c ≤ 1 / 10 ^ 8) (he : 1 / 2 ^ 900 ≤ e)
    (he' : e ≤ 2 ^ (1024 : ℤ)) : 1 / 2 ^ 1000 ≤ c * e ∧ c * e ≤ 2 ^ 1000 := by
  have hpos : 0 ≤ e := le_trans (by positivity) he
  constructor
  · calc (1 : ℝ) / 2 ^ 1000 = 1 / 2 ^ 100 * (1 / 2 ^ 900) := by
          rw [div_mul_div_comm, one_mul, ← pow_add]
      _ ≤ c * e := mul_le_mul (le_trans (by norm_num) hc) he (by positivity)
          (le_trans (by norm_num) hc)
  · calc c * e ≤ 1 / 2 ^ 24 * 2 ^ (1024 : ℤ) :=
          mul_le_mul (hc'.trans (by norm_num)) he' hpos (by positivity)
      _ = 2 ^ 1000 := by
          rw [show (1024 : ℤ) = ((24 + 1000 : ℕ) : ℤ) from rfl, zpow_natCast, pow_add, one_div,
            inv_mul_cancel_left₀ (by positivity)]

/-- A number that stands on a rung is within a billionth of its ceiling, but for the rounding of
the bound, unless the ceiling is next to nothing. -/
theorem abs_sub_le_of_standsOn {b : Float} (hstand : standsOn l.step b i = true) {x e : ℝ}
    (hx : value b = .real x) (he : value (l.budget i) = .real e) (hlow : 1 / 2 ^ 900 ≤ e) :
    |x - e| ≤ (1 + 1 / 2 ^ 50) / 10 ^ 9 * e := by
  have hpos : 0 < e := lt_of_lt_of_le (by positivity) hlow
  have hhigh : e < 2 ^ (1024 : ℤ) :=
    (Binary.onGrid_eq_of_nearest hpos.le (nearest_of_value he)).2
  obtain ⟨t, ht, ht0, ht1⟩ := tolerance_close
  have hslack : value (tolerance * l.budget i) = Binary.nearest (t * e) := by
    rw [value_mul, ht, he, Exact.real_mul]
    rfl
  have hdistance : value (Scalar.abs (b - l.budget i)) = Binary.nearest |x - e| := by
    refine value_abs_of_nearest ?_
    rw [value_sub, hx, he, Exact.real_sub]
    rfl
  have hwithin := (le_iff _ _).mp (abs_sub_budget_le hstand (isFinite_iff.mpr ⟨e, he⟩))
  rw [hslack, hdistance] at hwithin
  -- otherwise the distance would be rounded to more than the bound is
  by_contra hover
  have hbound := Binary.nearest_mono (not_le.mp hover).le
  have hmid : ∀ c : ℝ, 1 / 10 ^ 10 ≤ c → c ≤ 1 / 10 ^ 8 → 1 / 2 ^ 1000 ≤ c * e ∧ c * e ≤ 2 ^ 1000 :=
    fun c hc hc' => mid_range hc hc' hlow hhigh.le
  obtain ⟨hw0, hw1⟩ := hmid ((1 + 1 / 2 ^ 50) / 10 ^ 9) (by norm_num) (by norm_num)
  obtain ⟨hr0, hr1⟩ := hmid t ht0 (ht1.trans (by norm_num))
  obtain ⟨w, hw, hwnear⟩ := Binary.nearest_near hw0 hw1
  obtain ⟨r, hr, hrnear⟩ := Binary.nearest_near hr0 hr1
  have hle := Exact.le_trans hbound hwithin
  rw [hw, hr, Exact.real_le] at hle
  have hwlow := (abs_le.mp hwnear).1
  have hrhigh := (abs_le.mp hrnear).2
  have hte : t * e ≤ (1 + 1 / 2 ^ 53) / 10 ^ 9 * e := mul_le_mul_of_nonneg_right ht1 hpos.le
  norm_num at hwlow hrhigh hte hle
  linarith

/-! ## The headline theorem -/

/-- What holds of the ceilings of a ladder, whether they overflow or not. -/
structure IsRegular (l : Ladder Float) : Prop where
  positive : ∀ i, 0 < l.budget i
  mono : ∀ i j, i ≤ j → l.budget i ≤ l.budget j
  finite : l.IsFinite ↔ ∀ b ∈ l.budgets, isFinite b = true
  /-- Ceilings that do not overflow make the same ladder again. -/
  rebuilt : l.IsFinite →
    ∃ l', ofBudgets l.budgets = .ok l' ∧ (l'.step == l.step) = true ∧ l'.size = l.size
  /-- Others make none. -/
  reported : ¬l.IsFinite → ofBudgets l.budgets = .error (.invalidLadder l.budgets)
  /-- Ceilings that do not overflow are distinct on ladders of up to `2 ^ 52` rungs. -/
  ascending : l.IsFinite → l.size ≤ 2 ^ 52 → l.budgets.Pairwise (· < ·)
  /-- Beyond `2 ^ 53` rungs two of them are the same. -/
  stuck : 2 ^ 53 < l.size → ¬l.budgets.Pairwise (· < ·)

/-- What holds of the ceilings that a ladder was built from. -/
structure BuiltFrom (l : Ladder Float) (bs : List Float) : Prop where
  /-- A number is within the tolerance of its ceiling, in doubles, and, next to nothing apart,
  within a billionth of it but for rounding. -/
  close : ∀ i b, bs[i]? = some b → isFinite (l.budget i) = true →
    Scalar.abs (b - l.budget i) ≤ tolerance * l.budget i ∧
      ∀ x e : ℝ, value b = .real x → value (l.budget i) = .real e → 1 / 2 ^ 900 ≤ e →
        |x - e| ≤ (1 + 1 / 2 ^ 50) / 10 ^ 9 * e
  /-- Where the ceiling overflows, any number would have done. -/
  loose : ∀ i, isFinite (l.budget i) = false → ∀ b, isFinite b = true →
    ofBudgets (bs.set i b) = .ok l

theorem isRegular (h : l.isSound = true) : l.IsRegular where
  positive := budget_pos h
  mono _ _ := budget_mono h
  finite := isFinite_iff_forall h
  rebuilt hfinite := by
    obtain ⟨step, _, hstep⟩ := exists_step_value h
    refine ⟨_, ofBudgets_budgets h hfinite, ?_, rfl⟩
    rw [EqualByValue.beq_iff, value_budget_zero h, hstep]
    exact ⟨Exact.noConfusion, rfl⟩
  reported := ofBudgets_of_overflow h
  ascending hfinite hsize := by
    rw [budgets, List.pairwise_map]
    refine List.pairwise_lt_range.imp_of_mem ?_
    intro i j _ hj hij
    rw [List.mem_range] at hj
    exact budget_lt_budget h hij (by omega) (isFinite_budget h (by omega) hfinite)
  stuck hsize hascending := by
    rw [List.pairwise_iff_getElem] at hascending
    have hlt := hascending (2 ^ 53 - 1) (2 ^ 53) (by simp [budgets]; omega)
      (by simpa [budgets] using hsize) (by omega)
    simp only [budgets, List.getElem_map, List.getElem_range, budget_stuck] at hlt
    exact irrefl _ hlt

theorem builtFrom {bs : List Float} (h : ofBudgets bs = .ok l) : l.BuiltFrom bs where
  close i b hb hfinite := by
    obtain ⟨_, _, _, hall⟩ := ofBudgets_eq_ok_iff.mp h
    have hstand := hall i b hb
    exact ⟨abs_sub_budget_le hstand hfinite, fun x e => abs_sub_le_of_standsOn hstand⟩
  loose _ hover _ hb := ofBudgets_set h hover hb

/-- **What is accepted is a ladder, as long as nothing overflows.** Every way to get a ladder gives
one whose ceilings are positive and never descend. They are finite exactly if the highest is, they
then make the same ladder again, and up to `2 ^ 52` of them ascend. Ceilings that a ladder was
built from are within a billionth of its own, where these do not overflow. -/
theorem accepted_is_ladder (h : l.Accepted) :
    l.IsRegular ∧ ∀ bs, ofBudgets bs = .ok l → l.BuiltFrom bs :=
  ⟨isRegular h.isSound, fun _ => builtFrom⟩

/-- A list that falls is taken where its ceilings overflow. -/
example : (ofBudgets [(1e308 : Float), 1e307]).toOption.isSome = true := by decide +kernel

/-- Three rungs. -/
def threeRungs : Ladder Float := ⟨10, 3⟩

theorem accepted_is_ladder_threeRungs :
    threeRungs.budgets.Pairwise (· < ·) ∧
      (∃ l', ofBudgets threeRungs.budgets = .ok l' ∧ l'.size = 3) ∧
      Scalar.abs (20.00000001 - threeRungs.budget 1) ≤ tolerance * threeRungs.budget 1 := by
  have hfinite : threeRungs.IsFinite := by
    show isFinite (threeRungs.budget 2) = true
    decide +kernel
  have hchecked : threeRungs.check = .ok () := rfl
  have hbuilt : ofBudgets [10, 20.00000001, 30] = .ok threeRungs := rfl
  obtain ⟨hregular, hlists⟩ := accepted_is_ladder (.decoded hchecked)
  refine ⟨hregular.ascending hfinite (by decide), ?_, ?_⟩
  · obtain ⟨l', hl', _, hsize⟩ := hregular.rebuilt hfinite
    exact ⟨l', hl', hsize⟩
  · exact ((hlists _ hbuilt).close 1 _ rfl (by decide +kernel)).1

end Ladder

end SolverPortfolio

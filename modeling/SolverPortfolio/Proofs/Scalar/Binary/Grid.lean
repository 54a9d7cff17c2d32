import Mathlib
import SolverPortfolio.Proofs.Scalar.Exact

/-!
# Rounding

A real number is rounded to a grid of powers of two, and beyond the last grid to infinity.
-/

namespace SolverPortfolio.Binary

/-!
## Rounding to a grid

The magnitudes that a double can hold lie on grids of powers of two: below `2 ^ (k + 1)`
and from `2 ^ k` on, the spacing is `2 ^ (k - 52)`, and never less than `2 ^ (-1074)`
(`spacing`). A magnitude is rounded to the nearest point of its grid, halfway cases to
the even one (`onGrid`).

Rounding is monotone although the spacing changes with the magnitude, because the
magnitudes where it changes are points of both grids.
-/

/-! ### The nearest natural -/

/-- The nearest natural number, the even one of two. -/
noncomputable def halfEven (t : ℝ) : ℕ :=
  if t - ⌊t⌋₊ < 1 / 2 then ⌊t⌋₊
  else if 1 / 2 < t - ⌊t⌋₊ then ⌊t⌋₊ + 1
  else ⌊t⌋₊ + ⌊t⌋₊ % 2

theorem floor_le_halfEven (t : ℝ) : ⌊t⌋₊ ≤ halfEven t := by
  unfold halfEven
  split
  · exact le_rfl
  · split
    · exact Nat.le_succ _
    · exact Nat.le_add_right _ _

theorem halfEven_le_floor_add_one (t : ℝ) : halfEven t ≤ ⌊t⌋₊ + 1 := by
  unfold halfEven
  split
  · exact Nat.le_succ _
  · split
    · exact le_rfl
    · exact Nat.add_le_add_left (Nat.le_of_lt_succ (Nat.mod_lt _ (by decide))) _

@[simp] theorem halfEven_natCast (n : ℕ) : halfEven n = n := by
  rw [halfEven, Nat.floor_natCast, sub_self, if_pos (by norm_num)]

theorem halfEven_mono {s t : ℝ} (h : s ≤ t) : halfEven s ≤ halfEven t := by
  rcases (Nat.floor_le_floor h).lt_or_eq with hlt | heq
  · exact (halfEven_le_floor_add_one s).trans (hlt.trans_le (floor_le_halfEven t))
  · -- on one unit only the distance to the floor counts
    unfold halfEven
    rw [heq]
    have hmod : ⌊t⌋₊ % 2 < 2 := Nat.mod_lt _ (by decide)
    split_ifs <;> first | omega | (exfalso; linarith)

theorem abs_halfEven_sub_le {t : ℝ} (h : 0 ≤ t) : |(halfEven t : ℝ) - t| ≤ 1 / 2 := by
  have hlow := Nat.floor_le h
  have hhigh := Nat.lt_floor_add_one t
  unfold halfEven
  split
  · rw [abs_le]
    constructor <;> linarith
  · split
    · rw [abs_le]
      push_cast
      constructor <;> linarith
    · have hmid : t - ⌊t⌋₊ = 1 / 2 := by linarith
      rw [abs_le]
      rcases Nat.mod_two_eq_zero_or_one ⌊t⌋₊ with hmod | hmod <;> rw [hmod] <;> push_cast <;>
        constructor <;> linarith

/-! ### The grid of a magnitude -/

/-- The exponent of the grid that a magnitude is rounded to. -/
noncomputable def spacing (x : ℝ) : ℤ := max (Int.log 2 x - 52) (-1074)

/-- A magnitude as a multiple of its spacing. -/
noncomputable def units (x : ℝ) : ℝ := x / 2 ^ spacing x

/-- The point of its grid that a magnitude is rounded to. -/
noncomputable def onGrid (x : ℝ) : ℝ := halfEven (units x) * 2 ^ spacing x

/-- A mantissa and an exponent. -/
noncomputable abbrev scaled (m : ℕ) (e : ℤ) : ℝ := m * 2 ^ e

/-- What no finite double reaches. -/
noncomputable abbrev overflow : ℝ := 2 ^ (1024 : ℤ)

theorem two_zpow_pos (e : ℤ) : (0 : ℝ) < 2 ^ e := zpow_pos two_pos e

theorem units_mul (x : ℝ) : units x * 2 ^ spacing x = x :=
  div_mul_cancel₀ x (two_zpow_pos _).ne'

theorem units_nonneg {x : ℝ} (h : 0 ≤ x) : 0 ≤ units x := div_nonneg h (two_zpow_pos _).le

theorem onGrid_nonneg (x : ℝ) : 0 ≤ onGrid x :=
  mul_nonneg (Nat.cast_nonneg _) (two_zpow_pos _).le

/-- Below the next power of two a magnitude has less than `2 ^ 53` units. -/
theorem units_lt {x : ℝ} : units x < 2 ^ 53 := by
  rw [units, div_lt_iff₀ (two_zpow_pos _)]
  have hlog : x < 2 ^ (Int.log 2 x + 1) := by exact_mod_cast Int.lt_zpow_succ_log_self one_lt_two x
  have hexp : Int.log 2 x + 1 ≤ 53 + spacing x := by
    have := le_max_left (Int.log 2 x - 52) (-1074)
    rw [← spacing] at this
    omega
  calc x < 2 ^ (Int.log 2 x + 1) := hlog
    _ ≤ 2 ^ (53 + spacing x) := zpow_le_zpow_right₀ one_le_two hexp
    _ = 2 ^ 53 * 2 ^ spacing x := by rw [zpow_add₀ two_ne_zero]; rfl

/-- Above the finest grid a magnitude has at least `2 ^ 52` units. -/
theorem le_units {x : ℝ} (hx : 0 < x) (h : -1074 < spacing x) : 2 ^ 52 ≤ units x := by
  rw [units, le_div_iff₀ (two_zpow_pos _)]
  have hexp : 52 + spacing x ≤ Int.log 2 x := by
    rw [spacing] at h ⊢
    omega
  calc (2 : ℝ) ^ 52 * 2 ^ spacing x = 2 ^ (52 + spacing x) := by rw [zpow_add₀ two_ne_zero]; rfl
    _ ≤ 2 ^ Int.log 2 x := zpow_le_zpow_right₀ one_le_two hexp
    _ ≤ x := by exact_mod_cast Int.zpow_log_le_self one_lt_two hx

theorem halfEven_units_le (x : ℝ) : halfEven (units x) ≤ 2 ^ 53 := by
  have h : halfEven (units x) ≤ halfEven ((2 ^ 53 : ℕ) : ℝ) :=
    halfEven_mono (by rw [Nat.cast_pow, Nat.cast_ofNat]; exact units_lt.le)
  rwa [halfEven_natCast] at h

theorem le_halfEven_units {x : ℝ} (hx : 0 < x) (h : -1074 < spacing x) :
    2 ^ 52 ≤ halfEven (units x) := by
  have h' : halfEven ((2 ^ 52 : ℕ) : ℝ) ≤ halfEven (units x) :=
    halfEven_mono (by rw [Nat.cast_pow, Nat.cast_ofNat]; exact le_units hx h)
  rwa [halfEven_natCast] at h'

/-! ### Points that are kept -/

/-- A multiple of a power of two that the spacing does not exceed is kept. -/
theorem onGrid_eq_self {m : ℕ} {e : ℤ} (h : spacing (m * 2 ^ e) ≤ e) :
    onGrid (m * 2 ^ e) = m * 2 ^ e := by
  obtain ⟨d, hd⟩ := Int.eq_ofNat_of_zero_le (sub_nonneg.mpr h)
  have hunits : units (m * 2 ^ e) = ((m * 2 ^ d : ℕ) : ℝ) := by
    rw [units, div_eq_iff (two_zpow_pos _).ne']
    push_cast
    rw [mul_assoc, ← zpow_natCast (2 : ℝ) d, ← hd, ← zpow_add₀ two_ne_zero]
    congr 2
    omega
  rw [onGrid, hunits, halfEven_natCast, ← hunits, units_mul]

theorem spacing_le {m : ℕ} {e : ℤ} (hpos : 0 < m) (hm : m < 2 ^ 53) (he : -1074 ≤ e) :
    spacing (m * 2 ^ e) ≤ e := by
  have hx : (0 : ℝ) < m * 2 ^ e := mul_pos (Nat.cast_pos.mpr hpos) (two_zpow_pos e)
  have hm' : (m : ℝ) < 2 ^ 53 := by exact_mod_cast hm
  have hlt : (m * 2 ^ e : ℝ) < ((2 : ℕ) : ℝ) ^ (53 + e) := by
    rw [Nat.cast_ofNat, zpow_add₀ two_ne_zero]
    exact mul_lt_mul_of_pos_right hm' (two_zpow_pos e)
  have hlog := (Int.lt_zpow_iff_log_lt one_lt_two hx).mp hlt
  exact max_le (by omega) he

@[simp] theorem onGrid_zero : onGrid 0 = 0 := by
  rw [onGrid, units, zero_div, ← Nat.cast_zero, halfEven_natCast, Nat.cast_zero, zero_mul]

/-! ### Monotonicity -/

theorem spacing_mono {x y : ℝ} (hx : 0 < x) (h : x ≤ y) : spacing x ≤ spacing y := by
  have hlog := Int.log_mono_right (b := 2) hx h
  rw [spacing, spacing]
  omega

/-- Where the grid gets coarser there is a point of both grids in between. -/
theorem exists_common_point {x y : ℝ} (h : spacing x < spacing y) :
    ∃ d : ℕ, x ≤ 2 ^ d * 2 ^ spacing x ∧
      (2 : ℝ) ^ d * 2 ^ spacing x = 2 ^ 52 * 2 ^ spacing y := by
  obtain ⟨d, hd⟩ := Int.eq_ofNat_of_zero_le (show 0 ≤ 52 + spacing y - spacing x by omega)
  have hpoint : (2 : ℝ) ^ d * 2 ^ spacing x = 2 ^ (52 + spacing y) := by
    rw [← zpow_natCast, ← zpow_add₀ two_ne_zero]
    congr 1
    omega
  refine ⟨d, ?_, by rw [hpoint, zpow_add₀ two_ne_zero]; rfl⟩
  have hlog : x < 2 ^ (Int.log 2 x + 1) := by exact_mod_cast Int.lt_zpow_succ_log_self one_lt_two x
  rw [hpoint]
  refine hlog.le.trans (zpow_le_zpow_right₀ one_le_two ?_)
  rw [spacing, spacing] at h
  rw [spacing]
  omega

theorem onGrid_mono {x y : ℝ} (hx : 0 ≤ x) (h : x ≤ y) : onGrid x ≤ onGrid y := by
  rcases hx.eq_or_lt with rfl | hpos
  · rw [onGrid_zero]
    exact onGrid_nonneg y
  · rcases (spacing_mono hpos h).eq_or_lt with heq | hlt
    · rw [onGrid, onGrid, units, units, heq]
      refine mul_le_mul_of_nonneg_right (Nat.cast_le.mpr (halfEven_mono ?_)) (two_zpow_pos _).le
      exact div_le_div_of_nonneg_right h (two_zpow_pos _).le
    · obtain ⟨d, hxd, hpoint⟩ := exists_common_point hlt
      have hlow : halfEven (units x) ≤ 2 ^ d := by
        have hle : halfEven (units x) ≤ halfEven ((2 ^ d : ℕ) : ℝ) := by
          refine halfEven_mono ?_
          rw [Nat.cast_pow, Nat.cast_ofNat, units]
          exact (div_le_iff₀ (two_zpow_pos _)).mpr hxd
        rwa [halfEven_natCast] at hle
      have hhigh := le_halfEven_units (hpos.trans_le h)
        (lt_of_le_of_lt (le_max_right _ _) hlt)
      calc onGrid x ≤ 2 ^ d * 2 ^ spacing x :=
            mul_le_mul_of_nonneg_right (by exact_mod_cast hlow) (two_zpow_pos _).le
        _ = 2 ^ 52 * 2 ^ spacing y := hpoint
        _ ≤ onGrid y :=
            mul_le_mul_of_nonneg_right (by exact_mod_cast hhigh) (two_zpow_pos _).le

/-! ### The error -/

theorem abs_onGrid_sub_le {x : ℝ} (hx : 0 ≤ x) : |onGrid x - x| ≤ 2 ^ spacing x / 2 := by
  have heq : onGrid x - x = (halfEven (units x) - units x) * 2 ^ spacing x := by
    rw [sub_mul, units_mul, onGrid]
  rw [heq, abs_mul, abs_of_pos (two_zpow_pos _), div_eq_inv_mul, ← one_div]
  exact mul_le_mul_of_nonneg_right (abs_halfEven_sub_le (units_nonneg hx)) (two_zpow_pos _).le

/-- Away from the finest grid the error is relatively small. -/
theorem abs_onGrid_sub_le_relative {x : ℝ} (hx : 2 ^ (-1000 : ℤ) ≤ x) :
    |onGrid x - x| ≤ x / 2 ^ 53 := by
  have hpos : 0 < x := (two_zpow_pos _).trans_le hx
  have hlog : -1000 ≤ Int.log 2 x :=
    (Int.zpow_le_iff_le_log one_lt_two hpos).mp (by exact_mod_cast hx)
  have hspacing : spacing x = Int.log 2 x - 52 := max_eq_left (by omega)
  have hself : (2 : ℝ) ^ Int.log 2 x ≤ x := by exact_mod_cast Int.zpow_log_le_self one_lt_two hpos
  have hhalf : (2 : ℝ) ^ spacing x / 2 = 2 ^ Int.log 2 x / 2 ^ 53 := by
    rw [hspacing, zpow_sub₀ two_ne_zero, div_div]
    rfl
  calc |onGrid x - x| ≤ 2 ^ spacing x / 2 := abs_onGrid_sub_le hpos.le
    _ = 2 ^ Int.log 2 x / 2 ^ 53 := hhalf
    _ ≤ x / 2 ^ 53 := div_le_div_of_nonneg_right hself (by positivity)

/-!
## Rounding to doubles

A real number is rounded by its magnitude, and what reaches `2 ^ 1024` overflows. The
laws here are those that rounded arithmetic asks for; they follow from the ones of the
grids.
-/

open Exact

/-! ### Overflow -/

/-- A magnitude that is out of range is infinite. -/
noncomputable def overflowed (x : ℝ) : Exact := if x < overflow then real x else posInf

theorem overflowed_mono {x y : ℝ} (h : x ≤ y) : overflowed x ≤ overflowed y := by
  unfold overflowed
  split
  · split
    · exact (real_le x y).mpr h
    · exact real_le_posInf x
  · rw [if_neg (by linarith)]
    exact ⟨Exact.noConfusion, Exact.noConfusion, le_rfl⟩

/-! ### The nearest double -/

noncomputable def nearest (x : ℝ) : Exact :=
  if 0 ≤ x then overflowed (onGrid x) else -overflowed (onGrid (-x))

theorem nearest_of_nonneg {x : ℝ} (h : 0 ≤ x) : nearest x = overflowed (onGrid x) := if_pos h

@[simp] theorem nearest_zero : nearest 0 = real 0 := by
  rw [nearest_of_nonneg le_rfl, onGrid_zero, overflowed, if_pos (by positivity)]

theorem nearest_neg (x : ℝ) : nearest (-x) = -nearest x := by
  rcases lt_trichotomy x 0 with h | rfl | h
  · rw [nearest_of_nonneg (neg_nonneg.mpr h.le), nearest, if_neg (not_le.mpr h), Exact.neg_neg]
  · rw [neg_zero, nearest_zero, real_neg, neg_zero]
  · rw [nearest, if_neg (by linarith), neg_neg, nearest_of_nonneg h.le]

theorem nearest_mono_of_nonneg {x y : ℝ} (hx : 0 ≤ x) (h : x ≤ y) : nearest x ≤ nearest y := by
  rw [nearest_of_nonneg hx, nearest_of_nonneg (hx.trans h)]
  exact overflowed_mono (onGrid_mono hx h)

theorem nearest_mono {x y : ℝ} (h : x ≤ y) : nearest x ≤ nearest y := by
  rcases le_total 0 x with hx | hx
  · exact nearest_mono_of_nonneg hx h
  · rcases le_total 0 y with hy | hy
    · -- through zero
      have hlow : nearest x ≤ nearest 0 := by
        have hneg := Exact.neg_le_neg (nearest_mono_of_nonneg le_rfl (neg_nonneg.mpr hx))
        rwa [nearest_neg, Exact.neg_neg, nearest_zero, real_neg, neg_zero, ← nearest_zero] at hneg
      exact Exact.le_trans hlow (nearest_mono_of_nonneg le_rfl hy)
    · rw [← neg_neg x, ← neg_neg y, nearest_neg, nearest_neg (-y)]
      exact Exact.neg_le_neg (nearest_mono_of_nonneg (neg_nonneg.mpr hy) (neg_le_neg h))

/-! ### What is kept, and how close the rest is -/

/-- A magnitude of at most 53 bits within the range of exponents is kept. -/
theorem nearest_eq_self {m : ℕ} {e : ℤ} (hm : m < 2 ^ 53) (he : -1074 ≤ e) (he' : e ≤ 971) :
    nearest (m * 2 ^ e) = real (m * 2 ^ e) := by
  rcases Nat.eq_zero_or_pos m with rfl | hpos
  · rw [Nat.cast_zero, zero_mul, nearest_zero]
  · have hm' : (m : ℝ) < 2 ^ 53 := by exact_mod_cast hm
    have hlt : (m * 2 ^ e : ℝ) < 2 ^ (1024 : ℤ) := by
      calc (m * 2 ^ e : ℝ) < 2 ^ 53 * 2 ^ e := mul_lt_mul_of_pos_right hm' (two_zpow_pos e)
        _ = 2 ^ (53 + e) := by rw [zpow_add₀ two_ne_zero]; rfl
        _ ≤ 2 ^ (1024 : ℤ) := zpow_le_zpow_right₀ one_le_two (by omega)
    have hnonneg : (0 : ℝ) ≤ m * 2 ^ e := mul_nonneg (Nat.cast_nonneg m) (two_zpow_pos e).le
    rw [nearest_of_nonneg hnonneg, onGrid_eq_self (spacing_le hpos hm he), overflowed, if_pos hlt]

theorem nearest_natCast {n : ℕ} (h : n ≤ 2 ^ 53) : nearest n = real n := by
  rcases h.lt_or_eq with hlt | rfl
  · have hself := nearest_eq_self (e := 0) hlt (by norm_num) (by norm_num)
    rwa [zpow_zero, mul_one] at hself
  · have hself := nearest_eq_self (m := 2 ^ 52) (e := 1) (by norm_num) (by norm_num) (by norm_num)
    rw [zpow_one] at hself
    convert hself using 2 <;> norm_num

theorem nearest_near {x : ℝ} (hlow : 1 / 2 ^ 1000 ≤ x) (hhigh : x ≤ 2 ^ 1000) :
    ∃ y, nearest x = real y ∧ |y - x| ≤ x / 2 ^ 53 := by
  have hlow' : (2 : ℝ) ^ (-1000 : ℤ) ≤ x := by
    rw [zpow_neg, ← one_div]
    exact hlow
  have hx : 0 < x := (two_zpow_pos _).trans_le hlow'
  have herror := abs_onGrid_sub_le_relative hlow'
  have hgrid : onGrid x < 2 ^ (1024 : ℤ) := by
    have hle : onGrid x ≤ 2 * x := by
      have := (abs_le.mp herror).2
      have : x / 2 ^ 53 ≤ x := div_le_self hx.le (one_le_pow₀ one_le_two)
      linarith
    calc onGrid x ≤ 2 * x := hle
      _ ≤ 2 ^ (1001 : ℤ) := by
          rw [show (1001 : ℤ) = 1 + 1000 from rfl, zpow_add₀ two_ne_zero, zpow_one]
          exact mul_le_mul_of_nonneg_left hhigh zero_le_two
      _ < 2 ^ (1024 : ℤ) := zpow_lt_zpow_right₀ one_lt_two (by norm_num)
  exact ⟨onGrid x, by rw [nearest_of_nonneg hx.le, overflowed, if_pos hgrid], herror⟩

end SolverPortfolio.Binary

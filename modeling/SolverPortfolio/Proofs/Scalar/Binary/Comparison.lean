import SolverPortfolio.Proofs.Scalar.Binary.Operations

/-!
# Comparing doubles

Doubles are compared by sign, exponent and mantissa in turn. Since they are unpacked
in canonical form, that is the order of the numbers they stand for.
-/

namespace SolverPortfolio.Binary

open Exact Float.Model Float.Model.UnpackedFloat

/-! ## Magnitudes -/

theorem magnitude_lt {m n : ℕ} {e f : ℤ} (hm : m < 2 ^ 53) (hn : 2 ^ 52 ≤ n) (hef : e < f) :
    (m * 2 ^ e : ℝ) < n * 2 ^ f := by
  calc (m * 2 ^ e : ℝ) < 2 ^ 53 * 2 ^ e :=
        mul_lt_mul_of_pos_right (by exact_mod_cast hm) (two_zpow_pos e)
    _ = 2 ^ (53 + e) := by rw [zpow_add₀ two_ne_zero]; rfl
    _ ≤ 2 ^ (52 + f) := zpow_le_zpow_right₀ one_le_two (by omega)
    _ = 2 ^ 52 * 2 ^ f := by rw [zpow_add₀ two_ne_zero]; rfl
    _ ≤ n * 2 ^ f := mul_le_mul_of_nonneg_right (by exact_mod_cast hn) (two_zpow_pos f).le

/-- In canonical form a larger exponent means a larger magnitude. -/
theorem compare_magnitudes {s t : Sign} {m n : ℕ} {e f : ℤ} {hm : 0 < m} {hn : 0 < n}
    (ha : InRange (.finite s m e hm)) (hb : InRange (.finite t n f hn)) :
    (compare e f).then (compare m n) = cmp (m * 2 ^ e : ℝ) (n * 2 ^ f) := by
  obtain ⟨hm', he, _, hmnormal⟩ := ha
  obtain ⟨hn', hf, _, hnnormal⟩ := hb
  rcases lt_trichotomy e f with hlt | rfl | hgt
  · rw [Int.compare_eq_lt.mpr hlt]
    exact ((cmp_eq_lt_iff _ _).mpr
      (magnitude_lt hm' (hnnormal.resolve_right (by omega)) hlt)).symm
  · rw [Int.compare_eq_eq.mpr rfl]
    show compare m n = _
    have hpos := two_zpow_pos e
    rcases lt_trichotomy m n with hlt | rfl | hgt
    · rw [Nat.compare_eq_lt.mpr hlt]
      exact ((cmp_eq_lt_iff _ _).mpr
        (mul_lt_mul_of_pos_right (Nat.cast_lt.mpr hlt) hpos)).symm
    · rw [Nat.compare_eq_eq.mpr rfl, cmp_self_eq_eq]
    · rw [Nat.compare_eq_gt.mpr hgt]
      exact ((cmp_eq_gt_iff _ _).mpr
        (mul_lt_mul_of_pos_right (Nat.cast_lt.mpr hgt) hpos)).symm
  · rw [Int.compare_eq_gt.mpr hgt]
    exact ((cmp_eq_gt_iff _ _).mpr
      (magnitude_lt hn' (hmnormal.resolve_right (by omega)) hgt)).symm

/-! ## Numbers -/

theorem cmp_of_lt {x y : EReal} (h : x < y) : some .lt = some (cmp x y) :=
  congrArg some ((cmp_eq_lt_iff x y).mpr h).symm

theorem cmp_of_gt {x y : EReal} (h : y < x) : some .gt = some (cmp x y) :=
  congrArg some ((cmp_eq_gt_iff x y).mpr h).symm

/-- Signs first; two negative numbers are compared by magnitude the other way round. -/
theorem compare_finite {s t : Sign} {m n : ℕ} {e f : ℤ} {hm : 0 < m} {hn : 0 < n}
    (ha : InRange (.finite s m e hm)) (hb : InRange (.finite t n f hn)) :
    UnpackedFloat.compare (.finite s m e hm) (.finite t n f hn) =
      some (cmp (exactOf (.finite s m e hm)).toEReal (exactOf (.finite t n f hn)).toEReal) := by
  have hx := magnitude_pos hm e
  have hy := magnitude_pos hn f
  have hmagnitudes := compare_magnitudes ha hb
  cases s with
  | positive =>
      cases t with
      | positive =>
          exact congrArg some (hmagnitudes.trans (EReal.coe_strictMono.cmp_map_eq _ _).symm)
      | negative =>
          exact cmp_of_gt (EReal.coe_lt_coe_iff.mpr ((neg_lt_zero.mpr hy).trans hx))
  | negative =>
      cases t with
      | positive =>
          exact cmp_of_lt (EReal.coe_lt_coe_iff.mpr ((neg_lt_zero.mpr hx).trans hy))
      | negative =>
          have hanti : StrictAnti fun x : ℝ => -x := fun _ _ h => neg_lt_neg h
          have hswap := congrArg Ordering.swap hmagnitudes
          rw [cmp_swap] at hswap
          refine congrArg some (hswap.trans ?_)
          exact ((EReal.coe_strictMono.cmp_map_eq _ _).trans (hanti.cmp_map_eq _ _)).symm

theorem compare_eq_cmp {a b : UnpackedFloat} (ha : InRange a) (hb : InRange b)
    (ha' : exactOf a ≠ nan) (hb' : exactOf b ≠ nan) :
    a.compare b = some (cmp (exactOf a).toEReal (exactOf b).toEReal) := by
  cases a with
  | notANumber => exact absurd rfl ha'
  | infinity s =>
      cases b with
      | notANumber => exact absurd rfl hb'
      | infinity t =>
          cases s with
          | positive =>
              cases t with
              | positive => exact congrArg some (cmp_self_eq_eq (⊤ : EReal)).symm
              | negative => exact cmp_of_gt bot_lt_top
          | negative =>
              cases t with
              | positive => exact cmp_of_lt bot_lt_top
              | negative => exact congrArg some (cmp_self_eq_eq (⊥ : EReal)).symm
      | zero t =>
          cases s with
          | positive => exact cmp_of_gt (EReal.coe_lt_top _)
          | negative => exact cmp_of_lt (EReal.bot_lt_coe _)
      | finite t n f hn =>
          rw [exactOf_finite]
          cases s with
          | positive => exact cmp_of_gt (EReal.coe_lt_top _)
          | negative => exact cmp_of_lt (EReal.bot_lt_coe _)
  | zero s =>
      cases b with
      | notANumber => exact absurd rfl hb'
      | infinity t =>
          cases t with
          | positive => exact cmp_of_lt (EReal.coe_lt_top _)
          | negative => exact cmp_of_gt (EReal.bot_lt_coe _)
      | zero t => exact congrArg some (cmp_self_eq_eq ((0 : ℝ) : EReal)).symm
      | finite t n f hn =>
          have hy := magnitude_pos hn f
          cases t with
          | positive => exact cmp_of_lt (EReal.coe_lt_coe_iff.mpr hy)
          | negative => exact cmp_of_gt (EReal.coe_lt_coe_iff.mpr (neg_lt_zero.mpr hy))
  | finite s m e hm =>
      have hx := magnitude_pos hm e
      cases b with
      | notANumber => exact absurd rfl hb'
      | infinity t =>
          rw [exactOf_finite]
          cases t with
          | positive => cases s <;> exact cmp_of_lt (EReal.coe_lt_top _)
          | negative => cases s <;> exact cmp_of_gt (EReal.bot_lt_coe _)
      | zero t =>
          cases s with
          | positive => exact cmp_of_gt (EReal.coe_lt_coe_iff.mpr hx)
          | negative => exact cmp_of_lt (EReal.coe_lt_coe_iff.mpr (neg_lt_zero.mpr hx))
      | finite t n f hn => exact compare_finite ha hb

theorem exactOf_eq_nan {a : UnpackedFloat} (h : exactOf a = nan) : a = .notANumber := by
  cases a with
  | notANumber => rfl
  | infinity s => cases s <;> cases h
  | zero s => cases h
  | finite s m e hm => cases s <;> cases h

theorem compare_eq_none {a b : UnpackedFloat} (h : exactOf a = nan ∨ exactOf b = nan) :
    a.compare b = none := by
  rcases h with h | h
  · rw [exactOf_eq_nan h]
    cases b <;> rfl
  · rw [exactOf_eq_nan h]
    cases a with
    | infinity s => cases s <;> rfl
    | finite s m e hm => cases s <;> rfl
    | zero s => rfl
    | notANumber => rfl

theorem unpacked_lt_iff {a b : UnpackedFloat} (ha : InRange a) (hb : InRange b) :
    a.lt b = true ↔ exactOf a < exactOf b := by
  rw [UnpackedFloat.lt]
  by_cases hnan : exactOf a = nan ∨ exactOf b = nan
  · rw [compare_eq_none hnan]
    exact iff_of_false Bool.false_ne_true fun h => hnan.elim h.1 h.2.1
  · obtain ⟨ha', hb'⟩ := not_or.mp hnan
    rw [compare_eq_cmp ha hb ha' hb', beq_iff_eq, Option.some_inj, cmp_eq_lt_iff]
    exact ⟨fun h => ⟨ha', hb', h⟩, fun h => h.2.2⟩

theorem unpacked_le_iff {a b : UnpackedFloat} (ha : InRange a) (hb : InRange b) :
    a.le b = true ↔ exactOf a ≤ exactOf b := by
  rw [UnpackedFloat.le]
  by_cases hnan : exactOf a = nan ∨ exactOf b = nan
  · rw [compare_eq_none hnan]
    exact iff_of_false Bool.false_ne_true fun h => hnan.elim h.1 h.2.1
  · obtain ⟨ha', hb'⟩ := not_or.mp hnan
    have hle : (cmp (exactOf a).toEReal (exactOf b).toEReal).isLE = true ↔
        (exactOf a).toEReal ≤ (exactOf b).toEReal := by
      rw [← not_lt, ← cmp_eq_gt_iff]
      cases cmp (exactOf a).toEReal (exactOf b).toEReal <;> simp
    rw [compare_eq_cmp ha hb ha' hb', Option.any_some, hle]
    exact ⟨fun h => ⟨ha', hb', h⟩, fun h => h.2.2⟩

/-! ## Whole parts -/

theorem toNat_ofNatClamp (n : ℕ) :
    (UInt64.ofNatClamp n).toNat = min n (Scalar.wordBound - 1) := by
  have hword : Scalar.wordBound = UInt64.size := rfl
  rw [UInt64.ofNatClamp, hword]
  split
  · rw [UInt64.toNat_ofNatLT]
    omega
  · rw [UInt64.toNat_ofNatLT]
    omega

theorem roundToInt_eq (s : Sign) (m : ℕ) (e : ℤ) :
    roundToInt s m e = s.apply ⌊(m * 2 ^ e : ℝ)⌋₊ := by
  obtain ⟨k, hk, hmin⟩ := exists_decreaseExponent m e 0
  obtain ⟨j, hj⟩ := Int.eq_ofNat_of_zero_le (show 0 ≤ 0 - (e - k) by omega)
  have hloc := (locates_exact (m * 2 ^ k)).shiftRight j
  have hvalue : ((m * 2 ^ k : ℕ) : ℝ) / 2 ^ j = m * 2 ^ e := by
    rw [← mul_two_pow_mul m k e, show e - k = -(j : ℤ) by omega, zpow_neg, zpow_natCast,
      div_eq_mul_inv]
  rw [hvalue] at hloc
  rw [hloc.floor, roundToInt, hk]
  simp only [shiftToExponent, hj, Int.toNat_natCast]

/-- Truncation to a natural of 64 bits, the nearest of them out of range. -/
theorem toNat_toUInt64 (a : UnpackedFloat) : a.toUInt64.toNat = (exactOf a).wholePart := by
  rw [UnpackedFloat.toUInt64, toNat_ofNatClamp]
  cases a with
  | notANumber => rfl
  | infinity s => cases s <;> rfl
  | zero s =>
      show min 0 _ = min ⌊(0 : ℝ)⌋₊ _
      rw [Nat.floor_zero]
  | finite s m e hm =>
      rw [exactOf_finite, UnpackedFloat.toInt, roundToInt_eq]
      show _ = min ⌊signOf s * (m * 2 ^ e)⌋₊ _
      cases s with
      | positive => rw [signOf, one_mul, Sign.apply, Int.toNat_natCast]
      | negative =>
          rw [signOf, neg_one_mul, Sign.apply,
            Nat.floor_of_nonpos (neg_nonpos.mpr (magnitude_pos hm e).le), Int.toNat_neg_natCast]

end SolverPortfolio.Binary

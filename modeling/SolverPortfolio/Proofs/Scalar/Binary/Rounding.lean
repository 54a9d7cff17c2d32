import SolverPortfolio.Proofs.Scalar.Binary.Packing

/-!
# Rounding a result

Every operation on doubles ends in `roundWithAccuracy`, which is given the leading
digits of the exact magnitude and where between two of them it lies (`Locates`). What is
stored in the end is the double nearest to the magnitude (`stored_roundWithAccuracy`).
-/

namespace SolverPortfolio.Binary

open Exact Float.Model Float.Model.UnpackedFloat

/-! ## Residual bits -/

/-- The mantissa is the whole part of a number, and the two residual bits tell where in
its unit the number lies. -/
structure Locates (em : ExtendedMantissa) (t : ℝ) : Prop where
  le : em.mantissa ≤ t
  lt : t < em.mantissa + 1
  round : em.roundBit = true ↔ 1 / 2 ≤ t - em.mantissa
  sticky : em.stickyBit = true ↔ t - em.mantissa ≠ 0 ∧ t - em.mantissa ≠ 1 / 2

theorem Locates.floor {em : ExtendedMantissa} {t : ℝ} (h : Locates em t) :
    ⌊t⌋₊ = em.mantissa :=
  (Nat.floor_eq_iff ((Nat.cast_nonneg _).trans h.le)).mpr ⟨h.le, h.lt⟩

theorem locates_exact (m : ℕ) : Locates (.ofMantissaAndAccuracy m .exact) m where
  le := le_rfl
  lt := lt_add_one _
  round := by simp [ExtendedMantissa.ofMantissaAndAccuracy]
  sticky := by simp [ExtendedMantissa.ofMantissaAndAccuracy]

theorem Locates.shiftRightOne {em : ExtendedMantissa} {t : ℝ} (h : Locates em t) :
    Locates em.shiftRightOne (t / 2) := by
  obtain ⟨m, r, st⟩ := em
  obtain ⟨hle, hlt, hround, hsticky⟩ := h
  simp only at hle hlt hround hsticky
  have hm : ((m / 2 : ℕ) : ℝ) = (m - (m % 2 : ℕ)) / 2 := by
    have := Nat.div_add_mod m 2
    rw [eq_div_iff two_ne_zero]
    have hcast : ((2 * (m / 2) + m % 2 : ℕ) : ℝ) = m := by rw [this]
    push_cast at hcast
    linarith
  have hany : (r || st) = true ↔ t - m ≠ 0 := by
    rw [Bool.or_eq_true, hround, hsticky]
    constructor
    · rintro (hr | hs)
      · intro h0
        rw [h0] at hr
        norm_num at hr
      · exact hs.1
    · intro h0
      by_cases hhalf : 1 / 2 ≤ t - m
      · exact Or.inl hhalf
      · exact Or.inr ⟨h0, fun heq => hhalf heq.ge⟩
  rcases Nat.mod_two_eq_zero_or_one m with hmod | hmod
  · have hoff : t / 2 - ((m / 2 : ℕ) : ℝ) = (t - m) / 2 := by
      rw [hm, hmod]; push_cast; ring
    refine ⟨?_, ?_, ?_, ?_⟩ <;> simp only [ExtendedMantissa.shiftRightOne]
    · linarith
    · linarith
    · rw [hoff, hmod]
      simp only [bne_self_eq_false, Bool.false_eq_true, false_iff, not_le]
      linarith
    · rw [hany, hoff]
      constructor
      · exact fun h0 => ⟨fun h => h0 (by linarith), fun h => by linarith⟩
      · exact fun h0 heq => h0.1 (by linarith)
  · have hoff : t / 2 - ((m / 2 : ℕ) : ℝ) = (t - m) / 2 + 1 / 2 := by
      rw [hm, hmod]; push_cast; ring
    refine ⟨?_, ?_, ?_, ?_⟩ <;> simp only [ExtendedMantissa.shiftRightOne]
    · linarith
    · linarith
    · rw [hoff, hmod]
      simp only [Nat.reduceBNe, true_iff]
      linarith
    · rw [hany, hoff]
      constructor
      · exact fun h0 => ⟨fun h => by linarith, fun h => h0 (by linarith)⟩
      · exact fun h0 heq => h0.2 (by linarith)

theorem Locates.shiftRight {em : ExtendedMantissa} {t : ℝ} (h : Locates em t) (k : ℕ) :
    Locates (em >>> k) (t / 2 ^ k) := by
  induction k with
  | zero =>
      rw [pow_zero, div_one]
      exact h
  | succ k ih =>
      rw [pow_succ, ← div_div]
      exact ih.shiftRightOne

/-- Rounding by the residual bits is rounding to the nearest natural. -/
theorem Locates.roundedMantissa {em : ExtendedMantissa} {t : ℝ} (h : Locates em t) :
    em.roundedMantissa = halfEven t := by
  have hfloor := h.floor
  obtain ⟨m, r, st⟩ := em
  obtain ⟨hle, hlt, hround, hsticky⟩ := h
  simp only at hle hlt hround hsticky hfloor
  unfold halfEven
  rw [hfloor]
  cases r with
  | false =>
      have hlow : t - m < 1 / 2 := by
        by_contra hge
        exact absurd (hround.mpr (not_lt.mp hge)) Bool.false_ne_true
      rw [if_pos hlow]
      cases st <;> rfl
  | true =>
      have hhigh : 1 / 2 ≤ t - m := hround.mp rfl
      rw [if_neg (not_lt.mpr hhigh)]
      cases st with
      | true =>
          rw [if_pos (lt_of_le_of_ne hhigh (hsticky.mp rfl).2.symm)]
          rfl
      | false =>
          have hmid : t - m = 1 / 2 := by
            by_contra hne
            exact absurd (hsticky.mpr ⟨fun h0 => by rw [h0] at hhigh; norm_num at hhigh, hne⟩)
              Bool.false_ne_true
          rw [if_neg (by rw [hmid]; exact lt_irrefl _)]
          rfl

/-! ## Rounding -/

theorem targetExponent_eq (t : ℤ) : Format.binary64.targetExponent t = max (t - 53) (-1074) := rfl

/-- The exponent that rounding aims for is that of the grid. -/
theorem targetExponent_of_pos {m : ℕ} {e : ℤ} {x : ℝ} (hm : 0 < m)
    (hle : (m : ℝ) ≤ x / 2 ^ e) (hlt : x / 2 ^ e < m + 1) :
    Format.binary64.targetExponent (totalExponent m e) = spacing x := by
  rw [le_div_iff₀ (two_zpow_pos e)] at hle
  rw [div_lt_iff₀ (two_zpow_pos e)] at hlt
  have hx : 0 < x := (mul_pos (Nat.cast_pos.mpr hm) (two_zpow_pos e)).trans_le hle
  have hlow : (2 : ℕ) ^ m.log2 ≤ m := Nat.log2_self_le hm.ne'
  have hhigh : m + 1 ≤ 2 ^ (m.log2 + 1) := Nat.lt_log2_self
  have hlog : Int.log 2 x = m.log2 + e := by
    refine le_antisymm ?_ ?_
    · have : Int.log 2 x < (m.log2 + 1 : ℕ) + e := by
        refine (Int.lt_zpow_iff_log_lt one_lt_two hx).mp (hlt.trans_le ?_)
        rw [Nat.cast_ofNat, zpow_add₀ two_ne_zero, zpow_natCast]
        exact mul_le_mul_of_nonneg_right (by exact_mod_cast hhigh) (two_zpow_pos e).le
      omega
    · refine (Int.zpow_le_iff_le_log one_lt_two hx).mp (le_trans ?_ hle)
      rw [Nat.cast_ofNat, zpow_add₀ two_ne_zero, zpow_natCast]
      exact mul_le_mul_of_nonneg_right (by exact_mod_cast hlow) (two_zpow_pos e).le
  rw [targetExponent_eq, totalExponent, spacing, hlog]
  omega

/-- It also is when there is no digit yet, provided the exponent is not above it. -/
theorem targetExponent_totalExponent {m : ℕ} {e : ℤ} {x : ℝ} (hx : 0 < x)
    (hle : (m : ℝ) ≤ x / 2 ^ e) (hlt : x / 2 ^ e < m + 1) (he : e ≤ spacing x) :
    Format.binary64.targetExponent (totalExponent m e) = spacing x := by
  rcases Nat.eq_zero_or_pos m with rfl | hm
  · have hlog : Int.log 2 x < e := by
      refine (Int.lt_zpow_iff_log_lt one_lt_two hx).mp ?_
      rwa [div_lt_iff₀ (two_zpow_pos e), Nat.cast_zero, zero_add, one_mul] at hlt
    rw [targetExponent_eq, totalExponent, Nat.log2_zero]
    rw [spacing] at he ⊢
    omega
  · exact targetExponent_of_pos hm hle hlt

theorem shiftToTargetExponent_eq {m : ℕ} {e : ℤ} {acc : Accuracy} {x : ℝ} (hx : 0 < x)
    (hloc : Locates (.ofMantissaAndAccuracy m acc) (x / 2 ^ e)) (he : e ≤ spacing x) :
    ∃ em, shiftToTargetExponent Format.binary64 m e acc = (em, spacing x) ∧
      em.roundedMantissa = halfEven (units x) := by
  have hmantissa : (ExtendedMantissa.ofMantissaAndAccuracy m acc).mantissa = m := by
    cases acc with
    | exact => rfl
    | inexact o => cases o <;> rfl
  have htarget := targetExponent_totalExponent hx (hmantissa ▸ hloc.le) (hmantissa ▸ hloc.lt) he
  obtain ⟨k, hk⟩ := Int.eq_ofNat_of_zero_le (sub_nonneg.mpr he)
  refine ⟨ExtendedMantissa.ofMantissaAndAccuracy m acc >>> k, ?_, ?_⟩
  · have hexp : e + (k : ℤ) = spacing x := by omega
    rw [shiftToTargetExponent, htarget, shiftToExponent, hk, Int.toNat_natCast, hexp]
  · have hunits : x / 2 ^ e / 2 ^ k = units x := by
      rw [units, div_div, ← zpow_natCast, ← zpow_add₀ two_ne_zero]
      congr 2
      omega
    rw [← hunits]
    exact (hloc.shiftRight k).roundedMantissa

/-- After rounding the mantissa can only be one bit too long, and then it is even. -/
theorem shiftToTargetExponent_rounded {r : ℕ} {g : ℤ} (hr : r ≤ 2 ^ 53) (hg : -1074 ≤ g) :
    shiftToTargetExponent Format.binary64 r g .exact =
      if r = 2 ^ 53 then (⟨2 ^ 52, false, false⟩, g + 1) else (⟨r, false, false⟩, g) := by
  rw [shiftToTargetExponent, shiftToExponent, targetExponent_eq, totalExponent]
  split
  · rename_i hmax
    have hshift : (max ((r.log2 : ℤ) + 1 + g - 53) (-1074) - g).toNat = 1 := by
      rw [hmax, Nat.log2_two_pow]
      omega
    rw [hshift, hmax]
    rfl
  · rename_i hmax
    have hshift : (max ((r.log2 : ℤ) + 1 + g - 53) (-1074) - g).toNat = 0 := by
      have : r.log2 < 53 := by
        rcases Nat.eq_zero_or_pos r with rfl | hpos
        · norm_num
        · exact (Nat.log2_lt hpos.ne').mpr (lt_of_le_of_ne hr hmax)
      omega
    rw [hshift]
    simp [HShiftRight.hShiftRight, Nat.repeat, ExtendedMantissa.ofMantissaAndAccuracy]

theorem roundWithAccuracy_eq (s : Sign) {m : ℕ} {e : ℤ} {acc : Accuracy} {em : ExtendedMantissa}
    {g : ℤ} (hfirst : shiftToTargetExponent Format.binary64 m e acc = (em, g)) :
    roundWithAccuracy Format.binary64 s m e acc =
      ofParts s (shiftToTargetExponent Format.binary64 em.roundedMantissa g .exact).1.mantissa
        (shiftToTargetExponent Format.binary64 em.roundedMantissa g .exact).2 := by
  unfold roundWithAccuracy
  rw [hfirst]
  rfl

/-- What is stored is the nearest double to the exact magnitude. -/
theorem stored_roundWithAccuracy (s : Sign) {m : ℕ} {e : ℤ} {acc : Accuracy} {x : ℝ}
    (hx : 0 < x) (hloc : Locates (.ofMantissaAndAccuracy m acc) (x / 2 ^ e))
    (he : e ≤ spacing x) :
    stored (roundWithAccuracy Format.binary64 s m e acc) = signed s (nearest x) := by
  have hg : -1074 ≤ spacing x := le_max_right _ _
  obtain ⟨em, hfirst, hrounded⟩ := shiftToTargetExponent_eq hx hloc he
  have hlow : 2 ^ 52 ≤ halfEven (units x) ∨ spacing x = -1074 := by
    rcases hg.eq_or_lt with heq | hlt
    · exact Or.inr heq.symm
    · exact Or.inl (le_halfEven_units hx hlt)
  have hhigh := halfEven_units_le x
  rw [roundWithAccuracy_eq s hfirst, hrounded, shiftToTargetExponent_rounded hhigh hg,
    nearest_of_nonneg hx.le, onGrid]
  generalize halfEven (units x) = r at hlow hhigh ⊢
  split
  · rename_i hmax
    have hcarry : (r : ℝ) * 2 ^ spacing x = (2 ^ 52 : ℕ) * 2 ^ (spacing x + 1) := by
      rw [hmax, zpow_add₀ two_ne_zero]
      push_cast
      ring
    rw [hcarry]
    exact stored_ofParts s (by norm_num) (by omega) (Or.inl le_rfl)
  · rename_i hmax
    exact stored_ofParts s (lt_of_le_of_ne hhigh hmax) hg hlow

/-! ## Rounding exact results -/

theorem exists_decreaseExponent (m : ℕ) (e t : ℤ) :
    ∃ k : ℕ, decreaseExponent m e t = (m * 2 ^ k, e - k) ∧ e - k = min e t := by
  refine ⟨(e - t).toNat, ?_, by omega⟩
  rw [decreaseExponent, Nat.shiftLeft_eq]

theorem mul_two_pow_mul (m k : ℕ) (e : ℤ) :
    ((m * 2 ^ k : ℕ) : ℝ) * 2 ^ (e - k) = m * 2 ^ e := by
  push_cast
  rw [mul_assoc, ← zpow_natCast (2 : ℝ) k, ← zpow_add₀ two_ne_zero]
  congr 2
  omega

theorem stored_round (s : Sign) {m : ℕ} (hm : 0 < m) (e : ℤ) :
    stored (UnpackedFloat.round Format.binary64 s m e) = signed s (nearest (m * 2 ^ e)) := by
  have hself : (m : ℝ) * 2 ^ e / 2 ^ e = m := mul_div_cancel_right₀ _ (two_zpow_pos e).ne'
  have htarget := targetExponent_of_pos (x := m * 2 ^ e) hm hself.ge
    (by rw [hself]; exact lt_add_one _)
  obtain ⟨k, hk, hmin⟩ := exists_decreaseExponent m e (spacing (m * 2 ^ e))
  unfold UnpackedFloat.round
  simp only [htarget, hk]
  refine stored_roundWithAccuracy s (mul_pos (Nat.cast_pos.mpr hm) (two_zpow_pos e)) ?_ (by omega)
  rw [← mul_two_pow_mul m k e, mul_div_cancel_right₀ _ (two_zpow_pos _).ne']
  exact locates_exact _

/-- A sum of mantissas stands for a number of either sign. -/
theorem stored_normalize (m e : ℤ) (s : Sign) :
    stored (UnpackedFloat.normalize Format.binary64 m e s) = nearest (m * 2 ^ e) := by
  unfold UnpackedFloat.normalize
  rcases lt_trichotomy m 0 with hneg | rfl | hpos
  · obtain ⟨n, hn⟩ := Int.eq_ofNat_of_zero_le (neg_nonneg.mpr hneg.le)
    have hm : (m : ℝ) = -n := by exact_mod_cast neg_eq_iff_eq_neg.mp hn
    rw [show compare m 0 = .lt from Int.compare_eq_lt.mpr hneg]
    simp only [hn, Int.toNat_natCast]
    rw [stored_round .negative (by omega), signed, ← nearest_neg, hm, neg_mul]
  · rw [show compare (0 : ℤ) 0 = .eq from rfl, Int.cast_zero, zero_mul, nearest_zero]
    have hr : InRange (.zero s) := trivial
    exact stored_of_inRange hr
  · obtain ⟨n, hn⟩ := Int.eq_ofNat_of_zero_le hpos.le
    rw [show compare m 0 = .gt from Int.compare_eq_gt.mpr hpos]
    simp only [hn, Int.toNat_natCast]
    rw [stored_round .positive (by omega), signed, Int.cast_natCast]

end SolverPortfolio.Binary

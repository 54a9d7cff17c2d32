import SolverPortfolio.Proofs.Scalar.Binary.Rounding
import SolverPortfolio.Proofs.Scalar.Rounded

/-!
# The operations on doubles

What is stored for the sum, the product and the quotient of two doubles is the exact
result rounded once; the special values follow the rules of exact arithmetic. The
comparisons are those of the numbers.
-/

namespace SolverPortfolio.Binary

open Exact Float.Model Float.Model.UnpackedFloat

/-! ## Signs -/

def signOf : Sign → ℝ
  | .positive => 1
  | .negative => -1

theorem signed_real (s : Sign) (x : ℝ) : signed s (real x) = real (signOf s * x) := by
  cases s with
  | positive => rw [signed, signOf, one_mul]
  | negative => rw [signed, real_neg, signOf, neg_one_mul]

theorem signOf_mul (s t : Sign) : signOf (s * t) = signOf s * signOf t := by
  cases s with
  | positive => cases t <;> exact (one_mul _).symm
  | negative =>
      cases t with
      | positive => exact (mul_one _).symm
      | negative => exact (neg_one_mul (-1 : ℝ) |>.trans (neg_neg 1)).symm

theorem div_eq_mul (s t : Sign) : s / t = s * t := by
  cases s <;> cases t <;> rfl

theorem signOf_div (s t : Sign) : signOf (s / t) = signOf s / signOf t := by
  rw [div_eq_mul, signOf_mul]
  cases t with
  | positive => rw [signOf, mul_one, div_one]
  | negative => rw [signOf, mul_neg_one, div_neg, div_one]

theorem apply_cast (s : Sign) (n : ℤ) : ((s.apply n : ℤ) : ℝ) = signOf s * n := by
  cases s with
  | positive => rw [Sign.apply, signOf, one_mul]
  | negative => rw [Sign.apply, signOf, Int.cast_neg, neg_one_mul]

theorem signed_nearest (s : Sign) (x : ℝ) : signed s (nearest x) = nearest (signOf s * x) := by
  cases s with
  | positive => rw [signed, signOf, one_mul]
  | negative => rw [signed, signOf, neg_one_mul, nearest_neg]

theorem signOf_ne_zero (s : Sign) : signOf s ≠ 0 := by
  cases s with
  | positive => exact one_ne_zero
  | negative => exact neg_ne_zero.mpr one_ne_zero

theorem sign_signOf_mul (s : Sign) {x : ℝ} (hx : 0 < x) :
    SignType.sign (signOf s * x) = (signed s posInf).sign := by
  cases s with
  | positive => rw [signOf, one_mul, sign_pos hx]; rfl
  | negative => rw [signOf, neg_one_mul, Left.sign_neg, sign_pos hx]; rfl

@[simp] theorem stored_infinity (s : Sign) : stored (.infinity s) = signed s posInf := by
  have hr : InRange (.infinity s) := trivial
  exact stored_of_inRange hr

@[simp] theorem stored_zero (s : Sign) : stored (.zero s) = real 0 := by
  have hr : InRange (.zero s) := trivial
  exact stored_of_inRange hr

@[simp] theorem stored_notANumber : stored .notANumber = nan := by
  have hr : InRange .notANumber := trivial
  exact stored_of_inRange hr

/-! What is stored for a special value, if it is what exact arithmetic gives. -/

theorem stored_infinity_eq {s : Sign} {a : Exact} (h : a = signed s posInf) :
    stored (.infinity s) = a.rounded nearest := by
  rw [h, stored_infinity]
  cases s <;> rfl

theorem stored_zero_eq {s : Sign} {a : Exact} (h : a = real 0) :
    stored (.zero s) = a.rounded nearest := by
  rw [h, stored_zero]
  exact nearest_zero.symm

theorem stored_notANumber_eq {a : Exact} (h : a = nan) :
    stored .notANumber = a.rounded nearest := by
  rw [h, stored_notANumber]
  rfl

theorem exactOf_finite (s : Sign) (m : ℕ) (e : ℤ) (hm : 0 < m) :
    exactOf (.finite s m e hm) = real (signOf s * (m * 2 ^ e)) := signed_real s _

theorem magnitude_pos {m : ℕ} (hm : 0 < m) (e : ℤ) : (0 : ℝ) < m * 2 ^ e :=
  mul_pos (Nat.cast_pos.mpr hm) (two_zpow_pos e)

/-! ## Products -/

theorem le_spacing {m : ℕ} {e : ℤ} (h : 2 ^ 52 ≤ m ∨ e ≤ -1074) : e ≤ spacing (m * 2 ^ e) := by
  rw [spacing]
  rcases h with hm | he
  · have hpos : 0 < m := Nat.lt_of_lt_of_le (by norm_num) hm
    have hlog : 52 + e ≤ Int.log 2 ((m : ℝ) * 2 ^ e) := by
      refine (Int.zpow_le_iff_le_log one_lt_two (magnitude_pos hpos e)).mp ?_
      rw [Nat.cast_ofNat, zpow_add₀ two_ne_zero]
      exact mul_le_mul_of_nonneg_right (by exact_mod_cast hm) (two_zpow_pos e).le
    omega
  · omega

theorem stored_mul_finite (s : Sign) {m₁ m₂ : ℕ} {e₁ e₂ : ℤ} (hm₁ : 0 < m₁) (hm₂ : 0 < m₂)
    (hr : (2 ^ 52 ≤ m₁ ∨ 2 ^ 52 ≤ m₂) ∨ e₁ + e₂ ≤ -1074) :
    stored (roundWithAccuracy Format.binary64 s (m₁ * m₂) (e₁ + e₂) .exact) =
      signed s (nearest (m₁ * 2 ^ e₁ * (m₂ * 2 ^ e₂))) := by
  have hx : (m₁ * 2 ^ e₁ * (m₂ * 2 ^ e₂) : ℝ) = (m₁ * m₂ : ℕ) * 2 ^ (e₁ + e₂) := by
    rw [zpow_add₀ two_ne_zero]
    push_cast
    ring
  rw [hx]
  refine stored_roundWithAccuracy s (magnitude_pos (Nat.mul_pos hm₁ hm₂) _) ?_ (le_spacing ?_)
  · rw [mul_div_cancel_right₀ _ (two_zpow_pos _).ne']
    exact locates_exact _
  · rcases hr with (h | h) | h
    · exact Or.inl (h.trans (Nat.le_mul_of_pos_right _ hm₂))
    · exact Or.inl (h.trans (Nat.le_mul_of_pos_left _ hm₁))
    · exact Or.inr h

theorem nan_mul (a : Exact) : nan * a = nan := by
  have h : infinite (nan.sign * a.sign) = nan := congrArg infinite (zero_mul a.sign)
  cases a <;> exact h

theorem mul_nan (a : Exact) : a * nan = nan := by
  have h : infinite (a.sign * nan.sign) = nan := congrArg infinite (mul_zero a.sign)
  cases a <;> exact h

/-- Infinities count by their signs. -/
theorem infinity_mul_infinity (s t : Sign) :
    signed s posInf * signed t posInf = signed (s * t) posInf := by
  cases s <;> cases t <;> rfl

theorem infinity_mul_finite (s t : Sign) {x : ℝ} (hx : 0 < x) :
    signed s posInf * real (signOf t * x) = signed (s * t) posInf := by
  have h : infinite ((signed s posInf).sign * SignType.sign (signOf t * x)) =
      signed (s * t) posInf := by
    rw [sign_signOf_mul t hx]
    cases s <;> cases t <;> rfl
  cases s <;> exact h

theorem finite_mul_infinity (s t : Sign) {x : ℝ} (hx : 0 < x) :
    real (signOf s * x) * signed t posInf = signed (s * t) posInf := by
  have h : infinite (SignType.sign (signOf s * x) * (signed t posInf).sign) =
      signed (s * t) posInf := by
    rw [sign_signOf_mul s hx]
    cases s <;> cases t <;> rfl
  cases t <;> exact h

/-- Of an infinity and zero there is no product. -/
theorem infinity_mul_zero (s : Sign) : signed s posInf * real 0 = nan := by
  have h : infinite ((signed s posInf).sign * SignType.sign (0 : ℝ)) = nan := by
    rw [sign_zero, mul_zero]
    rfl
  cases s <;> exact h

theorem zero_mul_infinity (t : Sign) : real 0 * signed t posInf = nan := by
  have h : infinite (SignType.sign (0 : ℝ) * (signed t posInf).sign) = nan := by
    rw [sign_zero, zero_mul]
    rfl
  cases t <;> exact h

theorem stored_mul {a b : UnpackedFloat} (ha : InRange a) (hb : InRange b) :
    stored (UnpackedFloat.mul Format.binary64 a b) = (exactOf a * exactOf b).rounded nearest := by
  cases a with
  | notANumber => exact stored_notANumber_eq (nan_mul _)
  | infinity s =>
      cases b with
      | notANumber => exact stored_notANumber_eq (mul_nan _)
      | infinity t => exact stored_infinity_eq (infinity_mul_infinity s t)
      | zero t => exact stored_notANumber_eq (infinity_mul_zero s)
      | finite t m e hm =>
          rw [exactOf_finite]
          exact stored_infinity_eq (infinity_mul_finite s t (magnitude_pos hm e))
  | zero s =>
      cases b with
      | notANumber => exact stored_notANumber_eq (mul_nan _)
      | infinity t => exact stored_notANumber_eq (zero_mul_infinity t)
      | zero t =>
          refine stored_zero_eq ?_
          rw [exactOf, exactOf, real_mul, zero_mul]
      | finite t m e hm =>
          refine stored_zero_eq ?_
          rw [exactOf, exactOf_finite, real_mul, zero_mul]
  | finite s m e hm =>
      cases b with
      | notANumber => exact stored_notANumber_eq (mul_nan _)
      | infinity t =>
          rw [exactOf_finite]
          exact stored_infinity_eq (finite_mul_infinity s t (magnitude_pos hm e))
      | zero t =>
          refine stored_zero_eq ?_
          rw [exactOf_finite, exactOf, real_mul, mul_zero]
      | finite t n f hn =>
          obtain ⟨_, _, _, ha⟩ := ha
          obtain ⟨_, _, _, hb⟩ := hb
          refine (stored_mul_finite (s * t) hm hn (by omega)).trans ?_
          rw [exactOf_finite, exactOf_finite, real_mul, signed_nearest, signOf_mul]
          exact congrArg nearest (by ring)

/-! ## Sums -/

/-- The numbers that doubles stand for are kept. -/
theorem nearest_of_inRange {u : UnpackedFloat} (h : InRange u) {x : ℝ} (hx : exactOf u = real x) :
    nearest x = real x := by
  cases u with
  | notANumber => cases hx
  | infinity s => cases s <;> cases hx
  | zero s =>
      obtain rfl := real.inj hx
      exact nearest_zero
  | finite s m e hm =>
      obtain ⟨hlt, hlow, hhigh, _⟩ := h
      rw [exactOf_finite] at hx
      obtain rfl := real.inj hx
      rw [← signed_nearest, nearest_eq_self hlt hlow hhigh, signed_real]

theorem nan_add (a : Exact) : nan + a = nan := by cases a <;> rfl

theorem add_nan (a : Exact) : a + nan = nan := by cases a <;> rfl

/-- Two mantissas on the lower of their exponents. -/
theorem aligned_sum (s t : Sign) (m n : ℕ) (e f : ℤ) :
    ((s.apply (decreaseExponent m e (min e f)).1 + t.apply (decreaseExponent n f (min e f)).1 : ℤ) :
        ℝ) * 2 ^ min e f =
      signOf s * (m * 2 ^ e) + signOf t * (n * 2 ^ f) := by
  obtain ⟨j, hj, hmin⟩ := exists_decreaseExponent m e (min e f)
  obtain ⟨k, hk, hmin'⟩ := exists_decreaseExponent n f (min e f)
  have hej : e - j = min e f := by omega
  have hfk : f - k = min e f := by omega
  have hm := mul_two_pow_mul m j e
  have hn := mul_two_pow_mul n k f
  rw [hej] at hm
  rw [hfk] at hn
  rw [hj, hk, Int.cast_add, apply_cast, apply_cast, Int.cast_natCast, Int.cast_natCast, add_mul,
    mul_assoc, mul_assoc, hm, hn]

theorem infinity_add_real (s : Sign) (x : ℝ) :
    signed s posInf + real x = signed s posInf := by
  cases s <;> rfl

theorem real_add_infinity (x : ℝ) (t : Sign) :
    real x + signed t posInf = signed t posInf := by
  cases t <;> rfl

theorem stored_add {a b : UnpackedFloat} (ha : InRange a) (hb : InRange b) :
    stored (UnpackedFloat.add Format.binary64 a b) = (exactOf a + exactOf b).rounded nearest := by
  cases a with
  | notANumber => exact stored_notANumber_eq (nan_add _)
  | infinity s =>
      cases b with
      | notANumber => exact stored_notANumber_eq (add_nan _)
      | infinity t =>
          cases s with
          | positive =>
              cases t with
              | positive => exact stored_infinity_eq rfl
              | negative => exact stored_notANumber_eq rfl
          | negative =>
              cases t with
              | positive => exact stored_notANumber_eq rfl
              | negative => exact stored_infinity_eq rfl
      | zero t => exact stored_infinity_eq (infinity_add_real s 0)
      | finite t n f hn =>
          rw [exactOf_finite]
          exact stored_infinity_eq (infinity_add_real s _)
  | zero s =>
      cases b with
      | notANumber => exact stored_notANumber_eq (add_nan _)
      | infinity t => exact stored_infinity_eq (real_add_infinity 0 t)
      | zero t =>
          have hzero : exactOf (.zero s) + exactOf (.zero t) = real 0 := by
            rw [exactOf, exactOf, real_add, add_zero]
          cases s <;> cases t <;> exact stored_zero_eq hzero
      | finite t n f hn =>
          have hself := nearest_of_inRange hb (exactOf_finite t n f hn)
          refine (stored_of_inRange hb).trans ?_
          rw [exactOf_finite, exactOf, real_add, zero_add]
          exact hself.symm
  | finite s m e hm =>
      cases b with
      | notANumber => exact stored_notANumber_eq (add_nan _)
      | infinity t =>
          rw [exactOf_finite]
          exact stored_infinity_eq (real_add_infinity _ t)
      | zero t =>
          have hself := nearest_of_inRange ha (exactOf_finite s m e hm)
          refine (stored_of_inRange ha).trans ?_
          rw [exactOf_finite, exactOf, real_add, add_zero]
          exact hself.symm
      | finite t n f hn =>
          refine (stored_normalize _ (min e f) .positive).trans ?_
          rw [exactOf_finite, exactOf_finite, real_add]
          exact congrArg nearest (aligned_sum s t m n e f)

theorem exactOf_neg (a : UnpackedFloat) : exactOf a.neg = -exactOf a := by
  cases a with
  | notANumber => rfl
  | infinity s => cases s <;> rfl
  | zero s => exact (congrArg real neg_zero).symm
  | finite s m e hm =>
      cases s with
      | positive => rfl
      | negative => exact (Exact.neg_neg _).symm

theorem inRange_neg {a : UnpackedFloat} (h : InRange a) : InRange a.neg := by
  cases a <;> exact h

/-- Subtraction is the addition of the negative, in either arithmetic. -/
theorem sub_eq_add_neg_unpacked (a b : UnpackedFloat) :
    UnpackedFloat.sub Format.binary64 a b = UnpackedFloat.add Format.binary64 a b.neg := by
  cases a with
  | notANumber => rfl
  | infinity s => cases b <;> rfl
  | zero s => cases b <;> rfl
  | finite s m e hm =>
      cases b with
      | notANumber => rfl
      | infinity t => rfl
      | zero t => rfl
      | finite t n f hn =>
          have hneg : ∀ k : ℤ, (-t).apply k = -t.apply k := by
            intro k
            cases t with
            | positive => rfl
            | negative => exact (Int.neg_neg k).symm
          simp only [UnpackedFloat.sub, UnpackedFloat.add, UnpackedFloat.neg, hneg, sub_eq_add_neg]

theorem stored_sub {a b : UnpackedFloat} (ha : InRange a) (hb : InRange b) :
    stored (UnpackedFloat.sub Format.binary64 a b) = (exactOf a - exactOf b).rounded nearest := by
  rw [sub_eq_add_neg_unpacked, stored_add ha (inRange_neg hb), exactOf_neg]
  rfl

/-! ## Quotients -/

theorem locates_offset {m : ℕ} {r st : Bool} {f : ℝ} (h0 : 0 ≤ f) (h1 : f < 1)
    (hround : r = true ↔ 1 / 2 ≤ f) (hsticky : st = true ↔ f ≠ 0 ∧ f ≠ 1 / 2) :
    Locates ⟨m, r, st⟩ (m + f) where
  le := le_add_of_nonneg_right h0
  lt := (add_lt_add_iff_left _).mpr h1
  round := by rwa [add_sub_cancel_left]
  sticky := by rwa [add_sub_cancel_left]

/-- The accuracy for a number at a given place in its unit. -/
theorem locates_accuracy {m : ℕ} {f : ℝ} (h0 : 0 ≤ f) (h1 : f < 1) :
    Locates (.ofMantissaAndAccuracy m <| if f = 0 then .exact else .inexact
      (if f < 1 / 2 then .lt else if f = 1 / 2 then .eq else .gt)) (m + f) := by
  split
  · rename_i hf
    rw [hf, add_zero]
    exact locates_exact m
  · rename_i hf
    split
    · rename_i hlow
      exact locates_offset h0 h1 (iff_of_false Bool.false_ne_true (not_le.mpr hlow))
        (iff_of_true rfl ⟨hf, hlow.ne⟩)
    · rename_i hlow
      split
      · rename_i hmid
        exact locates_offset h0 h1 (iff_of_true rfl hmid.ge)
          (iff_of_false Bool.false_ne_true fun h => h.2 hmid)
      · rename_i hmid
        exact locates_offset h0 h1 (iff_of_true rfl (not_lt.mp hlow)) (iff_of_true rfl ⟨hf, hmid⟩)

/-- The digits of a fraction, and where between two of them it lies. -/
theorem locates_fraction (n : ℕ) {d : ℕ} (hd : 0 < d) :
    Locates (.ofMantissaAndAccuracy (n / d) (accuracyOfFraction (n % d) d)) (n / d : ℝ) := by
  have hd' : (0 : ℝ) < d := Nat.cast_pos.mpr hd
  have hdiv : (d : ℝ) * (n / d : ℕ) + (n % d : ℕ) = n := by exact_mod_cast Nat.div_add_mod n d
  have hoff : (n / d : ℝ) = (n / d : ℕ) + (n % d : ℕ) / d := by
    rw [← hdiv]
    field_simp
  have hlt : n % d < d := Nat.mod_lt n hd
  generalize n / d = q at hoff ⊢
  generalize n % d = r at hoff hlt ⊢
  have hplace := locates_accuracy (m := q) (f := (r : ℝ) / d) (by positivity)
    ((div_lt_one hd').mpr (by exact_mod_cast hlt))
  have hzero : (r : ℝ) / d = 0 ↔ r = 0 := by
    rw [div_eq_zero_iff, or_iff_left hd'.ne', Nat.cast_eq_zero]
  have hlow : (r : ℝ) / d < 1 / 2 ↔ 2 * r < d := by
    rw [div_lt_div_iff₀ hd' two_pos, one_mul, mul_comm]
    exact_mod_cast Iff.rfl
  have hmid : (r : ℝ) / d = 1 / 2 ↔ 2 * r = d := by
    rw [div_eq_div_iff hd'.ne' two_ne_zero, one_mul, mul_comm]
    exact_mod_cast Iff.rfl
  have hcompare : compare (2 * r) d =
      if 2 * r < d then .lt else if 2 * r = d then .eq else .gt := by
    rw [Nat.compare_eq_ite_lt]
    split_ifs <;> first | rfl | omega
  rw [hoff, accuracyOfFraction, hcompare]
  simpa only [hzero, hlow, hmid] using hplace

theorem stored_div_finite (s : Sign) {m n : ℕ} {e f : ℤ} (hm : 0 < m) (hn : 0 < n) :
    stored (roundWithAccuracy Format.binary64 s (divCore Format.binary64 m e n f).1
        (divCore Format.binary64 m e n f).2.1 (divCore Format.binary64 m e n f).2.2) =
      signed s (nearest (m * 2 ^ e / (n * 2 ^ f))) := by
  have hx : (0 : ℝ) < m * 2 ^ e / (n * 2 ^ f) :=
    div_pos (mul_pos (Nat.cast_pos.mpr hm) (two_zpow_pos e))
      (mul_pos (Nat.cast_pos.mpr hn) (two_zpow_pos f))
  unfold divCore
  dsimp only
  generalize ht : min (e - f)
    (Format.binary64.targetExponent (totalExponent m e - totalExponent n f)) = t
  obtain ⟨k, hk⟩ := Int.eq_ofNat_of_zero_le (show 0 ≤ e - f - t by omega)
  rw [hk, Int.toNat_natCast, Nat.shiftLeft_eq]
  refine stored_roundWithAccuracy s hx ?_ ?_
  · have hfraction : (m * 2 ^ e / (n * 2 ^ f) / 2 ^ t : ℝ) = (m * 2 ^ k : ℕ) / n := by
      have hsplit : (2 : ℝ) ^ e = 2 ^ k * (2 ^ f * 2 ^ t) := by
        rw [← zpow_natCast, ← zpow_add₀ two_ne_zero, ← zpow_add₀ two_ne_zero]
        congr 1
        omega
      have hf := (two_zpow_pos f).ne'
      have ht := (two_zpow_pos t).ne'
      have hn' : (n : ℝ) ≠ 0 := by exact_mod_cast hn.ne'
      rw [hsplit]
      push_cast
      field_simp
    rw [hfraction]
    exact locates_fraction _ hn
  · -- the quotient has at least one digit less than its operands' difference
    have hm' : 2 ^ m.log2 ≤ m := Nat.log2_self_le hm.ne'
    have hn' : n ≤ 2 ^ (n.log2 + 1) := Nat.lt_log2_self.le
    have hlog : (m.log2 : ℤ) + e - (n.log2 + 1 + f) ≤
        Int.log 2 ((m : ℝ) * 2 ^ e / (n * 2 ^ f)) := by
      refine (Int.zpow_le_iff_le_log one_lt_two hx).mp ?_
      rw [Nat.cast_ofNat, zpow_sub₀ two_ne_zero, zpow_add₀ two_ne_zero, zpow_add₀ two_ne_zero]
      refine div_le_div₀ (mul_pos (Nat.cast_pos.mpr hm) (two_zpow_pos e)).le ?_
        (mul_pos (Nat.cast_pos.mpr hn) (two_zpow_pos f)) ?_
      · exact mul_le_mul_of_nonneg_right (by exact_mod_cast hm') (two_zpow_pos e).le
      · exact mul_le_mul_of_nonneg_right (by exact_mod_cast hn') (two_zpow_pos f).le
    rw [targetExponent_eq, totalExponent, totalExponent] at ht
    rw [spacing]
    omega

theorem nan_div (a : Exact) : nan / a = nan := by cases a <;> rfl

theorem div_nan (a : Exact) : a / nan = nan := by cases a <;> rfl

theorem infinity_div_infinity (s t : Sign) : signed s posInf / signed t posInf = nan := by
  cases s <;> cases t <;> rfl

theorem real_div_infinity (x : ℝ) (t : Sign) : real x / signed t posInf = real 0 := by
  cases t <;> rfl

theorem infinity_div_finite (s t : Sign) {x : ℝ} (hx : 0 < x) :
    signed s posInf / real (signOf t * x) = signed (s / t) posInf := by
  have h : (if signOf t * x = 0 then signed s posInf else
      infinite ((signed s posInf).sign * SignType.sign (signOf t * x))) =
        signed (s / t) posInf := by
    rw [if_neg (mul_ne_zero (signOf_ne_zero t) hx.ne'), sign_signOf_mul t hx]
    cases s <;> cases t <;> rfl
  cases s <;> exact h

/-- The divisor is not a zero: those of doubles have signs, which numbers do not. -/
theorem stored_div {a b : UnpackedFloat} (hb : exactOf b ≠ real 0) :
    stored (UnpackedFloat.div Format.binary64 a b) = (exactOf a / exactOf b).rounded nearest := by
  cases a with
  | notANumber => exact stored_notANumber_eq (nan_div _)
  | infinity s =>
      cases b with
      | notANumber => exact stored_notANumber_eq (div_nan _)
      | infinity t => exact stored_notANumber_eq (infinity_div_infinity s t)
      | zero t => exact absurd rfl hb
      | finite t n f hn =>
          rw [exactOf_finite]
          exact stored_infinity_eq (infinity_div_finite s t (magnitude_pos hn f))
  | zero s =>
      cases b with
      | notANumber => exact stored_notANumber_eq (div_nan _)
      | infinity t => exact stored_zero_eq (real_div_infinity 0 t)
      | zero t => exact absurd rfl hb
      | finite t n f hn =>
          refine stored_zero_eq ?_
          rw [exactOf_finite, exactOf, real_div _ (mul_ne_zero (signOf_ne_zero t)
            (magnitude_pos hn f).ne'), zero_div]
  | finite s m e hm =>
      cases b with
      | notANumber => exact stored_notANumber_eq (div_nan _)
      | infinity t =>
          rw [exactOf_finite]
          exact stored_zero_eq (real_div_infinity _ t)
      | zero t => exact absurd rfl hb
      | finite t n f hn =>
          refine (stored_div_finite (s / t) hm hn).trans ?_
          rw [exactOf_finite, exactOf_finite, real_div _ (mul_ne_zero (signOf_ne_zero t)
            (magnitude_pos hn f).ne'), signed_nearest, signOf_div]
          exact congrArg nearest (mul_div_mul_comm _ _ _ _).symm

end SolverPortfolio.Binary

import SolverPortfolio.Prediction
import SolverPortfolio.Proofs.Scalar.Exact

/-!
# Logarithms

Log space and the gamma function in exact arithmetic.
-/

namespace SolverPortfolio

/-!
## Log space

The logarithm of a number that is not negative, minus infinity for zero (`Exact.log`), keeps
everything: products become sums (`Exact.log_mul`, `Exact.foldl_add_log`) and the exponential of
a difference is a quotient (`Exact.exp_log_sub`). In exact arithmetic, then, `logSumExp` of
logarithms is the logarithm of the sum, whatever it is shifted by on the way
(`LogSpace.logSumExp_map_log`), and scaling log weights is scaling the weights
(`LogSpace.normalizeLogs_map_log`).
-/

/-! ### Logarithms -/

namespace Exact

/-- The logarithm of a number, minus infinity for zero. -/
noncomputable def log (x : ℝ) : Exact := Analytic.ln (real x)

theorem log_of_pos {x : ℝ} (hx : 0 < x) : log x = real (Real.log x) := if_pos hx

@[simp] theorem log_zero : log 0 = negInf := by
  show ln (real 0) = negInf
  rw [ln, if_neg (lt_irrefl _), if_pos rfl]

@[simp] theorem log_one : log 1 = real 0 := by
  rw [log_of_pos one_pos, Real.log_one]

theorem log_exp (x : ℝ) : log (Real.exp x) = real x := by
  rw [log_of_pos (Real.exp_pos x), Real.log_exp]

theorem exp_log {x : ℝ} (hx : 0 ≤ x) : Analytic.exp (log x) = real x := by
  rcases hx.eq_or_lt with rfl | hx
  · rw [log_zero]
    rfl
  · rw [log_of_pos hx]
    exact congrArg real (Real.exp_log hx)

theorem log_mul {x y : ℝ} (hx : 0 ≤ x) (hy : 0 ≤ y) : log x + log y = log (x * y) := by
  rcases hx.eq_or_lt with rfl | hx
  · rw [zero_mul, log_zero]
    rcases hy.eq_or_lt with rfl | hy
    · rw [log_zero]
      rfl
    · rw [log_of_pos hy]
      rfl
  · rcases hy.eq_or_lt with rfl | hy
    · rw [mul_zero, log_zero, log_of_pos hx]
      rfl
    · rw [log_of_pos hx, log_of_pos hy, log_of_pos (mul_pos hx hy), real_add,
        Real.log_mul hx.ne' hy.ne']

theorem log_pow {x : ℝ} (hx : 0 ≤ x) {n : ℕ} (hn : 0 < n) : real n * log x = log (x ^ n) := by
  rcases hx.eq_or_lt with rfl | hx
  · rw [zero_pow hn.ne', log_zero]
    show infinite (SignType.sign (n : ℝ) * -1) = negInf
    rw [sign_pos (Nat.cast_pos.mpr hn)]
    rfl
  · rw [log_of_pos hx, log_of_pos (pow_pos hx n), real_mul, Real.log_pow]

theorem exp_log_sub {x y : ℝ} (hx : 0 ≤ x) (hy : 0 < y) :
    Analytic.exp (log x - log y) = real (x / y) := by
  rw [log_of_pos hy]
  rcases hx.eq_or_lt with rfl | hx
  · rw [log_zero, zero_div]
    rfl
  · rw [log_of_pos hx, real_sub, ← Real.log_div hx.ne' hy.ne']
    exact congrArg real (Real.exp_log (div_pos hx hy))

theorem isNaN_log {x : ℝ} (hx : 0 ≤ x) : Scalar.isNaN (log x) = false := by
  rcases hx.eq_or_lt with rfl | hx
  · rw [log_zero]
    rfl
  · rw [log_of_pos hx]
    rfl

theorem log_lt_log {x y : ℝ} (hx : 0 ≤ x) (hy : 0 ≤ y) : log x < log y ↔ x < y := by
  rcases hx.eq_or_lt with rfl | hx
  · rcases hy.eq_or_lt with rfl | hy
    · exact iff_of_false (irrefl _) (lt_irrefl _)
    · rw [log_zero, log_of_pos hy]
      exact iff_of_true ⟨nofun, nofun, EReal.bot_lt_coe _⟩ hy
  · rcases hy.eq_or_lt with rfl | hy
    · rw [log_zero, log_of_pos hx]
      exact iff_of_false (fun h => not_lt_bot h.2.2) hx.not_gt
    · rw [log_of_pos hx, log_of_pos hy, real_lt, Real.log_lt_log_iff hx hy]

theorem max_log {x y : ℝ} (hx : 0 ≤ x) (hy : 0 ≤ y) :
    Scalar.max (log x) (log y) = log (max x y) := by
  rw [Scalar.max, isNaN_log hx, if_neg Bool.false_ne_true]
  split
  · rename_i hlt
    rw [max_eq_right ((log_lt_log hx hy).mp hlt).le]
  · rename_i hlt
    rw [max_eq_left (not_lt.mp (mt (log_lt_log hx hy).mpr hlt))]

/-- Adding up logarithms, those of ones left out. -/
theorem foldl_add_log {ι : Type} {p : ι → Bool} {F : ι → Exact} {f : ι → ℝ} {l : List ι}
    (hf : ∀ i ∈ l, 0 ≤ f i) (hF : ∀ i ∈ l, p i = true → F i = log (f i))
    (hone : ∀ i ∈ l, p i = false → f i = 1) {u : ℝ} (hu : 0 ≤ u) :
    (l.filter p).foldl (fun s i => s + F i) (log u) = log (u * (l.map f).prod) := by
  induction l generalizing u with
  | nil => rw [List.map_nil, List.prod_nil, mul_one]; rfl
  | cons i l ih =>
      rw [List.forall_mem_cons] at hf hF hone
      rw [List.filter_cons, List.map_cons, List.prod_cons, ← mul_assoc]
      cases hp : p i with
      | true =>
          rw [if_pos rfl, List.foldl_cons, hF.1 hp, log_mul hu hf.1]
          exact ih hf.2 hF.2 hone.2 (mul_nonneg hu hf.1)
      | false =>
          rw [if_neg Bool.false_ne_true, hone.1 hp, mul_one]
          exact ih hf.2 hF.2 hone.2 hu

theorem sum_log {ι : Type} {p : ι → Bool} {F : ι → Exact} {f : ι → ℝ} {l : List ι}
    (hf : ∀ i ∈ l, 0 ≤ f i) (hF : ∀ i ∈ l, p i = true → F i = log (f i))
    (hone : ∀ i ∈ l, p i = false → f i = 1) :
    Scalar.sum ((l.filter p).map F) = log (l.map f).prod := by
  rw [Scalar.sum, List.foldl_map, zero_eq, real_neg, neg_zero, ← log_one,
    foldl_add_log hf hF hone zero_le_one, one_mul]

end Exact

/-! ### Sums -/

namespace LogSpace

open Exact

theorem largest_map_log {xs : List ℝ} (h : ∀ x ∈ xs, 0 ≤ x) :
    largest (xs.map log) = log (xs.foldl max 0) := by
  have hfold : ∀ {u : ℝ}, 0 ≤ u → (xs.map log).foldl Scalar.max (log u) = log (xs.foldl max u) := by
    induction xs with
    | nil => exact fun _ => rfl
    | cons x xs ih =>
        rw [List.forall_mem_cons] at h
        intro u hu
        rw [List.map_cons, List.foldl_cons, List.foldl_cons, max_log hu h.1]
        exact ih h.2 (le_max_of_le_left hu)
  rw [largest, ← hfold le_rfl, log_zero]
  rfl

theorem le_foldl_max (xs : List ℝ) (u : ℝ) :
    u ≤ xs.foldl max u ∧ ∀ x ∈ xs, x ≤ xs.foldl max u := by
  induction xs generalizing u with
  | nil => exact ⟨le_rfl, nofun⟩
  | cons x xs ih =>
      obtain ⟨hu, hxs⟩ := ih (max u x)
      refine ⟨(le_max_left u x).trans hu, fun y hy => ?_⟩
      rcases List.mem_cons.mp hy with rfl | hy
      · exact (le_max_right u y).trans hu
      · exact hxs y hy

/-- The sum of exponentials of logarithms, shifted or not. -/
theorem logSumExp_map_log {xs : List ℝ} (h : ∀ x ∈ xs, 0 ≤ x) :
    logSumExp (xs.map log) = log xs.sum := by
  obtain ⟨htop, hle⟩ := le_foldl_max xs 0
  simp only [logSumExp, largest_map_log h]
  generalize xs.foldl max 0 = top at htop hle
  rcases htop.eq_or_lt with rfl | htop
  · -- The largest is zero, so there is nothing to add up.
    have hsum : xs.sum = 0 := List.sum_eq_zero fun x hx => le_antisymm (hle x hx) (h x hx)
    have hzero : (negInf == -Scalar.infinity) = true := decide_eq_true ⟨nofun, rfl⟩
    rw [hsum, log_zero, hzero, if_pos rfl]
    rfl
  · have hne : (log top == -Scalar.infinity) = false := by
      rw [log_of_pos htop]
      exact decide_eq_false fun h => Exact.noConfusion h.2
    have hshifted : ((xs.map log).map fun v => Analytic.exp (v - log top)) =
        (xs.map (· / top)).map real := by
      rw [List.map_map, List.map_map]
      exact List.map_congr_left fun x hx => exp_log_sub (h x hx) htop
    have hsum : (xs.map (· / top)).sum = xs.sum / top := by
      simp only [div_eq_mul_inv, List.sum_map_mul_right, List.map_id']
    rw [hne, if_neg Bool.false_ne_true, hshifted, sum_real, hsum]
    show log top + log (xs.sum / top) = log xs.sum
    rw [log_mul htop.le (div_nonneg (List.sum_nonneg h) htop.le), mul_div_cancel₀ _ htop.ne']

theorem normalizeLogs_map_log {xs : List ℝ} (h : ∀ x ∈ xs, 0 ≤ x) (hsum : 0 < xs.sum) :
    normalizeLogs (xs.map log) = xs.map fun x => real (x / xs.sum) := by
  simp only [normalizeLogs]
  rw [logSumExp_map_log h, log_of_pos hsum, if_pos (isFinite_real _), List.map_map,
    ← log_of_pos hsum]
  exact List.map_congr_left fun x hx => exp_log_sub (h x hx) hsum

/-- Where every weight is zero there is nothing to tell the entries apart. -/
theorem normalizeLogs_map_log_of_sum_eq_zero {xs : List ℝ} (h : ∀ x ∈ xs, 0 ≤ x)
    (hsum : xs.sum = 0) : normalizeLogs (xs.map log) = uniform xs.length := by
  simp only [normalizeLogs]
  rw [logSumExp_map_log h, hsum, log_zero, List.length_map]
  rfl

end LogSpace

end SolverPortfolio

namespace SolverPortfolio.Gamma

/-!
## The gamma function on positive numbers

Read exactly, Lanczos' approximation is a number wherever its argument is positive: over a common
denominator all coefficients of its rational part are positive (`Gamma.lanczosSum_pos`), so that
its logarithm exists. With the reflection formula below one half this holds of the logarithm of
the gamma function on all positive numbers (`Gamma.isFinite_lnGamma`).
-/

open Exact

/-- What the terms from index `i` on add up to, for an argument that is one less than `x`. -/
noncomputable def termSum (x : ℝ) : ℕ → List ℝ → ℝ
  | _, [] => 0
  | i, c :: cs => c / (x + i) + termSum x (i + 1) cs

theorem addTerms_real {x : ℝ} (hx : 0 < x) (i : ℕ) (cs : List ℝ) (total : ℝ) :
    addTerms (real (x - 1)) (i + 1) (cs.map real) (real total) =
      real (total + termSum x i cs) := by
  induction cs generalizing i total with
  | nil => simp [addTerms, termSum]
  | cons c cs ih =>
      have hpos : 0 < x + i := by positivity
      have hterm : real c / (real (x - 1) + Scalar.ofNat (i + 1)) = real (c / (x + i)) := by
        rw [ofNat_eq, real_add, Nat.cast_succ, sub_add_add_cancel, real_div _ hpos.ne']
      simp only [List.map_cons, addTerms, hterm, real_add, termSum]
      rw [ih, add_assoc]

/-- The coefficients as real numbers. -/
noncomputable def realCoefficients : List ℝ :=
  [676.5203681218851, -1259.1392167224028, 771.3234287776531, -176.6150291621406,
    12.507343278686905, -0.13857109526572012, 9.984369578019572e-6, 1.5056327351493116e-7]

/-- The rational part of the approximation. -/
noncomputable def lanczosSum (x : ℝ) : ℝ := 0.9999999999998099 + termSum x 0 realCoefficients

theorem lanczosSum_pos {x : ℝ} (hx : 0 < x) : 0 < lanczosSum x := by
  simp only [lanczosSum, realCoefficients, termSum]
  field_simp
  -- Multiplied out, no coefficient of the numerator is negative.
  ring_nf
  positivity

theorem addTerms_coefficients {x : ℝ} (hx : 0 < x) :
    addTerms (real (x - 1)) 1 coefficients leadCoefficient = real (lanczosSum x) :=
  addTerms_real hx 0 realCoefficients 0.9999999999998099

theorem isFinite_lanczos {x : ℝ} (hx : 0 < x) : Scalar.isFinite (lanczos (real x)) = true := by
  have hshift : real x - 1 = real (x - 1) := by rw [one_eq, real_sub]
  have ht : 0 < x - 1 + 7 + 0.5 := by linarith
  have hlog : ∀ {y : ℝ}, 0 < y → Analytic.ln (real y) = real (Real.log y) := log_of_pos
  have hpi : (2 : Exact) * Analytic.pi = real (2 * Real.pi) := congrArg (· * real Real.pi) rfl
  have htop : real (x - 1) + 7 + 0.5 = real (x - 1 + 7 + 0.5) := rfl
  simp only [lanczos, hshift, addTerms_coefficients hx, htop, hpi, hlog ht,
    hlog (lanczosSum_pos hx), hlog Real.two_pi_pos]
  rfl

/-- The logarithm of the gamma function is a number on positive numbers. -/
theorem isFinite_lnGamma {x : ℝ} (hx : 0 < x) : Scalar.isFinite (lnGamma (real x)) = true := by
  unfold lnGamma
  split
  · rename_i hhalf
    have hlt : x < 0.5 := (real_lt _ _).mp hhalf
    have hsin : 0 < Real.sin (Real.pi * x) := by
      refine Real.sin_pos_of_pos_of_lt_pi (mul_pos Real.pi_pos hx) ?_
      nlinarith [Real.pi_pos]
    have hreflected : Analytic.ln (Analytic.pi / Analytic.sin (Analytic.pi * real x)) =
        real (Real.log (Real.pi / Real.sin (Real.pi * x))) := by
      have hquotient : (Analytic.pi : Exact) / Analytic.sin (Analytic.pi * real x) =
          real (Real.pi / Real.sin (Real.pi * x)) := real_div _ hsin.ne'
      rw [hquotient]
      exact log_of_pos (div_pos Real.pi_pos hsin)
    obtain ⟨y, hy⟩ := eq_real_of_isFinite (isFinite_lanczos (sub_pos.mpr (by linarith : x < 1)))
    rw [hreflected, one_eq, real_sub, hy, real_sub]
    rfl
  · exact isFinite_lanczos hx

end SolverPortfolio.Gamma

import SolverPortfolio.Proofs.Counts
import SolverPortfolio.Proofs.LogSpace
import SolverPortfolio.Proofs.Portfolio.Rates
import SolverPortfolio.Proofs.Portfolio.Sizes

/-!
# Likelihoods as numbers

The log likelihood of a row of counts is the logarithm of a number that is not negative
(`Mixture.actionLogLikelihood_eq`): a product of powers of probabilities, or for Dirichlet
concentrations an exponential of differences of the gamma logarithm. One more outcome multiplies
that number by the probability the component predicts for it
(`Mixture.rowLikelihood_update`), which is where the functional equation of the gamma function
comes in. Everything else about mixtures follows from these two facts.
-/

namespace SolverPortfolio

open Scalar LogSpace

/-- A function that is a number on positive numbers. -/
def GammaFunctions.FiniteOnPositive (f : Exact → Exact) : Prop :=
  ∀ x : ℝ, 0 < x → isFinite (f (.real x)) = true

/-- What the logarithm of the gamma function satisfies: it is a number on positive numbers, and
one more in the argument adds the argument's logarithm. -/
structure GammaFunctions.IsLogGamma (f : Exact → Exact) : Prop where
  finite : ∀ x : ℝ, 0 < x → isFinite (f (.real x)) = true
  succ : ∀ x : ℝ, 0 < x → f (.real (x + 1)) = f (.real x) + Analytic.ln (.real x)

/-- Euler's gamma function satisfies it. -/
theorem GammaFunctions.isLogGamma_euler :
    IsLogGamma fun x : Exact => Exact.log (Real.Gamma x.toReal) where
  finite := by
    intro x hx
    show isFinite (Exact.log (Real.Gamma x)) = true
    rw [Exact.log_of_pos (Real.Gamma_pos_of_pos hx)]
    rfl
  succ := by
    intro x hx
    show Exact.log (Real.Gamma (x + 1)) = Exact.log (Real.Gamma x) + Exact.log x
    rw [Real.Gamma_add_one hx.ne', mul_comm, Exact.log_mul (Real.Gamma_pos_of_pos hx).le hx.le]

theorem Exact.sum_range (n : ℕ) (f : ℕ → ℝ) :
    Scalar.sum ((List.range n).map fun d => real (f d)) = real (∑ d ∈ Finset.range n, f d) := by
  have hsum := sum_real ((List.range n).map f)
  rwa [List.map_map] at hsum

/-- A factor in one term is a factor of the product. -/
theorem prod_range_of_mul {n a : ℕ} {f g : ℕ → ℝ} {r : ℝ} (ha : a < n) (hself : g a = f a * r)
    (hne : ∀ b < n, b ≠ a → g b = f b) :
    ∏ b ∈ Finset.range n, g b = (∏ b ∈ Finset.range n, f b) * r := by
  have hmem : a ∈ Finset.range n := Finset.mem_range.mpr ha
  have hrest : ∏ b ∈ (Finset.range n).erase a, g b = ∏ b ∈ (Finset.range n).erase a, f b :=
    Finset.prod_congr rfl fun b hb =>
      hne b (Finset.mem_range.mp (Finset.mem_of_mem_erase hb)) (Finset.ne_of_mem_erase hb)
  rw [← Finset.mul_prod_erase _ g hmem, ← Finset.mul_prod_erase _ f hmem, hself, hrest,
    mul_right_comm]

theorem sum_range_update_succ {n d : ℕ} (hd : d < n) (c : ℕ → ℕ) :
    ∑ e ∈ Finset.range n, (Function.update c d (c d + 1) e : ℝ) =
      ∑ e ∈ Finset.range n, (c e : ℝ) + 1 := by
  have hmem : d ∈ Finset.range n := Finset.mem_range.mpr hd
  rw [← Nat.cast_sum, ← Nat.cast_sum, Finset.sum_update_of_mem hmem, ← Nat.cast_succ,
    Finset.sdiff_singleton_eq_erase, ← Finset.add_sum_erase _ c hmem]
  exact congrArg Nat.cast (Nat.add_right_comm ..)

namespace Mixture

open GammaFunctions

/-! ## Predictions -/

/-- Probabilities that sum to one, or positive concentrations. -/
def IsRealRow (family : Family) (n : ℕ) (θ : ℕ → ℝ) : Prop :=
  match family with
  | .multinomial => (∀ d < n, 0 ≤ θ d) ∧ ∑ d ∈ Finset.range n, θ d = 1
  | .dcm => ∀ d < n, 0 < θ d

/-- Probabilities up to scale, or positive concentrations. -/
def IsNonnegRow (family : Family) (n : ℕ) (θ : ℕ → ℝ) : Prop :=
  match family with
  | .multinomial => ∀ d < n, 0 ≤ θ d
  | .dcm => ∀ d < n, 0 < θ d

theorem IsRealRow.isNonnegRow {family : Family} {n : ℕ} {θ : ℕ → ℝ}
    (hθ : IsRealRow family n θ) : IsNonnegRow family n θ := by
  cases family with
  | multinomial => exact hθ.1
  | dcm => exact hθ

/-- The probability of the next outcome after these counts. -/
noncomputable def rowPredictive (family : Family) (n : ℕ) (θ : ℕ → ℝ) (c : ℕ → ℕ) (d : ℕ) : ℝ :=
  match family with
  | .multinomial => θ d
  | .dcm => (θ d + c d) / (∑ e ∈ Finset.range n, θ e + ∑ e ∈ Finset.range n, (c e : ℝ))

variable {family : Family} {n : ℕ} {θ : ℕ → ℝ} {c : ℕ → ℕ}

theorem sum_add_pos (hθ : IsRealRow .dcm n θ) (hn : 0 < n) :
    0 < ∑ d ∈ Finset.range n, θ d + ∑ d ∈ Finset.range n, (c d : ℝ) := by
  have hpos := Finset.sum_pos (fun d hd => hθ d (Finset.mem_range.mp hd))
    (Finset.nonempty_range_iff.mpr hn.ne')
  have hnonneg : 0 ≤ ∑ d ∈ Finset.range n, (c d : ℝ) :=
    Finset.sum_nonneg fun d _ => Nat.cast_nonneg (c d)
  linarith

/-- The predicted probabilities sum to one. -/
theorem sum_rowPredictive (hθ : IsRealRow family n θ) (hn : 0 < n) :
    ∑ d ∈ Finset.range n, rowPredictive family n θ c d = 1 := by
  cases family with
  | multinomial => exact hθ.2
  | dcm =>
      simp only [rowPredictive]
      rw [← Finset.sum_div, Finset.sum_add_distrib, div_self (sum_add_pos hθ hn).ne']

theorem rowTotal_eq (u : ℕ → UInt32) : rowTotal ((List.range n).map u) =
    Exact.real (∑ d ∈ Finset.range n, ((u d).toNat : ℝ)) := by
  rw [rowTotal, List.map_map]
  exact Exact.sum_range n fun d => (u d).toNat

theorem predictive_eq (hθ : IsRealRow family n θ) (hn : 0 < n) (u : ℕ → UInt32) :
    predictive family ((List.range n).map fun d => Exact.real (θ d)) ((List.range n).map u) =
      (List.range n).map fun d =>
        Exact.real (rowPredictive family n θ (fun e => (u e).toNat) d) := by
  cases family with
  | multinomial => rfl
  | dcm =>
      simp only [predictive]
      rw [Exact.sum_range, rowTotal_eq, Exact.real_add, List.zipWith_map, List.zipWith_self]
      refine List.map_congr_left fun d _ => ?_
      exact Exact.real_div _ (sum_add_pos hθ hn).ne'

/-! ## Likelihoods -/

section likelihood

variable [GammaFunctions Exact]

/-- The gamma logarithm as a function of real numbers. -/
noncomputable def gammaLog (x : ℝ) : ℝ := (lnGamma (Exact.real x)).toReal

/-- The probability of a sequence of outcomes with these counts. -/
noncomputable def rowLikelihood (family : Family) (n : ℕ) (θ : ℕ → ℝ) (c : ℕ → ℕ) : ℝ :=
  match family with
  | .multinomial => ∏ d ∈ Finset.range n, θ d ^ c d
  | .dcm =>
    let total := ∑ d ∈ Finset.range n, θ d
    Real.exp (gammaLog total - gammaLog (total + ∑ d ∈ Finset.range n, (c d : ℝ))) *
      ∏ d ∈ Finset.range n, Real.exp (gammaLog (θ d + c d) - gammaLog (θ d))

theorem rowLikelihood_nonneg (hθ : IsNonnegRow family n θ) : 0 ≤ rowLikelihood family n θ c := by
  cases family with
  | multinomial =>
      exact Finset.prod_nonneg fun d hd => pow_nonneg (hθ d (Finset.mem_range.mp hd)) _
  | dcm => exact mul_nonneg (Real.exp_pos _).le (Finset.prod_nonneg fun _ _ => (Real.exp_pos _).le)

theorem rowLikelihood_pos (hθ : ∀ d < n, 0 < θ d) : 0 < rowLikelihood family n θ c := by
  cases family with
  | multinomial => exact Finset.prod_pos fun d hd => pow_pos (hθ d (Finset.mem_range.mp hd)) _
  | dcm => exact mul_pos (Real.exp_pos _) (Finset.prod_pos fun _ _ => Real.exp_pos _)

theorem rowLikelihood_congr {c' : ℕ → ℕ} (h : ∀ d < n, c d = c' d) :
    rowLikelihood family n θ c = rowLikelihood family n θ c' := by
  have hcell : ∀ d ∈ Finset.range n, c d = c' d := fun d hd => h d (Finset.mem_range.mp hd)
  cases family with
  | multinomial => exact Finset.prod_congr rfl fun d hd => by rw [hcell d hd]
  | dcm =>
      have hsum : ∑ d ∈ Finset.range n, (c d : ℝ) = ∑ d ∈ Finset.range n, (c' d : ℝ) :=
        Finset.sum_congr rfl fun d hd => by rw [hcell d hd]
      simp only [rowLikelihood, hsum]
      congr 1
      exact Finset.prod_congr rfl fun d hd => by rw [hcell d hd]

/-- To have seen nothing is certain. -/
theorem rowLikelihood_of_zero (hc : ∀ d < n, c d = 0) : rowLikelihood family n θ c = 1 := by
  have hzero : ∀ d ∈ Finset.range n, c d = 0 := fun d hd => hc d (Finset.mem_range.mp hd)
  cases family with
  | multinomial =>
      refine Finset.prod_eq_one fun d hd => ?_
      rw [hzero d hd, pow_zero]
  | dcm =>
      have hsum : ∑ d ∈ Finset.range n, (c d : ℝ) = 0 :=
        Finset.sum_eq_zero fun d hd => by rw [hzero d hd, Nat.cast_zero]
      have hprod : ∏ d ∈ Finset.range n, Real.exp (gammaLog (θ d + c d) - gammaLog (θ d)) = 1 :=
        Finset.prod_eq_one fun d hd => by
          rw [hzero d hd, Nat.cast_zero, add_zero, sub_self, Real.exp_zero]
      simp only [rowLikelihood, hsum, hprod, add_zero, sub_self, Real.exp_zero, mul_one]

theorem lnGamma_real (hfinite : FiniteOnPositive (lnGamma : Exact → Exact)) {x : ℝ}
    (hx : 0 < x) : lnGamma (Exact.real x) = Exact.real (gammaLog x) := by
  obtain ⟨y, hy⟩ := Exact.eq_real_of_isFinite (hfinite x hx)
  rw [gammaLog, hy]
  rfl

theorem gammaLog_succ (hgamma : IsLogGamma (lnGamma : Exact → Exact)) {x : ℝ} (hx : 0 < x) :
    gammaLog (x + 1) = gammaLog x + Real.log x := by
  have hsucc := hgamma.succ x hx
  rw [lnGamma_real hgamma.finite hx, lnGamma_real hgamma.finite (by linarith)] at hsucc
  exact Exact.real.inj (hsucc.trans (congrArg (Exact.real (gammaLog x) + ·) (Exact.log_of_pos hx)))

/-- One more outcome multiplies the likelihood by its predicted probability. -/
theorem rowLikelihood_update (hθ : IsRealRow family n θ)
    (hgamma : family = .dcm → IsLogGamma (lnGamma : Exact → Exact)) {d : ℕ} (hd : d < n) :
    rowLikelihood family n θ (Function.update c d (c d + 1)) =
      rowLikelihood family n θ c * rowPredictive family n θ c d := by
  cases family with
  | multinomial =>
      refine prod_range_of_mul hd ?_ fun e _ hne => ?_
      · rw [Function.update_self, pow_succ]
        rfl
      · rw [Function.update_of_ne hne]
  | dcm =>
      have hlog := hgamma rfl
      have hpos := sum_add_pos (c := c) hθ (Nat.zero_lt_of_lt hd)
      have hposd : 0 < θ d + c d := add_pos_of_pos_of_nonneg (hθ d hd) (Nat.cast_nonneg _)
      -- The outcome's own factor grows by `θ d + c d`, and the leading one falls by the sum.
      have hterms : ∏ e ∈ Finset.range n, Real.exp
          (gammaLog (θ e + (Function.update c d (c d + 1) e : ℕ)) - gammaLog (θ e)) =
            (∏ e ∈ Finset.range n, Real.exp (gammaLog (θ e + c e) - gammaLog (θ e))) *
              (θ d + c d) := by
        refine prod_range_of_mul hd ?_ fun e _ hne => ?_
        · rw [Function.update_self, Nat.cast_succ, ← add_assoc, gammaLog_succ hlog hposd,
            add_sub_right_comm, Real.exp_add, Real.exp_log hposd]
        · rw [Function.update_of_ne hne]
      have hlead : ∀ x : ℝ, Real.exp (x - gammaLog (∑ e ∈ Finset.range n, θ e +
          (∑ e ∈ Finset.range n, (c e : ℝ) + 1))) = Real.exp (x - gammaLog
            (∑ e ∈ Finset.range n, θ e + ∑ e ∈ Finset.range n, (c e : ℝ))) /
              (∑ e ∈ Finset.range n, θ e + ∑ e ∈ Finset.range n, (c e : ℝ)) := by
        intro x
        rw [← add_assoc, gammaLog_succ hlog hpos, ← sub_sub, Real.exp_sub, Real.exp_log hpos]
      simp only [rowLikelihood, rowPredictive]
      rw [hterms, sum_range_update_succ hd, hlead]
      ring

omit [GammaFunctions Exact] in
theorem categoricalLogLikelihood_eq (hθ : ∀ d < n, 0 ≤ θ d) (u : ℕ → UInt32) :
    categoricalLogLikelihood ((List.range n).map fun d => Exact.real (θ d))
      ((List.range n).map u) = Exact.log (∏ d ∈ Finset.range n, θ d ^ (u d).toNat) := by
  rw [categoricalLogLikelihood, List.zip_map', List.filter_map, List.map_map]
  refine Exact.sum_log (fun d hd => ?_) (fun d hd hseen => ?_) (fun d _ hnone => ?_)
  · exact pow_nonneg (hθ d (List.mem_range.mp hd)) _
  · refine Exact.log_pow (hθ d (List.mem_range.mp hd)) (Nat.pos_of_ne_zero fun hzero => ?_)
    exact bne_iff_ne.mp hseen (UInt32.toNat.inj hzero)
  · have hzero : u d = 0 := by simpa using hnone
    rw [hzero]
    rfl

theorem urnLogLikelihood_eq (hθ : IsNonnegRow .dcm n θ)
    (hfinite : FiniteOnPositive (lnGamma : Exact → Exact)) (hn : 0 < n) (u : ℕ → UInt32) :
    urnLogLikelihood ((List.range n).map fun d => Exact.real (θ d)) ((List.range n).map u) =
      Exact.log (rowLikelihood .dcm n θ fun d => (u d).toNat) := by
  have htotal : 0 < ∑ d ∈ Finset.range n, θ d := by
    have hpos := sum_add_pos (c := fun _ => 0) hθ hn
    simpa using hpos
  have hstart : lnGamma (Exact.real (∑ d ∈ Finset.range n, θ d)) -
      lnGamma (Exact.real (∑ d ∈ Finset.range n, θ d) +
        Exact.real (∑ d ∈ Finset.range n, ((u d).toNat : ℝ))) =
      Exact.log (Real.exp (gammaLog (∑ d ∈ Finset.range n, θ d) -
        gammaLog (∑ d ∈ Finset.range n, θ d + ∑ d ∈ Finset.range n, ((u d).toNat : ℝ)))) := by
    rw [Exact.real_add, lnGamma_real hfinite htotal, lnGamma_real hfinite (sum_add_pos hθ hn),
      Exact.real_sub, Exact.log_exp]
  rw [urnLogLikelihood, Exact.sum_range, rowTotal_eq, hstart, List.zip_map', List.filter_map,
    List.foldl_map]
  refine Exact.foldl_add_log (fun d _ => (Real.exp_pos _).le) (fun d hd hseen => ?_)
    (fun d _ hnone => ?_) (Real.exp_pos _).le
  · have hpos := hθ d (List.mem_range.mp hd)
    show lnGamma (Exact.real (θ d) + Exact.real (u d).toNat) - lnGamma (Exact.real (θ d)) = _
    rw [Exact.real_add, lnGamma_real hfinite hpos,
      lnGamma_real hfinite (add_pos_of_pos_of_nonneg hpos (Nat.cast_nonneg _)), Exact.real_sub,
      Exact.log_exp]
  · have hzero : u d = 0 := by simpa using hnone
    simp [hzero]

/-- The log likelihood of a row is the logarithm of its likelihood. -/
theorem actionLogLikelihood_eq (hθ : IsNonnegRow family n θ)
    (hgamma : family = .dcm → 0 < n ∧ FiniteOnPositive (lnGamma : Exact → Exact))
    (u : ℕ → UInt32) :
    actionLogLikelihood family ((List.range n).map fun d => Exact.real (θ d))
      ((List.range n).map u) = Exact.log (rowLikelihood family n θ fun d => (u d).toNat) := by
  cases family with
  | multinomial => exact categoricalLogLikelihood_eq hθ u
  | dcm => exact urnLogLikelihood_eq hθ (hgamma rfl).2 (hgamma rfl).1 u

end likelihood

end Mixture

end SolverPortfolio

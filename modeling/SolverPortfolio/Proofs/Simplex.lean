import SolverPortfolio.Proofs.LogSpace
import SolverPortfolio.Proofs.Portfolio.Scores

/-!
# Probability vectors

Numbers from zero on that sum to one (`LogSpace.IsSimplex`). In exact arithmetic both ways of
making such a vector always make one. Scores are divided by their sum, unless it is no divisor
(`LogSpace.isSimplex_normalizeScores`). Logarithms may be anything at all, also infinite or not a
number (`LogSpace.isSimplex_normalizeLogs`): if their sum of exponentials is a positive number,
then every one of them is the logarithm of a number, and otherwise the vector is uniform.
-/

namespace SolverPortfolio

open Scalar

namespace Exact

theorem zero_le_iff {a : Exact} : 0 ≤ a ↔ (∃ x : ℝ, 0 ≤ x ∧ a = real x) ∨ a = posInf := by
  constructor
  · intro h
    rw [zero_eq] at h
    cases a with
    | real x => exact Or.inl ⟨x, (real_le _ _).mp h, rfl⟩
    | posInf => exact Or.inr rfl
    | negInf => exact absurd h (not_real_le_negInf 0)
    | nan => exact absurd rfl h.2.1
  · rintro (⟨x, hx, rfl⟩ | rfl)
    · rwa [zero_eq, real_le]
    · rw [zero_eq]
      exact real_le_posInf 0

theorem exists_map_real {values : List Exact} (h : ∀ v ∈ values, Scalar.isFinite v = true) :
    ∃ xs : List ℝ, values = xs.map real := by
  refine ⟨values.map toReal, ?_⟩
  rw [List.map_map]
  refine (List.map_id values).symm.trans (List.map_congr_left fun v hv => ?_)
  obtain ⟨x, rfl⟩ := eq_real_of_isFinite (h v hv)
  rfl

end Exact

namespace LogSpace

/-- Numbers from zero on that sum to one. -/
structure IsSimplex (values : List Exact) : Prop where
  nonneg : ∀ v ∈ values, 0 ≤ v
  sum : Scalar.sum values = 1

theorem isSimplex_map_real_iff {xs : List ℝ} :
    IsSimplex (xs.map Exact.real) ↔ (∀ x ∈ xs, 0 ≤ x) ∧ xs.sum = 1 := by
  constructor
  · rintro ⟨hnonneg, hsum⟩
    rw [Exact.sum_real, Exact.one_eq] at hsum
    refine ⟨fun x hx => ?_, Exact.real.inj hsum⟩
    have h := hnonneg _ (List.mem_map_of_mem hx)
    rwa [Exact.zero_eq, Exact.real_le] at h
  · rintro ⟨hnonneg, hsum⟩
    refine ⟨fun v hv => ?_, ?_⟩
    · obtain ⟨x, hx, rfl⟩ := List.mem_map.mp hv
      rw [Exact.zero_eq, Exact.real_le]
      exact hnonneg x hx
    · rw [Exact.sum_real, hsum, Exact.one_eq]

theorem IsSimplex.exists_real {values : List Exact} (h : IsSimplex values) :
    ∃ xs : List ℝ, values = xs.map Exact.real ∧ (∀ x ∈ xs, 0 ≤ x) ∧ xs.sum = 1 := by
  have hfinite : isFinite (Scalar.sum values) = true := by
    rw [h.sum, Exact.one_eq]
    rfl
  obtain ⟨xs, rfl⟩ := Exact.exists_map_real (Rounded.isFinite_of_sum hfinite)
  exact ⟨xs, rfl, isSimplex_map_real_iff.mp h⟩

theorem IsSimplex.check {values : List Exact} (h : IsSimplex values) :
    Mixture.isSimplex values = true := by
  have hslack : Scalar.abs (Scalar.sum values - 1) < (1e-6 : Exact) := by
    rw [h.sum, Exact.one_eq, Exact.real_sub, sub_self, Exact.abs_real, abs_zero]
    exact (Exact.real_lt _ _).mpr (by norm_num)
  obtain ⟨xs, rfl, hnonneg, -⟩ := h.exists_real
  rw [Mixture.isSimplex, Bool.and_eq_true_iff, List.all_eq_true]
  refine ⟨fun v hv => ?_, decide_eq_true hslack⟩
  obtain ⟨x, hx, rfl⟩ := List.mem_map.mp hv
  exact Exact.isNonneg_iff.mpr ⟨x, hnonneg x hx, rfl⟩

/-! ## Uniform vectors -/

theorem uniform_eq {n : ℕ} (hn : 0 < n) :
    uniform n = (List.replicate n (1 / n : ℝ)).map Exact.real := by
  have hmax : n.max 1 = n := Nat.max_eq_left hn
  rw [uniform, uniformShare, hmax, List.map_replicate, Exact.one_eq, Exact.ofNat_eq,
    Exact.real_div _ (Nat.cast_ne_zero.mpr hn.ne')]

theorem isSimplex_uniform {n : ℕ} (hn : 0 < n) : IsSimplex (uniform n) := by
  rw [uniform_eq hn, isSimplex_map_real_iff]
  constructor
  · intro x hx
    obtain rfl := (List.mem_replicate.mp hx).2
    positivity
  · rw [List.sum_replicate, nsmul_eq_mul, mul_one_div_cancel (Nat.cast_ne_zero.mpr hn.ne')]

/-! ## Scaled vectors -/

theorem sum_map_div (xs : List ℝ) (r : ℝ) : (xs.map (· / r)).sum = xs.sum / r := by
  simp only [div_eq_mul_inv, List.sum_map_mul_right, List.map_id']

theorem normalizeScores_map_real {xs : List ℝ} (hpos : 0 < xs.sum) :
    normalizeScores (xs.map Exact.real) = (xs.map (· / xs.sum)).map Exact.real := by
  have htotal : (0 : Exact) < Exact.real xs.sum ∧ isFinite (Exact.real xs.sum) = true :=
    ⟨by rwa [Exact.zero_eq, Exact.real_lt], rfl⟩
  simp only [normalizeScores]
  rw [Exact.sum_real, if_pos htotal, List.map_map, List.map_map]
  exact List.map_congr_left fun x _ => Exact.real_div _ hpos.ne'

/-- Scores that are not negative are scaled to a probability vector. -/
theorem isSimplex_normalizeScores {values : List Exact} (hne : values ≠ [])
    (h : ∀ v ∈ values, 0 ≤ v) : IsSimplex (normalizeScores values) := by
  by_cases htotal : 0 < Scalar.sum values ∧ isFinite (Scalar.sum values) = true
  · obtain ⟨xs, rfl⟩ := Exact.exists_map_real (Rounded.isFinite_of_sum htotal.2)
    have hpos : 0 < xs.sum := by
      have hpos := htotal.1
      rwa [Exact.sum_real, Exact.zero_eq, Exact.real_lt] at hpos
    rw [normalizeScores_map_real hpos, isSimplex_map_real_iff, sum_map_div,
      div_self hpos.ne']
    refine ⟨fun y hy => ?_, rfl⟩
    obtain ⟨x, hx, rfl⟩ := List.mem_map.mp hy
    have hx' := h _ (List.mem_map_of_mem hx)
    rw [Exact.zero_eq, Exact.real_le] at hx'
    exact div_nonneg hx' hpos.le
  · simp only [normalizeScores]
    rw [if_neg htotal]
    exact isSimplex_uniform (List.length_pos_iff.mpr hne)

/-! ## Vectors from logarithms -/

/-- What is a real number or minus infinity is a logarithm. -/
theorem exists_map_log {logs : List Exact}
    (h : ∀ w ∈ logs, (∃ x : ℝ, w = .real x) ∨ w = .negInf) :
    ∃ xs : List ℝ, logs = xs.map Exact.log ∧ ∀ x ∈ xs, 0 ≤ x := by
  induction logs with
  | nil => exact ⟨[], rfl, nofun⟩
  | cons w logs ih =>
      rw [List.forall_mem_cons] at h
      obtain ⟨xs, rfl, hxs⟩ := ih h.2
      rcases h.1 with ⟨y, rfl⟩ | rfl
      · refine ⟨Real.exp y :: xs, ?_, ?_⟩
        · rw [List.map_cons, Exact.log_exp]
        · exact List.forall_mem_cons.mpr ⟨(Real.exp_pos y).le, hxs⟩
      · refine ⟨0 :: xs, ?_, ?_⟩
        · rw [List.map_cons, Exact.log_zero]
        · exact List.forall_mem_cons.mpr ⟨le_rfl, hxs⟩

@[simp] theorem length_normalizeLogs (logs : List Exact) :
    (normalizeLogs logs).length = logs.length := by
  simp only [normalizeLogs]
  split
  · exact List.length_map ..
  · exact List.length_replicate

/-- Whatever the logarithms are, they are turned into a probability vector. -/
theorem isSimplex_normalizeLogs {logs : List Exact} (hne : logs ≠ []) :
    IsSimplex (normalizeLogs logs) := by
  by_cases hfinite : isFinite (logSumExp logs) = true
  · obtain ⟨xs, rfl, hxs⟩ := exists_map_log (real_or_negInf hfinite)
    have hpos : 0 < xs.sum := by
      rcases (List.sum_nonneg hxs).eq_or_lt with hzero | hpos
      · rw [logSumExp_map_log hxs, ← hzero, Exact.log_zero] at hfinite
        cases hfinite
      · exact hpos
    have hshares : (xs.map fun x => Exact.real (x / xs.sum)) =
        (xs.map (· / xs.sum)).map Exact.real := (List.map_map ..).symm
    rw [normalizeLogs_map_log hxs hpos, hshares, isSimplex_map_real_iff, sum_map_div,
      div_self hpos.ne']
    refine ⟨fun y hy => ?_, rfl⟩
    obtain ⟨x, hx, rfl⟩ := List.mem_map.mp hy
    exact div_nonneg (hxs x hx) hpos.le
  · simp only [normalizeLogs]
    rw [if_neg hfinite]
    exact isSimplex_uniform (List.length_pos_iff.mpr hne)

end LogSpace

end SolverPortfolio

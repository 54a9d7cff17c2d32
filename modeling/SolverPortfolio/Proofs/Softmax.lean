import SolverPortfolio.Proofs.LogSpace

/-!
# Softmax

A log weight is a real number or minus infinity, and stands for its exponential
(`LogSpace.weight`). In exact arithmetic log weights are normalised to their shares in the sum of
the exponentials (`LogSpace.normalizeLogs_logs`), which is the softmax of the log weights: the
largest one, subtracted and added on the way, leaves no trace. What is known of the softmax follows
from the shares alone. A constant is a common factor of the exponentials (`LogSpace.softmax_add`),
an order of the entries does not enter their sum (`LogSpace.softmax_comp`), and a sum of
exponentials can be taken in two parts (`LogSpace.logSumExp_append`).
-/

namespace SolverPortfolio.LogSpace

/-! ## Log weights -/

/-- The number that a log weight is the logarithm of. -/
noncomputable def weight : WithBot ℝ → ℝ
  | ⊥ => 0
  | (x : ℝ) => Real.exp x

/-- A log weight as a scalar. -/
def logWeight : WithBot ℝ → Exact
  | ⊥ => .negInf
  | (x : ℝ) => .real x

@[simp] theorem weight_bot : weight ⊥ = 0 := rfl

@[simp] theorem weight_coe (x : ℝ) : weight x = Real.exp x := rfl

theorem weight_nonneg (x : WithBot ℝ) : 0 ≤ weight x := by
  cases x with
  | bot => exact le_rfl
  | coe x => exact (Real.exp_pos x).le

theorem weight_eq_zero_iff {x : WithBot ℝ} : weight x = 0 ↔ x = ⊥ := by
  cases x with
  | bot => exact iff_of_true rfl rfl
  | coe x => exact iff_of_false (Real.exp_ne_zero x) (WithBot.coe_ne_bot)

theorem weight_add (x : WithBot ℝ) (c : ℝ) : weight (x + c) = weight x * Real.exp c := by
  cases x with
  | bot => rw [WithBot.bot_add, weight_bot, zero_mul]
  | coe x => rw [← WithBot.coe_add, weight_coe, weight_coe, Real.exp_add]

theorem logWeight_add (x : WithBot ℝ) (c : ℝ) :
    logWeight x + Exact.real c = logWeight (x + c) := by
  cases x with
  | bot => rfl
  | coe x => rfl

theorem logWeight_eq (x : WithBot ℝ) : logWeight x = Exact.log (weight x) := by
  cases x with
  | bot => exact Exact.log_zero.symm
  | coe x => exact (Exact.log_exp x).symm

/-! ## Shares -/

section

variable {n : ℕ} (w : Fin n → WithBot ℝ)

/-- A list of log weights. -/
def logs : List Exact := List.ofFn fun i => logWeight (w i)

/-- The share of an entry in the sum of the exponentials. -/
noncomputable def softmax (i : Fin n) : ℝ := weight (w i) / ∑ j, weight (w j)

theorem logs_eq_map_log : logs w = (List.ofFn fun i => weight (w i)).map Exact.log := by
  rw [logs, List.map_ofFn]
  exact congrArg List.ofFn (funext fun i => logWeight_eq (w i))

theorem weights_nonneg : ∀ x ∈ List.ofFn fun i => weight (w i), 0 ≤ x := by
  intro x hx
  obtain ⟨i, rfl⟩ := List.mem_ofFn.mp hx
  exact weight_nonneg (w i)

theorem logSumExp_logs : logSumExp (logs w) = Exact.log (∑ i, weight (w i)) := by
  rw [logs_eq_map_log, logSumExp_map_log (weights_nonneg w), List.sum_ofFn]

theorem softmax_nonneg (i : Fin n) : 0 ≤ softmax w i :=
  div_nonneg (weight_nonneg _) (Finset.sum_nonneg fun j _ => weight_nonneg (w j))

/-- A constant added to all log weights is a factor of all exponentials. -/
theorem softmax_add (c : ℝ) : (softmax fun i => w i + c) = softmax w := by
  funext i
  simp only [softmax, weight_add]
  rw [← Finset.sum_mul, mul_div_mul_right _ _ (Real.exp_ne_zero c)]

theorem softmax_comp (σ : Equiv.Perm (Fin n)) : softmax (w ∘ σ) = softmax w ∘ σ := by
  funext i
  simp only [softmax, Function.comp_apply]
  rw [Equiv.sum_comp σ fun j => weight (w j)]

variable {w} (hw : ∃ i, w i ≠ ⊥)

include hw

theorem sum_weight_pos : 0 < ∑ i, weight (w i) := by
  obtain ⟨i, hi⟩ := hw
  have hpos : 0 < weight (w i) :=
    (weight_nonneg (w i)).lt_of_ne' (mt weight_eq_zero_iff.mp hi)
  exact Finset.sum_pos' (fun j _ => weight_nonneg (w j)) ⟨i, Finset.mem_univ i, hpos⟩

theorem softmax_eq_zero_iff {i : Fin n} : softmax w i = 0 ↔ w i = ⊥ := by
  rw [softmax, div_eq_zero_iff, or_iff_left (sum_weight_pos hw).ne', weight_eq_zero_iff]

theorem sum_softmax : ∑ i, softmax w i = 1 := by
  simp only [softmax]
  rw [← Finset.sum_div, div_self (sum_weight_pos hw).ne']

/-- Normalising log weights gives their softmax. -/
theorem normalizeLogs_logs :
    normalizeLogs (logs w) = List.ofFn fun i => Exact.real (softmax w i) := by
  have hpos : 0 < (List.ofFn fun i => weight (w i)).sum := by
    rw [List.sum_ofFn]
    exact sum_weight_pos hw
  rw [logs_eq_map_log, normalizeLogs_map_log (weights_nonneg w) hpos, List.map_ofFn, List.sum_ofFn]
  rfl

end

/-- The exponentials of two lists are added up list by list. -/
theorem logSumExp_append {k l : ℕ} (front : Fin k → WithBot ℝ) (back : Fin l → WithBot ℝ) :
    logSumExp (logs front ++ logs back) =
      logSumExp [logSumExp (logs front), logSumExp (logs back)] := by
  have hboth := List.forall_mem_append.mpr ⟨weights_nonneg front, weights_nonneg back⟩
  have hsums : ∀ x ∈ [∑ i, weight (front i), ∑ i, weight (back i)], 0 ≤ x := by
    simp [Finset.sum_nonneg, weight_nonneg]
  have hpair := logSumExp_map_log hsums
  rw [logSumExp_logs, logSumExp_logs, logs_eq_map_log, logs_eq_map_log, ← List.map_append,
    logSumExp_map_log hboth, List.sum_append, List.sum_ofFn, List.sum_ofFn]
  rw [List.map_cons, List.map_cons, List.map_nil, List.sum_pair] at hpair
  exact hpair.symm

/-- **Normalising log weights is the exact softmax.** Take log weights one of which is finite. The
result has the share of each exponential in their sum in its place. The shares are not negative,
zero for minus infinity only, and sum to one; they stay what they are when a finite constant is
added to every entry, and change places with the entries. And whatever two lists of log weights are
put together, the logarithm of the sum of all exponentials is that of the two sums. -/
theorem normalizeLogs_is_softmax {n : ℕ} {w : Fin n → WithBot ℝ} (hw : ∃ i, w i ≠ ⊥) :
    (normalizeLogs (logs w) = List.ofFn fun i => Exact.real (softmax w i)) ∧
      (∀ i, 0 ≤ softmax w i ∧ (softmax w i = 0 ↔ w i = ⊥)) ∧
      ∑ i, softmax w i = 1 ∧
      (∀ c : ℝ, normalizeLogs ((logs w).map (· + Exact.real c)) = normalizeLogs (logs w)) ∧
      (∀ σ : Equiv.Perm (Fin n),
        normalizeLogs (logs (w ∘ σ)) = List.ofFn fun i => Exact.real (softmax w (σ i))) ∧
      ∀ {k l : ℕ} (front : Fin k → WithBot ℝ) (back : Fin l → WithBot ℝ),
        logSumExp (logs front ++ logs back) =
          logSumExp [logSumExp (logs front), logSumExp (logs back)] := by
  refine ⟨normalizeLogs_logs hw, fun i => ⟨softmax_nonneg w i, softmax_eq_zero_iff hw⟩,
    sum_softmax hw, fun c => ?_, fun σ => ?_, logSumExp_append⟩
  · have hshifted : (logs w).map (· + Exact.real c) = logs fun i => w i + c := by
      rw [logs, List.map_ofFn]
      exact congrArg List.ofFn (funext fun i => logWeight_add (w i) c)
    have hfinite : ∃ i, w i + (c : WithBot ℝ) ≠ ⊥ := by
      obtain ⟨i, hi⟩ := hw
      exact ⟨i, WithBot.add_ne_bot.mpr ⟨hi, WithBot.coe_ne_bot⟩⟩
    rw [hshifted, normalizeLogs_logs hfinite, normalizeLogs_logs hw, softmax_add]
  · have hfinite : ∃ i, (w ∘ σ) i ≠ ⊥ := by
      obtain ⟨i, hi⟩ := hw
      exact ⟨σ.symm i, by rwa [Function.comp_apply, σ.apply_symm_apply]⟩
    rw [normalizeLogs_logs hfinite, softmax_comp]
    rfl

open Exact in
/-- A quarter, nothing and three quarters. -/
theorem normalizeLogs_is_softmax_threeLogs :
    let w : Fin 3 → WithBot ℝ := ![(Real.log 2 : ℝ), ⊥, (Real.log 6 : ℝ)]
    let values := [real (Real.log 2), negInf, real (Real.log 6)]
    (∃ i, w i ≠ ⊥) ∧ normalizeLogs values = [real (1 / 4), real 0, real (3 / 4)] ∧
      normalizeLogs (values.map (· + real (-700))) = [real (1 / 4), real 0, real (3 / 4)] := by
  intro w values
  have hw : ∃ i, w i ≠ ⊥ := ⟨0, WithBot.coe_ne_bot⟩
  obtain ⟨hshares, -, -, hshift, -⟩ := normalizeLogs_is_softmax hw
  have htwo : weight (w 0) = 2 := Real.exp_log (by norm_num)
  have hsix : weight (w 2) = 6 := Real.exp_log (by norm_num)
  have hresult : (List.ofFn fun i => real (softmax w i)) =
      [real (1 / 4), real 0, real (3 / 4)] := by
    have hnone : weight (w 1) = 0 := rfl
    simp only [List.ofFn_succ, List.ofFn_zero, softmax, Fin.sum_univ_three, Fin.succ_zero_eq_one,
      Fin.succ_one_eq_two, htwo, hnone, hsix]
    norm_num
  exact ⟨hw, hshares.trans hresult, (hshift (-700)).trans (hshares.trans hresult)⟩

end SolverPortfolio.LogSpace

import SolverPortfolio.Proofs.Mixture.Coherence
import SolverPortfolio.Proofs.Mixture.Reestimation

/-!
# Rounds do not lose

The log likelihood of the training set, penalised by the logarithms of the probabilities, never
decreases from one round of a multinomial fit to the next (`Mixture.objective_le_next`).

There is one inequality behind it, that of Gibbs (`sum_mul_log_le`). Applied to the shares of the
components in the evidence of a task it bounds the change of that evidence from below by the
changes of the components, weighted by responsibility (`sum_share_mul_log_sub_le`). The bound
splits into one sum over components for the weights and one over outcomes for each row, and both
are at their largest where a round puts the parameters, by the same inequality
(`Mixture.expected_gain_nonneg`).
-/

namespace SolverPortfolio

open Scalar Randomness Finset

/-! ## Gibbs' inequality -/

section gibbs

variable {ι : Type} {S : Finset ι}

/-- Of all distributions the shares of the coefficients give the largest sum. -/
theorem sum_mul_log_le {A p : ι → ℝ} (hA : ∀ i ∈ S, 0 ≤ A i) (hp : ∀ i ∈ S, 0 ≤ p i)
    (hone : ∑ i ∈ S, p i ≤ 1) (hsupport : ∀ i ∈ S, 0 < A i → 0 < p i) :
    ∑ i ∈ S, A i * Real.log (p i) ≤ ∑ i ∈ S, A i * Real.log (A i / ∑ j ∈ S, A j) := by
  set total := ∑ j ∈ S, A j with htotal
  have hnonneg : 0 ≤ total := Finset.sum_nonneg hA
  have hterm : ∀ i ∈ S, A i * Real.log (p i) - A i * Real.log (A i / total) ≤
      p i * total - A i := by
    intro i hi
    rcases (hA i hi).eq_or_lt with hzero | hpos
    · rw [← hzero, zero_mul, zero_mul, sub_self, sub_zero]
      exact mul_nonneg (hp i hi) hnonneg
    · have hppos := hsupport i hi hpos
      have htpos : 0 < total := hpos.trans_le (Finset.single_le_sum hA hi)
      have hratio : 0 < p i / (A i / total) := div_pos hppos (div_pos hpos htpos)
      have hlog := Real.log_le_sub_one_of_pos hratio
      rw [Real.log_div hppos.ne' (div_pos hpos htpos).ne'] at hlog
      calc A i * Real.log (p i) - A i * Real.log (A i / total)
          = A i * (Real.log (p i) - Real.log (A i / total)) := by ring
        _ ≤ A i * (p i / (A i / total) - 1) := mul_le_mul_of_nonneg_left hlog hpos.le
        _ = p i * total - A i := by field_simp
  have hsum := Finset.sum_le_sum hterm
  rw [Finset.sum_sub_distrib, Finset.sum_sub_distrib, ← Finset.sum_mul, ← htotal] at hsum
  have hscaled : (∑ i ∈ S, p i) * total ≤ total := mul_le_of_le_one_left hnonneg hone
  linarith

/-- The logarithm of a sum changes at least by the changes of its terms, weighted by their
shares. -/
theorem sum_share_mul_log_sub_le {u u' : ι → ℝ} (hu : ∀ i ∈ S, 0 ≤ u i) (hu' : ∀ i ∈ S, 0 ≤ u' i)
    (hpos : 0 < ∑ i ∈ S, u i) (hpos' : 0 < ∑ i ∈ S, u' i)
    (hsupport : ∀ i ∈ S, 0 < u i → 0 < u' i) :
    ∑ i ∈ S, u i / (∑ j ∈ S, u j) * (Real.log (u' i) - Real.log (u i)) ≤
      Real.log (∑ i ∈ S, u' i) - Real.log (∑ i ∈ S, u i) := by
  set U := ∑ i ∈ S, u i with hU
  set U' := ∑ i ∈ S, u' i with hU'
  have hone : ∑ i ∈ S, u' i / U' = 1 := by
    rw [← Finset.sum_div, ← hU', div_self hpos'.ne']
  have hgibbs := sum_mul_log_le hu (fun i hi => div_nonneg (hu' i hi) hpos'.le) hone.le
    fun i hi h => div_pos (hsupport i hi h) hpos'
  have hsplit : ∀ i ∈ S, u i * Real.log (u' i / U') - u i * Real.log (u i / U) =
      u i * (Real.log (u' i) - Real.log (u i)) - u i * (Real.log U' - Real.log U) := by
    intro i hi
    rcases (hu i hi).eq_or_lt with hzero | hlt
    · rw [← hzero]
      ring
    · rw [Real.log_div (hsupport i hi hlt).ne' hpos'.ne', Real.log_div hlt.ne' hpos.ne']
      ring
  have hsum : ∑ i ∈ S, u i * (Real.log (u' i) - Real.log (u i)) ≤
      U * (Real.log U' - Real.log U) := by
    have hdiff := Finset.sum_congr rfl hsplit
    rw [Finset.sum_sub_distrib, Finset.sum_sub_distrib, ← Finset.sum_mul, ← hU] at hdiff
    linarith
  have hshares : ∑ i ∈ S, u i / U * (Real.log (u' i) - Real.log (u i)) =
      (∑ i ∈ S, u i * (Real.log (u' i) - Real.log (u i))) / U := by
    rw [Finset.sum_div]
    exact Finset.sum_congr rfl fun i _ => div_mul_eq_mul_div _ _ _
  rw [hshares, div_le_iff₀ hpos, mul_comm]
  exact hsum

end gibbs

namespace Mixture

/-! ## The objective -/

section objective

variable [GammaFunctions Exact]

/-- The log likelihood of the training set, plus the concentration times the logarithms of all
probabilities. -/
noncomputable def objective (concentration : Exact) (m : Mixture Exact) (training : List Counts) :
    Exact :=
  sum (training.map fun c => Analytic.ln (m.evidence c)) +
    concentration * sum (m.components.map fun component =>
      sum ((List.range m.nactions).map fun a => sum ((m.parameters component a).map Analytic.ln)))

/-- The objective as a real number. -/
noncomputable def objectiveOf (β : ℝ) (m : Mixture Exact) (nactions noutcomes ncomponents N : ℕ)
    (cs : ℕ → Counts) : ℝ :=
  ∑ i ∈ range N, Real.log (m.mass (cs i)) + β * ∑ k ∈ range ncomponents, ∑ a ∈ range nactions,
    ∑ d ∈ range noutcomes, Real.log (m.probability k a d)

variable {m : Mixture Exact} {β : ℝ} {N nactions noutcomes ncomponents : ℕ} {cs : ℕ → Counts}

theorem Smoothed.objective_eq (h : m.Smoothed nactions noutcomes ncomponents)
    (hcs : ∀ i < N, (cs i).IsSized nactions noutcomes) :
    objective (.real β) m ((List.range N).map cs) =
      .real (objectiveOf β m nactions noutcomes ncomponents N cs) := by
  have hevidence : ∀ i ∈ List.range N, Analytic.ln (m.evidence (cs i)) =
      Exact.real (Real.log (m.mass (cs i))) := by
    intro i hi
    have hi := List.mem_range.mp hi
    rw [(h.evaluable (hcs i hi)).evidence_eq]
    exact Exact.log_of_pos (h.mass_pos (cs i))
  have hrow : ∀ k < ncomponents, ∀ a < nactions,
      sum ((m.parameters (m.component k) a).map Analytic.ln) =
        Exact.real (∑ d ∈ range noutcomes, Real.log (m.probability k a d)) := by
    intro k hk a ha
    rw [h.parameters_eq hk ha, List.map_map, ← Exact.sum_range]
    refine congrArg sum (List.map_congr_left fun d hd => ?_)
    exact Exact.log_of_pos (h.probability_pos k hk a ha d (List.mem_range.mp hd))
  have hcomponent : ∀ k ∈ List.range ncomponents, sum ((List.range nactions).map fun a =>
      sum ((m.parameters (m.component k) a).map Analytic.ln)) =
        Exact.real (∑ a ∈ range nactions, ∑ d ∈ range noutcomes,
          Real.log (m.probability k a d)) := by
    intro k hk
    rw [← Exact.sum_range]
    exact congrArg sum (List.map_congr_left fun a ha =>
      hrow k (List.mem_range.mp hk) a (List.mem_range.mp ha))
  rw [objective, List.map_map, h.shaped.components_eq, List.map_map, h.shaped.nactions]
  simp only [Function.comp_def]
  rw [List.map_congr_left hevidence, List.map_congr_left hcomponent, Exact.sum_range,
    Exact.sum_range]
  rfl

end objective

/-! ## One round -/

section round

variable [GammaFunctions Exact] {m m' : Mixture Exact} {β : ℝ}
  {N nactions noutcomes ncomponents : ℕ} {cs : ℕ → Counts}

/-- The share of a component in the evidence of a task. -/
noncomputable def responsibility (m : Mixture Exact) (cs : ℕ → Counts) (i k : ℕ) : ℝ :=
  m.weightOf k * m.likelihood (m.component k) (cs i) / m.mass (cs i)

section responsibility

variable (h : m.Smoothed nactions noutcomes ncomponents)

include h

theorem responsibility_nonneg (i : ℕ) {k : ℕ} (hk : k < ncomponents) :
    0 ≤ m.responsibility cs i k :=
  div_nonneg (mul_nonneg (h.weightOf_nonneg hk) (h.likelihood_pos (cs i) hk).le)
    (h.mass_pos (cs i)).le

theorem sum_responsibility (i : ℕ) :
    ∑ k ∈ range ncomponents, m.responsibility cs i k = 1 := by
  simp only [responsibility]
  rw [← Finset.sum_div, ← h.mass_eq, div_self (h.mass_pos (cs i)).ne']

theorem weightOf_pos_of_responsibility_pos {i k : ℕ} (hk : k < ncomponents)
    (hpos : 0 < m.responsibility cs i k) : 0 < m.weightOf k := by
  refine (h.weightOf_nonneg hk).lt_of_ne fun hzero => hpos.ne' ?_
  rw [responsibility, ← hzero, zero_mul, zero_div]

end responsibility

omit [GammaFunctions Exact] in
/-- A sum over pseudo-counts is one over tasks and one over the concentration. -/
theorem sum_pseudoCount_mul (r : ℕ → ℕ → ℝ) (k : ℕ) (g : ℕ → ℕ → ℝ) :
    ∑ a ∈ range nactions, ∑ d ∈ range noutcomes, pseudoCount β N cs r k a d * g a d =
      ∑ i ∈ range N, r i k * ∑ a ∈ range nactions, ∑ d ∈ range noutcomes,
        seen (cs i) a d * g a d +
      β * ∑ a ∈ range nactions, ∑ d ∈ range noutcomes, g a d := by
  have hterm : ∀ a d, pseudoCount β N cs r k a d * g a d =
      ∑ i ∈ range N, r i k * (seen (cs i) a d * g a d) + β * g a d := by
    intro a d
    rw [pseudoCount, add_mul, Finset.sum_mul, add_comm]
    congr 1
    exact Finset.sum_congr rfl fun i _ => mul_assoc _ _ _
  simp only [hterm, Finset.sum_add_distrib, Finset.mul_sum]
  congr 1
  refine Eq.symm (Finset.sum_comm.trans (Finset.sum_congr rfl fun a _ => ?_))
  exact Finset.sum_comm

/-- The logarithm of weight times likelihood, part by part. -/
theorem Smoothed.log_joint (h : m.Smoothed nactions noutcomes ncomponents) (c : Counts)
    {k : ℕ} (hk : k < ncomponents)
    (hweight : 0 < m.weightOf k) :
    Real.log (m.weightOf k * m.likelihood (m.component k) c) = Real.log (m.weightOf k) +
      ∑ a ∈ range nactions, ∑ d ∈ range noutcomes,
        seen c a d * Real.log (m.probability k a d) := by
  have hne : ∀ a ∈ range nactions, ∀ d ∈ range noutcomes,
      m.probability k a d ^ seen c a d ≠ 0 := fun a ha d hd =>
    (pow_pos (h.probability_pos k hk a (mem_range.mp ha) d (mem_range.mp hd)) _).ne'
  rw [Real.log_mul hweight.ne' (h.likelihood_pos c hk).ne', h.likelihood_eq,
    Real.log_prod fun a ha => Finset.prod_ne_zero_iff.mpr (hne a ha)]
  congr 1
  refine Finset.sum_congr rfl fun a ha => ?_
  rw [Real.log_prod (hne a ha)]
  exact Finset.sum_congr rfl fun d _ => Real.log_pow _ _

/-- What the parameters of a round gain over the old ones, outcome by outcome and weighted by
responsibility, is not negative: weights are shares of responsibilities, and probabilities are
shares of pseudo-counts. -/
theorem expected_gain_nonneg (h : m.Smoothed nactions noutcomes ncomponents)
    (hβ : 0 < β)
    (hweight : ∀ k < ncomponents, m'.weightOf k = meanResponsibility N (m.responsibility cs) k)
    (hprobability : ∀ k < ncomponents, ∀ a < nactions, ∀ d < noutcomes, m'.probability k a d =
      pseudoCount β N cs (m.responsibility cs) k a d /
        ∑ e ∈ range noutcomes, pseudoCount β N cs (m.responsibility cs) k a e) :
    0 ≤ ∑ k ∈ range ncomponents, ((∑ i ∈ range N, m.responsibility cs i k) *
        (Real.log (m'.weightOf k) - Real.log (m.weightOf k)) +
      ∑ a ∈ range nactions, ∑ d ∈ range noutcomes,
        pseudoCount β N cs (m.responsibility cs) k a d *
          (Real.log (m'.probability k a d) - Real.log (m.probability k a d))) := by
  have hr : ∀ k < ncomponents, ∀ i < N, 0 ≤ m.responsibility cs i k := fun k hk i _ =>
    responsibility_nonneg h i hk
  have hnonneg : ∀ k ∈ range ncomponents, 0 ≤ ∑ i ∈ range N, m.responsibility cs i k :=
    fun k hk => Finset.sum_nonneg fun i hi => hr k (mem_range.mp hk) i (mem_range.mp hi)
  have htotal : ∑ k ∈ range ncomponents, ∑ i ∈ range N, m.responsibility cs i k = N := by
    rw [Finset.sum_comm, Finset.sum_congr rfl fun i _ => sum_responsibility h i, Finset.sum_const,
      card_range,
      nsmul_eq_mul, mul_one]
  have hweights : ∑ k ∈ range ncomponents, (∑ i ∈ range N, m.responsibility cs i k) *
      Real.log (m.weightOf k) ≤ ∑ k ∈ range ncomponents,
        (∑ i ∈ range N, m.responsibility cs i k) * Real.log (m'.weightOf k) := by
    have hgibbs := sum_mul_log_le hnonneg (fun k hk => h.weightOf_nonneg (mem_range.mp hk))
      h.sum_weights.le fun k hk hpos => by
        obtain ⟨i, -, hi⟩ := Finset.exists_ne_zero_of_sum_ne_zero hpos.ne'
        refine (h.weightOf_nonneg (mem_range.mp hk)).lt_of_ne fun hzero => hi ?_
        rw [responsibility, ← hzero, zero_mul, zero_div]
    rw [htotal] at hgibbs
    refine hgibbs.trans_eq (Finset.sum_congr rfl fun k hk => ?_)
    rw [hweight k (mem_range.mp hk)]
    rfl
  have hrows : ∀ k ∈ range ncomponents, ∀ a ∈ range nactions, ∑ d ∈ range noutcomes,
      pseudoCount β N cs (m.responsibility cs) k a d * Real.log (m.probability k a d) ≤
        ∑ d ∈ range noutcomes, pseudoCount β N cs (m.responsibility cs) k a d *
          Real.log (m'.probability k a d) := by
    intro k hk a ha
    have hk := mem_range.mp hk
    have ha := mem_range.mp ha
    have hpos := fun d => pseudoCount_pos cs hβ (hr k hk) a d
    have hle : ∑ d ∈ range noutcomes, m.probability k a d ≤ 1 := by
      rcases noutcomes.eq_zero_or_pos with hnone | hsome
      · rw [hnone, range_zero, sum_empty]
        exact zero_le_one
      · exact (h.sum_probabilities k hk a ha hsome).le
    refine (sum_mul_log_le (fun d _ => (hpos d).le)
      (fun d hd => (h.probability_pos k hk a ha d (mem_range.mp hd)).le) hle
      fun d hd _ => h.probability_pos k hk a ha d (mem_range.mp hd)).trans_eq ?_
    exact Finset.sum_congr rfl fun d hd => by rw [hprobability k hk a ha d (mem_range.mp hd)]
  rw [Finset.sum_add_distrib]
  refine add_nonneg ?_ (Finset.sum_nonneg fun k hk => Finset.sum_nonneg fun a ha => ?_)
  · simp only [mul_sub]
    rw [Finset.sum_sub_distrib]
    exact sub_nonneg.mpr hweights
  · simp only [mul_sub]
    rw [Finset.sum_sub_distrib]
    exact sub_nonneg.mpr (hrows k hk a ha)

/-- The evidence of a task changes at least by what its components gain. -/
theorem log_mass_sub_ge (h : m.Smoothed nactions noutcomes ncomponents)
    (h' : m'.Smoothed nactions noutcomes ncomponents)
    (hsupport : ∀ i < N, ∀ k < ncomponents, 0 < m.responsibility cs i k → 0 < m'.weightOf k)
    {i : ℕ} (hi : i < N) :
    ∑ k ∈ range ncomponents, m.responsibility cs i k *
        (Real.log (m'.weightOf k) - Real.log (m.weightOf k) +
          ∑ a ∈ range nactions, ∑ d ∈ range noutcomes, seen (cs i) a d *
            (Real.log (m'.probability k a d) - Real.log (m.probability k a d))) ≤
      Real.log (m'.mass (cs i)) - Real.log (m.mass (cs i)) := by
  have hjoint : ∀ {p : Mixture Exact}, p.Smoothed nactions noutcomes ncomponents →
      ∀ k ∈ range ncomponents, 0 ≤ p.weightOf k * p.likelihood (p.component k) (cs i) :=
    fun hp k hk => mul_nonneg (hp.weightOf_nonneg (mem_range.mp hk))
      (hp.likelihood_pos (cs i) (mem_range.mp hk)).le
  have hpos : ∀ k ∈ range ncomponents, 0 < m.weightOf k * m.likelihood (m.component k) (cs i) →
      0 < m.responsibility cs i k := fun k _ hk => div_pos hk (h.mass_pos (cs i))
  have hjensen := sum_share_mul_log_sub_le (hjoint h) (hjoint h')
    (h.mass_eq ▸ h.mass_pos (cs i)) (h'.mass_eq ▸ h'.mass_pos (cs i)) fun k hk hk' =>
      mul_pos (hsupport i hi k (mem_range.mp hk) (hpos k hk hk'))
        (h'.likelihood_pos (cs i) (mem_range.mp hk))
  rw [← h.mass_eq, ← h'.mass_eq] at hjensen
  refine le_trans (Finset.sum_le_sum fun k hk => ?_) hjensen
  have hk := mem_range.mp hk
  -- A component without responsibility does not enter, so that zero weights do no harm.
  rcases (responsibility_nonneg h i hk).eq_or_lt with hzero | hresponsible
  · have hshare : m.weightOf k * m.likelihood (m.component k) (cs i) / m.mass (cs i) = 0 :=
      hzero.symm
    rw [← hzero, hshare, zero_mul, zero_mul]
  · have hweight := weightOf_pos_of_responsibility_pos h hk hresponsible
    rw [h.log_joint (cs i) hk hweight,
      h'.log_joint (cs i) hk (hsupport i hi k hk hresponsible)]
    refine le_of_eq (congrArg (m.responsibility cs i k * ·) ?_)
    simp only [mul_sub, Finset.sum_sub_distrib]
    ring

/-- **A round does not lose.** -/
theorem objectiveOf_le (h : m.Smoothed nactions noutcomes ncomponents)
    (h' : m'.Smoothed nactions noutcomes ncomponents) (hβ : 0 < β) (hN : 0 < N)
    (hweight : ∀ k < ncomponents, m'.weightOf k = meanResponsibility N (m.responsibility cs) k)
    (hprobability : ∀ k < ncomponents, ∀ a < nactions, ∀ d < noutcomes, m'.probability k a d =
      pseudoCount β N cs (m.responsibility cs) k a d /
        ∑ e ∈ range noutcomes, pseudoCount β N cs (m.responsibility cs) k a e) :
    objectiveOf β m nactions noutcomes ncomponents N cs ≤
      objectiveOf β m' nactions noutcomes ncomponents N cs := by
  have hsupport : ∀ i < N, ∀ k < ncomponents, 0 < m.responsibility cs i k →
      0 < m'.weightOf k := by
    intro i hi k hk hpos
    rw [hweight k hk, meanResponsibility]
    refine div_pos (Finset.sum_pos' (fun j _ => ?_) ⟨i, mem_range.mpr hi, hpos⟩)
      (Nat.cast_pos.mpr hN)
    exact responsibility_nonneg h j hk
  have hgain := expected_gain_nonneg h hβ hweight hprobability
  have hmass := Finset.sum_le_sum fun i hi =>
    log_mass_sub_ge h h' hsupport (mem_range.mp hi)
  rw [Finset.sum_sub_distrib] at hmass
  -- The gains of the tasks and of the penalty, put together, are the expected gain.
  have hsplit : ∑ k ∈ range ncomponents, ((∑ i ∈ range N, m.responsibility cs i k) *
        (Real.log (m'.weightOf k) - Real.log (m.weightOf k)) +
      ∑ a ∈ range nactions, ∑ d ∈ range noutcomes,
        pseudoCount β N cs (m.responsibility cs) k a d *
          (Real.log (m'.probability k a d) - Real.log (m.probability k a d))) =
      ∑ i ∈ range N, ∑ k ∈ range ncomponents, m.responsibility cs i k *
        (Real.log (m'.weightOf k) - Real.log (m.weightOf k) +
          ∑ a ∈ range nactions, ∑ d ∈ range noutcomes, seen (cs i) a d *
            (Real.log (m'.probability k a d) - Real.log (m.probability k a d))) +
      β * ∑ k ∈ range ncomponents, ∑ a ∈ range nactions, ∑ d ∈ range noutcomes,
        (Real.log (m'.probability k a d) - Real.log (m.probability k a d)) := by
    rw [Finset.sum_comm, Finset.mul_sum, ← Finset.sum_add_distrib]
    refine Finset.sum_congr rfl fun k _ => ?_
    rw [sum_pseudoCount_mul]
    simp only [mul_add, Finset.sum_add_distrib, Finset.sum_mul]
    ring
  rw [hsplit] at hgain
  simp only [Finset.sum_sub_distrib, mul_sub] at hgain hmass
  simp only [objectiveOf]
  linarith

end round

/-! ## Restarts -/

/-- Probability vectors by number. -/
theorem exists_responsibilityRows {rows : List (List Exact)} {ncomponents : ℕ}
    (h : ∀ row ∈ rows, LogSpace.IsSimplex row ∧ row.length = ncomponents) :
    ∃ r, rows = responsibilityRows rows.length ncomponents r ∧
      (∀ k < ncomponents, ∀ i < rows.length, 0 ≤ r i k) ∧
      ∀ i < rows.length, ∑ k ∈ range ncomponents, r i k = 1 := by
  have hrow : ∀ i < rows.length, ∃ x : ℕ → ℝ, rows.getD i [] =
      (List.range ncomponents).map (fun k => Exact.real (x k)) ∧
        (∀ k < ncomponents, 0 ≤ x k) ∧ ∑ k ∈ range ncomponents, x k = 1 := by
    intro i hi
    obtain ⟨hsimplex, hlen⟩ := h _ (getD_mem hi [])
    obtain ⟨xs, hxs, hnonneg, hsum⟩ := hsimplex.exists_real
    rw [hxs, List.length_map] at hlen
    have hentries := map_range_getD xs 0
    rw [hlen] at hentries
    refine ⟨fun k => xs.getD k 0, ?_, fun k hk => ?_, ?_⟩
    · rw [hxs]
      nth_rewrite 1 [← hentries]
      rw [List.map_map]
      rfl
    · exact hnonneg _ (getD_mem (hlen.symm ▸ hk) 0)
    · rw [← hsum]
      nth_rewrite 2 [← hentries]
      rfl
  choose! x hx using hrow
  refine ⟨x, ?_, fun k hk i hi => (hx i hi).2.1 k hk, fun i hi => (hx i hi).2.2⟩
  nth_rewrite 1 [← map_range_getD rows []]
  exact List.map_congr_left fun i hi => (hx i (List.mem_range.mp hi)).1

section restarts

variable [GammaFunctions Exact] {s : EstimatorSettings Exact} {m : Mixture Exact} {β : ℝ}
  {N nactions noutcomes ncomponents : ℕ} {cs : ℕ → Counts}

omit [GammaFunctions Exact] in
/-- The score is not a parameter. -/
theorem Smoothed.withScore (h : m.Smoothed nactions noutcomes ncomponents)
    (score : Option Exact) :
    { m with trainingLogLikelihood := score }.Smoothed nactions noutcomes ncomponents :=
  ⟨{ h.shaped with }, { h.weighted with }, h.sum_weights, h.probability_pos, h.sum_probabilities⟩

namespace Progress

/-- A smoothed mixture with the responsibilities that go with it. -/
structure Expected (p : Progress Exact) (nactions noutcomes ncomponents N : ℕ)
    (cs : ℕ → Counts) : Prop where
  model : p.model.Smoothed nactions noutcomes ncomponents
  responsibilities : p.responsibilities =
    responsibilityRows N ncomponents (p.model.responsibility cs)

variable {p : Progress Exact} (hs : s.concentration = .real β) (hβ : 0 < β) (hN : 0 < N)
  (hcs : ∀ i < N, (cs i).IsSized nactions noutcomes)

include hs hβ hN hcs

/-- After a round the responsibilities go with the mixture, whatever they were before. -/
theorem expected_next (h : p.model.Shaped .multinomial nactions noutcomes ncomponents)
    {r : ℕ → ℕ → ℝ} (hrows : p.responsibilities = responsibilityRows N ncomponents r)
    (hr : ∀ k < ncomponents, ∀ i < N, 0 ≤ r i k)
    (hone : ∀ i < N, ∑ k ∈ range ncomponents, r i k = 1) :
    (p.next s ((List.range N).map cs)).Expected nactions noutcomes ncomponents N cs := by
  have hsmoothed := smoothed_maximize h cs hs hβ hN hr hone
  simp only [next, hrows]
  exact ⟨hsmoothed.withScore _, hsmoothed.responsibilitiesOf_eq hcs⟩

theorem Expected.next (h : p.Expected nactions noutcomes ncomponents N cs) :
    (p.next s ((List.range N).map cs)).Expected nactions noutcomes ncomponents N cs :=
  expected_next hs hβ hN hcs h.model.shaped h.responsibilities
    (fun _ hk i _ => responsibility_nonneg h.model i hk)
    fun i _ => sum_responsibility h.model i

theorem Expected.objective_le (h : p.Expected nactions noutcomes ncomponents N cs) :
    objective (.real β) p.model ((List.range N).map cs) ≤
      objective (.real β) (p.next s ((List.range N).map cs)).model ((List.range N).map cs) := by
  have hr : ∀ k < ncomponents, ∀ i < N, 0 ≤ p.model.responsibility cs i k := fun k hk i _ =>
    responsibility_nonneg h.model i hk
  have hone : ∀ i < N, ∑ k ∈ range ncomponents, p.model.responsibility cs i k = 1 := fun i _ =>
    sum_responsibility h.model i
  have hnext := (h.next hs hβ hN hcs).model
  rw [h.model.objective_eq hcs, hnext.objective_eq hcs, Exact.real_le]
  refine objectiveOf_le h.model hnext hβ hN (fun k hk => ?_) fun k hk a ha d hd => ?_
  · have hweight := weightOf_maximize (s := s) h.model.shaped hN hone ((List.range N).map cs) hk
    rwa [← h.responsibilities] at hweight
  · have hprobability := probability_maximize h.model.shaped cs hs hβ hk (hr k hk) ha hd
    rwa [← h.responsibilities] at hprobability

end Progress

/-- **Rounds do not lose.** Take a multinomial fit with a positive concentration of any training
set of one size. Along every restart, whatever its draws, the log likelihood of the training set
with the logarithms of the probabilities, weighted by the concentration, never decreases from one
round to the next; and what the restart comes to is the mixture after one of these rounds. A fit
that goes through rounds has a training set whose row totals are words. -/
theorem objective_le_next (s : EstimatorSettings Exact) {training : List Counts}
    (hfamily : s.family = .multinomial) (hs : isPositiveFinite s.concentration = true)
    (hne : training ≠ []) (hsized : ∀ c ∈ training, c.IsSized nactions noutcomes)
    (hcomponents : 0 < ncomponents) (stream : Stream) :
    let p := fun n => (Progress.next s training)^[n]
      (.start s.family training nactions noutcomes ncomponents stream)
    (∀ n, objective s.concentration (p (n + 1)).model training ≤
      objective s.concentration (p (n + 2)).model training) ∧
      (∃ n ≤ s.maxIterations,
        (restart s training nactions noutcomes ncomponents stream).1 = (p n).model) ∧
      ∀ (e : Entropy) (m : Mixture Exact), fit s e training = .ok m → s.maxIterations ≠ 0 →
        ∀ c ∈ training, ∀ a < nactions, c.total a < UInt32.size := by
  intro p
  obtain ⟨β, hβ, hs⟩ := Exact.eq_real_of_isPositiveFinite hs
  have hN : 0 < training.length := List.length_pos_iff.mpr hne
  obtain ⟨cs, hcs⟩ : ∃ cs, training = (List.range training.length).map cs :=
    ⟨_, (map_range_getD training (.zeros 0 0)).symm⟩
  have hmem : ∀ i < training.length, cs i ∈ training := by
    intro i hi
    rw [hcs]
    exact List.mem_map_of_mem (List.mem_range.mpr hi)
  have hsizes := fun i hi => hsized _ (hmem i hi)
  have hexpected : ∀ n, (p (n + 1)).Expected nactions noutcomes ncomponents training.length cs := by
    intro n
    induction n with
    | zero =>
        obtain ⟨r, hrows, hr, hone⟩ := exists_responsibilityRows <|
          Progress.isSimplex_of_mem_start s.family training nactions noutcomes hcomponents stream
        rw [Progress.length_start] at hrows hr hone
        have hnext := Progress.expected_next hs hβ hN hsizes
          (hfamily ▸ shaped_initial) hrows hr hone
        rwa [← hcs] at hnext
    | succ n ih =>
        have hnext := ih.next hs hβ hN hsizes
        rw [← hcs] at hnext
        show ((Progress.next s training)^[n + 1 + 1] _).Expected _ _ _ _ _
        rwa [Function.iterate_succ_apply']
  refine ⟨fun n => ?_, exists_restart_eq s training nactions noutcomes ncomponents stream,
    fun e m hfit hrounds c hc a ha => ?_⟩
  · have hle := (hexpected n).objective_le hs hβ hN hsizes
    rw [← hcs, ← hs] at hle
    show _ ≤ objective s.concentration ((Progress.next s training)^[n + 1 + 1] _).model training
    rwa [Function.iterate_succ_apply']
  · exact total_lt_of_fit hfit hrounds hc ((hsized c hc).nactions.symm ▸ ha)

end restarts

/-- Two tasks with one action, and the concentration a deployment starts with. -/
theorem objective_le_next_twoTasks :
    let s : EstimatorSettings Exact := { EstimatorSettings.default with family := .multinomial }
    let training : List Counts := [⟨1, 2, [3, 1]⟩, ⟨1, 2, [0, 2]⟩]
    let p := fun stream n => (Progress.next s training)^[n]
      (.start .multinomial training 1 2 2 stream)
    (∀ c ∈ training, c.IsSized 1 2) ∧
      ∀ stream n, objective s.concentration (p stream (n + 1)).model training ≤
        objective s.concentration (p stream (n + 2)).model training := by
  intro s training p
  have htraining : ∀ c ∈ training, c.IsSized 1 2 := by
    intro c hc
    rcases List.mem_pair.mp hc with rfl | rfl
    · exact ⟨rfl, rfl, rfl⟩
    · exact ⟨rfl, rfl, rfl⟩
  have hconcentration : isPositiveFinite s.concentration = true := by
    have hcentile : (0 : ℝ) < 1e-2 := by norm_num
    rw [isPositiveFinite, Bool.and_eq_true_iff, decide_eq_true_iff, Exact.zero_eq]
    exact ⟨rfl, (Exact.real_lt _ _).mpr hcentile⟩
  refine ⟨htraining, fun stream n => ?_⟩
  exact (objective_le_next s rfl hconcentration (List.cons_ne_nil _ _) htraining two_pos
    stream).1 n

end Mixture

end SolverPortfolio

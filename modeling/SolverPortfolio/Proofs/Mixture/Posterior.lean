import SolverPortfolio.Proofs.LogSpace
import SolverPortfolio.Proofs.Mixture.Coherence
import SolverPortfolio.Proofs.Simplex

/-!
# What a history says about the components

In exact arithmetic the posterior of a checked mixture is a probability vector for every history
with outcomes, and the weight of a component is its share in the evidence wherever there is
evidence (`Mixture.posterior_support`). A component without prior weight has none afterwards
either.

A history that is impossible under every component with weight leaves nothing to compare. The
vector is uniform then, so that even a component without prior weight gets a share
(`Mixture.posterior_of_impossible`).
-/

namespace SolverPortfolio

open Scalar LogSpace Analytic

namespace Mixture

variable {m : Mixture Exact} {c : Counts}

/-- Under a checked mixture the library's gamma function makes all likelihoods numbers: where
there are outcomes there are concentrations to add up. -/
theorem Checked.evaluable (hm : m.Checked) (hc : c.IsSized m.nactions m.noutcomes)
    (hseen : c.isZero = false) : m.Evaluable c := by
  refine ⟨hm.weighted, fun _ => ⟨Nat.pos_of_ne_zero fun hnone => ?_, ?_⟩, hc⟩
  · have hempty : c.cells = [] := by
      rw [← List.length_eq_zero_iff, hc.length, hnone, Nat.mul_zero]
    rw [Counts.isZero, hempty] at hseen
    cases hseen
  · intro x hx
    exact Gamma.isFinite_lnGamma hx

theorem Weighted.length_parts (hm : m.Weighted) : m.parts.length = m.weights.length := by
  rw [parts, List.length_zip, hm.ncomponents, Nat.min_self]

theorem Weighted.getElem?_parts (hm : m.Weighted) {k : ℕ} {w : Exact}
    (hk : m.weights[k]? = some w) : ∃ component, m.parts[k]? = some (w, component) := by
  obtain ⟨hlt, -⟩ := List.getElem?_eq_some_iff.mp hk
  have hcomponent := List.getElem?_eq_getElem (l := m.components) (hm.ncomponents ▸ hlt)
  exact ⟨_, List.getElem?_zip_eq_some.mpr ⟨hk, hcomponent⟩⟩

theorem joint_of_weight_eq_zero [GammaFunctions Exact] (component : List Exact) :
    m.joint c (0, component) = 0 := by
  rw [Exact.zero_eq]
  exact zero_mul _

section evaluable

variable [GammaFunctions Exact]

namespace Evaluable

variable (h : m.Evaluable c)

include h

/-- Shares in the evidence, as the log likelihoods give them. -/
theorem shares_eq (hpos : 0 < m.mass c) :
    List.zipWith (fun w component => w * exp (m.logLikelihood component c) / m.evidence c)
        m.weights m.components =
      m.parts.map fun x => Exact.real (m.joint c x / m.mass c) := by
  rw [← List.map_uncurry_zip_eq_zipWith]
  refine List.map_congr_left fun x hx => ?_
  show x.1 * exp (m.logLikelihood x.2 c) / m.evidence c = _
  rw [h.weight_mul_exp_eq hx, h.evidence_eq, Exact.real_div _ hpos.ne']

/-- Without evidence every log weight is minus infinity. -/
theorem normalizeLogs_jointLogs_of_mass_eq_zero (hmass : m.mass c = 0) :
    normalizeLogs (m.jointLogs c) = uniform m.weights.length := by
  rw [h.jointLogs_eq, normalizeLogs_map_log_of_sum_eq_zero h.joints_nonneg hmass,
    List.length_map, h.weighted.length_parts]

/-- A component without weight keeps none if and only if there is evidence. -/
theorem getElem?_normalizeLogs_iff {k : ℕ} (hk : m.weights[k]? = some 0) :
    (normalizeLogs (m.jointLogs c))[k]? = some 0 ↔ 0 < m.mass c := by
  obtain ⟨hlt, -⟩ := List.getElem?_eq_some_iff.mp hk
  obtain ⟨component, hpart⟩ := h.weighted.getElem?_parts hk
  rcases h.mass_nonneg.eq_or_lt with hzero | hpos
  · refine iff_of_false (fun hshare => ?_) hzero.not_lt
    have hcount : 0 < m.weights.length := Nat.zero_lt_of_lt hlt
    rw [h.normalizeLogs_jointLogs_of_mass_eq_zero hzero.symm, uniform_eq hcount,
      List.getElem?_map, List.getElem?_replicate, if_pos hlt, Option.map_some, Option.some_inj,
      Exact.zero_eq] at hshare
    have hne : (1 / m.weights.length : ℝ) ≠ 0 := by positivity
    exact hne (Exact.real.inj hshare)
  · refine iff_of_true ?_ hpos
    rw [h.normalizeLogs_jointLogs hpos, List.getElem?_map, hpart, Option.map_some,
      joint_of_weight_eq_zero, zero_div, Exact.zero_eq]

end Evaluable

end evaluable

/-! ## Support -/

section totals

variable [GammaFunctions Exact] (hm : m.Checked)

include hm

theorem Checked.posterior_eq_ok (htotals : ∀ a < m.nactions, c.total a < UInt32.size) :
    (Model.mixture m).posterior c = .ok (some (m.posterior c)) := by
  rw [Model.posterior, (canRead_iff hm.components_ne_nil).mpr htotals]
  rfl

theorem Checked.posterior_eq_overflow (hlarge : ∃ a < m.nactions, UInt32.size ≤ c.total a) :
    (Model.mixture m).posterior c = .error .overflow := by
  obtain ⟨a, ha, hle⟩ := hlarge
  have hnot : m.canRead c = false :=
    Bool.eq_false_iff.mpr fun h => ((canRead_iff hm.components_ne_nil).mp h a ha).not_ge hle
  exact Model.posterior_of_not_canRead hnot

end totals

/-- **What a history says about the components.** In exact arithmetic, for every checked mixture
and every history of its size: the posterior is worked out exactly if the row totals are words.
Without outcomes it is the prior weights. With outcomes
it is a probability vector, whose entries are the shares of the components in the evidence if the
evidence is positive, and the uniform vector if not. A component without prior weight has none in
the posterior exactly if there are no outcomes or the evidence is positive. -/
theorem posterior_support (m : Mixture Exact) (hm : m.check = .ok ()) (c : Counts)
    (hc : c.IsSized m.nactions m.noutcomes) :
    ((∀ a < m.nactions, c.total a < UInt32.size) →
        (Model.mixture m).posterior c = .ok (some (m.posterior c))) ∧
      ((∃ a < m.nactions, UInt32.size ≤ c.total a) →
        (Model.mixture m).posterior c = .error .overflow) ∧
      (c.isZero = true → m.posterior c = m.weights) ∧
      (c.isZero = false → IsSimplex (m.posterior c) ∧
        (0 < m.evidence c → m.posterior c =
          List.zipWith (fun w component => w * exp (m.logLikelihood component c) / m.evidence c)
            m.weights m.components) ∧
        (¬0 < m.evidence c → m.posterior c =
          List.replicate m.weights.length (1 / ofNat m.weights.length))) ∧
      ∀ k : ℕ, m.weights[k]? = some 0 →
        ((m.posterior c)[k]? = some 0 ↔ c.isZero = true ∨ 0 < m.evidence c) := by
  have hchecked := checked_of_check hm
  refine ⟨hchecked.posterior_eq_ok, hchecked.posterior_eq_overflow, ?_⟩
  unfold posterior
  cases hzero : c.isZero with
  | true => exact ⟨fun _ => rfl, nofun, fun k hk => iff_of_true hk (Or.inl rfl)⟩
  | false =>
      have h := hchecked.evaluable hc hzero
      have hlogs : m.jointLogs c ≠ [] := by
        intro hnone
        rw [h.jointLogs_eq, List.map_eq_nil_iff, List.map_eq_nil_iff,
          ← List.length_eq_zero_iff, h.weighted.length_parts] at hnone
        exact hchecked.ncomponents_pos.ne' hnone
      refine ⟨nofun, fun _ => ⟨isSimplex_normalizeLogs hlogs, fun hpos => ?_, fun hnone => ?_⟩,
        fun k hk => ?_⟩
      · rw [h.evidence_pos_iff] at hpos
        rw [h.shares_eq hpos]
        exact h.normalizeLogs_jointLogs hpos
      · rw [h.evidence_pos_iff] at hnone
        have hmass := le_antisymm (not_lt.mp hnone) h.mass_nonneg
        have hmax : m.weights.length.max 1 = m.weights.length :=
          Nat.max_eq_left hchecked.ncomponents_pos
        refine (h.normalizeLogs_jointLogs_of_mass_eq_zero hmass).trans ?_
        rw [uniform, uniformShare, hmax]
      · rw [h.evidence_pos_iff]
        simp only [Bool.false_eq_true, if_false, false_or]
        exact h.getElem?_normalizeLogs_iff hk

/-- A history that speaks for one of two coins, one that speaks for an urn, and one that only a
component without weight can explain. -/
theorem posterior_support_oneSeen :
    (IsSimplex ((twoCoins (1 / 3)).posterior oneSeen) ∧
      ∀ k : ℕ, (twoCoins (1 / 3)).weights[k]? = some 0 →
        ((twoCoins (1 / 3)).posterior oneSeen)[k]? = some 0) ∧
    IsSimplex (oneUrn.posterior oneSeen) ∧ IsSimplex ((twoCoins 1).posterior oneSeen) := by
  have hsized : oneSeen.IsSized 1 2 := ⟨rfl, rfl, rfl⟩
  have hseen : oneSeen.isZero = false := rfl
  have h0 : (0 : ℝ) < 1 / 3 := by norm_num
  have h1 : (1 / 3 : ℝ) < 1 := by norm_num
  have hchecked := twoCoins_checked h0 h1
  have hpos : 0 < (twoCoins (1 / 3)).evidence oneSeen := by
    have hcoherent : (twoCoins (1 / 3)).Coherent oneSeen :=
      ⟨hchecked, twoCoins_sumsToOne, nofun, hsized, by decide⟩
    exact hcoherent.evidence_pos fun _ => twoCoins_pos h0 h1
  obtain ⟨-, -, -, hcoins, hsupport⟩ :=
    posterior_support (twoCoins (1 / 3)) (hchecked.check_eq_ok nofun) oneSeen hsized
  obtain ⟨-, -, -, hurn, -⟩ :=
    posterior_support oneUrn (oneUrn_checked.check_eq_ok nofun) oneSeen hsized
  obtain ⟨-, -, -, hsure, -⟩ := posterior_support (twoCoins 1)
    ((twoCoins_checked_of_le zero_le_one le_rfl).check_eq_ok nofun) oneSeen hsized
  exact ⟨⟨(hcoins hseen).1, fun k hk => (hsupport k hk).mpr (Or.inr hpos)⟩, (hurn hseen).1,
    (hsure hseen).1⟩

/-- The second coin has no weight, but it alone can have shown this outcome: it ends up with half
of the posterior. -/
theorem posterior_of_impossible :
    (twoCoins 1).check = .ok () ∧
      oneSeen.IsSized (twoCoins 1).nactions (twoCoins 1).noutcomes ∧
      (twoCoins 1).weights[1]? = some 0 ∧
      (twoCoins 1).posterior oneSeen = [.real (1 / 2), .real (1 / 2)] ∧
      ((twoCoins 1).posterior oneSeen)[1]? ≠ some 0 := by
  have hsized : oneSeen.IsSized 1 2 := ⟨rfl, rfl, rfl⟩
  have hchecked := twoCoins_checked_of_le zero_le_one le_rfl
  have hevaluable : (twoCoins 1).Evaluable oneSeen := hchecked.evaluable hsized rfl
  have hweight : (twoCoins 1).weights[1]? = some 0 := by
    show some (Exact.real (1 - 1)) = _
    rw [sub_self, Exact.zero_eq]
  -- The first coin never shows this outcome, and the second one is never thrown.
  have hlikelihood : (twoCoins 1).likelihood [.real 1, .real (1 - 1)] oneSeen = 0 := by
    refine Finset.prod_eq_zero (Finset.mem_range.mpr one_pos) ?_
    rw [actionLikelihood]
    refine Finset.prod_eq_zero (Finset.mem_range.mpr one_lt_two) ?_
    show (1 - 1 : ℝ) ^ 1 = 0
    rw [pow_one, sub_self]
  have hmass : (twoCoins 1).mass oneSeen = 0 := by
    show 1 * (twoCoins 1).likelihood [.real 1, .real (1 - 1)] oneSeen + ((1 - 1) * _ + 0) = 0
    rw [hlikelihood, sub_self, zero_mul, mul_zero, add_zero, add_zero]
  have hposterior : (twoCoins 1).posterior oneSeen = [.real (1 / 2), .real (1 / 2)] := by
    refine (hevaluable.normalizeLogs_jointLogs_of_mass_eq_zero hmass).trans ?_
    rw [uniform_eq (show 0 < (twoCoins 1).weights.length by decide)]
    rfl
  refine ⟨hchecked.check_eq_ok (List.cons_ne_nil _ _), hsized, hweight, hposterior, fun hzero => ?_⟩
  rw [hposterior, Exact.zero_eq] at hzero
  have hhalf : (1 / 2 : ℝ) = 0 := Exact.real.inj (Option.some.inj hzero)
  norm_num at hhalf

end Mixture

end SolverPortfolio

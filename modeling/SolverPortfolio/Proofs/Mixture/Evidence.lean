import SolverPortfolio.Proofs.Counts
import SolverPortfolio.Proofs.Mixture.Likelihood
import SolverPortfolio.Proofs.Portfolio.Scores

/-!
# Evidence and posterior

The evidence of a history is the probability that a mixture gives to outcomes with these counts
(`Mixture.evidence`). In exact arithmetic the posterior weight of a component is its share in the
evidence (`Mixture.Coherent.posterior_eq`), on the path that works with logarithms as well as on
the one that a history without outcomes takes.

Weights and components are taken in pairs (`Mixture.parts`), and what is summed over components
is a sum over them. One more outcome multiplies the likelihood of a component by the probability
that the component predicts for it (`Mixture.Coherent.likelihood_bump`).
-/

namespace SolverPortfolio

open Scalar LogSpace

namespace Mixture

open GammaFunctions

/-! ## Evidence -/

section evidence

variable {α : Type} [Analytic α] [GammaFunctions α]

/-- The probability of outcomes with these counts, weighted over the components. -/
def evidence (m : Mixture α) (c : Counts) : α :=
  Scalar.sum (List.zipWith (fun w component => w * Analytic.exp (m.logLikelihood component c))
    m.weights m.components)

omit [GammaFunctions α] in
/-- Weights and probabilities sum to one without the slack that the check allows. -/
structure SumsToOne (m : Mixture α) : Prop where
  weights : Scalar.sum m.weights = 1
  rows : m.family = .multinomial →
    ∀ component ∈ m.components, ∀ a < m.nactions, Scalar.sum (m.parameters component a) = 1

end evidence

/-! ## Parameters -/

variable {m : Mixture Exact} {c : Counts}

/-- Components with their weights. -/
def parts (m : Mixture Exact) : List (Exact × List Exact) := m.weights.zip m.components

/-- A parameter of a component as a real number. -/
noncomputable def parameter (m : Mixture Exact) (component : List Exact) (a d : ℕ) : ℝ :=
  (component.getD (a * m.noutcomes + d) 0).toReal

/-- A probability up to scale, or a positive concentration. -/
def IsParameter (family : Family) (p : Exact) : Prop :=
  match family with
  | .multinomial => p.IsNonneg
  | .dcm => ∃ x : ℝ, 0 < x ∧ p = .real x

/-- Weights that are not negative, and a row of parameters per component and action. Nothing has to
sum to one. -/
structure Weighted (m : Mixture Exact) : Prop where
  weights : ∀ w ∈ m.weights, w.IsNonneg
  ncomponents : m.weights.length = m.components.length
  nparameters : ∀ component ∈ m.components, component.length = m.nactions * m.noutcomes
  rows : ∀ component ∈ m.components, ∀ a < m.nactions, ∀ p ∈ m.parameters component a,
    IsParameter m.family p

theorem Checked.weighted (hm : m.Checked) : m.Weighted where
  weights := isNonneg_of_isSimplex hm.weights
  ncomponents := hm.ncomponents
  nparameters := hm.nparameters
  rows := by
    intro component hmem a ha p hp
    have hrow := hm.rows component hmem a ha
    cases hfamily : m.family with
    | multinomial =>
        rw [hfamily] at hrow
        exact isNonneg_of_isSimplex hrow p hp
    | dcm =>
        rw [hfamily] at hrow
        exact Exact.eq_real_of_isPositiveFinite (List.all_eq_true.mp hrow p hp)

namespace Weighted

variable (hm : m.Weighted)

include hm

section rows

variable {component : List Exact} (hmem : component ∈ m.components) {a : ℕ} (ha : a < m.nactions)

include hmem ha

theorem parameters_eq : m.parameters component a =
    (List.range m.noutcomes).map fun d => Exact.real (m.parameter component a d) := by
  have hle : (a + 1) * m.noutcomes ≤ component.length := by
    rw [hm.nparameters component hmem]
    exact Nat.mul_le_mul_right _ ha
  have hreal : ∀ v ∈ m.parameters component a, ∃ x, v = Exact.real x := by
    intro v hv
    have hrow := hm.rows component hmem a ha v hv
    cases hfamily : m.family with
    | multinomial =>
        rw [hfamily] at hrow
        obtain ⟨x, _, rfl⟩ := hrow
        exact ⟨x, rfl⟩
    | dcm =>
        rw [hfamily] at hrow
        obtain ⟨x, _, rfl⟩ := hrow
        exact ⟨x, rfl⟩
  have hentries : m.parameters component a =
      (List.range m.noutcomes).map fun d => component.getD (a * m.noutcomes + d) 0 :=
    take_drop_eq_map_range hle 0
  rw [hentries] at hreal ⊢
  refine List.map_congr_left fun d hd => ?_
  obtain ⟨x, hx⟩ := hreal _ (List.mem_map_of_mem hd)
  rw [parameter, hx]
  rfl

theorem real_parameter_mem {d : ℕ} (hd : d < m.noutcomes) :
    Exact.real (m.parameter component a d) ∈ m.parameters component a := by
  rw [hm.parameters_eq hmem ha]
  exact List.mem_map_of_mem (List.mem_range.mpr hd)

theorem isNonnegRow : IsNonnegRow m.family m.noutcomes (m.parameter component a) := by
  have hentry := fun d hd =>
    hm.rows component hmem a ha _ (hm.real_parameter_mem hmem ha (d := d) hd)
  cases hfamily : m.family with
  | multinomial =>
      rw [hfamily] at hentry
      intro d hd
      obtain ⟨x, hx, heq⟩ := hentry d hd
      rwa [Exact.real.inj heq]
  | dcm =>
      rw [hfamily] at hentry
      intro d hd
      obtain ⟨x, hx, heq⟩ := hentry d hd
      rwa [Exact.real.inj heq]

end rows

theorem map_snd_parts : m.parts.map Prod.snd = m.components :=
  List.map_snd_zip hm.ncomponents.ge

theorem weight_eq {x : Exact × List Exact} (hx : x ∈ m.parts) :
    0 ≤ x.1.toReal ∧ x.1 = Exact.real x.1.toReal := by
  obtain ⟨w, hw, heq⟩ := hm.weights x.1 (List.of_mem_zip hx).1
  rw [heq]
  exact ⟨hw, rfl⟩

theorem weights_eq : m.weights = (m.parts.map fun x => x.1.toReal).map Exact.real := by
  rw [List.map_map, ← List.map_fst_zip hm.ncomponents.le]
  exact List.map_congr_left fun x hx => (hm.weight_eq hx).2

end Weighted

/-- No weights do not sum to one. -/
theorem Checked.ncomponents_pos (hm : m.Checked) : 0 < m.weights.length := by
  refine List.length_pos_iff.mpr fun hnone => ?_
  have hsimplex := hm.weights
  have hdistance : Scalar.abs (Scalar.sum ([] : List Exact) - 1) = .real 1 := by
    show Scalar.abs (-0 - 1 : Exact) = _
    rw [Exact.zero_eq, Exact.one_eq, Exact.real_neg, Exact.real_sub, Exact.abs_real]
    norm_num
  rw [hnone, isSimplex, hdistance, Bool.and_eq_true_iff, decide_eq_true_iff] at hsimplex
  have hlt : (1 : ℝ) < 1e-6 := (Exact.real_lt _ _).mp hsimplex.2
  norm_num at hlt

theorem Checked.components_ne_nil (hm : m.Checked) : m.components ≠ [] := by
  rw [← List.length_pos_iff, ← hm.ncomponents]
  exact hm.ncomponents_pos

theorem Checked.isRealRow (hm : m.Checked) (hsums : m.SumsToOne) {component : List Exact}
    (hmem : component ∈ m.components) {a : ℕ} (ha : a < m.nactions) :
    IsRealRow m.family m.noutcomes (m.parameter component a) := by
  have hrow := hm.weighted.isNonnegRow hmem ha
  cases hfamily : m.family with
  | multinomial =>
      rw [hfamily] at hrow
      have hone := hsums.rows hfamily component hmem a ha
      rw [hm.weighted.parameters_eq hmem ha, Exact.sum_range, Exact.one_eq] at hone
      exact ⟨hrow, Exact.real.inj hone⟩
  | dcm =>
      rw [hfamily] at hrow
      exact hrow

theorem mem_components_of_mem_parts {x : Exact × List Exact} (hx : x ∈ m.parts) :
    x.2 ∈ m.components :=
  (List.of_mem_zip hx).2

theorem Checked.sum_weights (hm : m.Checked) (hsums : m.SumsToOne) :
    (m.parts.map fun x => x.1.toReal).sum = 1 := by
  have hone := hsums.weights
  rw [hm.weighted.weights_eq, Exact.sum_real, Exact.one_eq] at hone
  exact Exact.real.inj hone

/-! ## Likelihoods of histories -/

/-- The outcomes counted for an action. -/
def seen (c : Counts) (a : ℕ) (d : ℕ) : ℕ := (c.get a d).toNat

/-- What a component predicts for the next outcome of an action. -/
noncomputable def share (m : Mixture Exact) (c : Counts) (component : List Exact) (a d : ℕ) : ℝ :=
  rowPredictive m.family m.noutcomes (m.parameter component a) (seen c a) d

section coherence

variable [GammaFunctions Exact]

/-- The probability of the outcomes counted for an action. -/
noncomputable def actionLikelihood (m : Mixture Exact) (component : List Exact) (c : Counts)
    (a : ℕ) : ℝ :=
  rowLikelihood m.family m.noutcomes (m.parameter component a) (seen c a)

/-- The probability of outcomes with these counts under a component. -/
noncomputable def likelihood (m : Mixture Exact) (component : List Exact) (c : Counts) : ℝ :=
  ∏ a ∈ Finset.range m.nactions, m.actionLikelihood component c a

/-- Weight times likelihood. -/
noncomputable def joint (m : Mixture Exact) (c : Counts) (x : Exact × List Exact) : ℝ :=
  x.1.toReal * m.likelihood x.2 c

/-- The evidence as a real number. -/
noncomputable def mass (m : Mixture Exact) (c : Counts) : ℝ := (m.parts.map (m.joint c)).sum

/-- What it takes for likelihoods to be numbers: counts of the mixture's size, and for
concentrations a gamma logarithm that is a number where it is used. -/
structure Evaluable (m : Mixture Exact) (c : Counts) : Prop where
  weighted : m.Weighted
  gamma : m.family = .dcm → 0 < m.noutcomes ∧ FiniteOnPositive (lnGamma : Exact → Exact)
  sized : c.IsSized m.nactions m.noutcomes

namespace Evaluable

variable (h : m.Evaluable c)

include h

theorem actionLikelihood_nonneg {component : List Exact} (hmem : component ∈ m.components) {a : ℕ}
    (ha : a < m.nactions) : 0 ≤ m.actionLikelihood component c a :=
  rowLikelihood_nonneg (h.weighted.isNonnegRow hmem ha)

theorem likelihood_nonneg {component : List Exact} (hmem : component ∈ m.components) :
    0 ≤ m.likelihood component c :=
  Finset.prod_nonneg fun _ ha => h.actionLikelihood_nonneg hmem (Finset.mem_range.mp ha)

theorem logLikelihood_eq {component : List Exact} (hmem : component ∈ m.components) :
    m.logLikelihood component c = Exact.log (m.likelihood component c) := by
  refine Exact.sum_log (f := m.actionLikelihood component c) (fun a ha => ?_)
    (fun a ha _ => ?_) (fun a ha hnone => ?_)
  · exact h.actionLikelihood_nonneg hmem (List.mem_range.mp ha)
  · have ha := List.mem_range.mp ha
    rw [h.weighted.parameters_eq hmem ha, h.sized.row_eq ha]
    exact actionLogLikelihood_eq (h.weighted.isNonnegRow hmem ha) h.gamma (c.get a)
  · -- an action that is left out has no outcomes
    have hzero : c.total a = 0 := by simpa using hnone
    refine rowLikelihood_of_zero fun d hd => ?_
    rw [seen, (h.sized.total_eq_zero_iff (List.mem_range.mp ha)).mp hzero d hd]
    rfl

theorem joint_nonneg {x : Exact × List Exact} (hx : x ∈ m.parts) : 0 ≤ m.joint c x :=
  mul_nonneg (h.weighted.weight_eq hx).1 (h.likelihood_nonneg (mem_components_of_mem_parts hx))

theorem joints_nonneg : ∀ y ∈ m.parts.map (m.joint c), 0 ≤ y := by
  intro y hy
  obtain ⟨x, hx, rfl⟩ := List.mem_map.mp hy
  exact h.joint_nonneg hx

theorem mass_nonneg : 0 ≤ m.mass c := List.sum_nonneg h.joints_nonneg

/-- Weight times likelihood as the log likelihood gives it. -/
theorem weight_mul_exp_eq {x : Exact × List Exact} (hx : x ∈ m.parts) :
    x.1 * Analytic.exp (m.logLikelihood x.2 c) = Exact.real (m.joint c x) := by
  have hmem := mem_components_of_mem_parts hx
  rw [h.logLikelihood_eq hmem, Exact.exp_log (h.likelihood_nonneg hmem),
    (h.weighted.weight_eq hx).2]
  rfl

theorem evidence_eq : m.evidence c = Exact.real (m.mass c) := by
  rw [evidence, mass, ← Exact.sum_real, List.map_map, parts, ← List.map_uncurry_zip_eq_zipWith]
  exact congrArg Scalar.sum (List.map_congr_left fun x hx => h.weight_mul_exp_eq hx)

theorem evidence_pos_iff : 0 < m.evidence c ↔ 0 < m.mass c := by
  rw [h.evidence_eq, Exact.zero_eq, Exact.real_lt]

theorem jointLogs_eq : m.jointLogs c = (m.parts.map (m.joint c)).map Exact.log := by
  rw [jointLogs, List.map_map, parts, ← List.map_uncurry_zip_eq_zipWith]
  refine List.map_congr_left fun x hx => ?_
  have hmem := mem_components_of_mem_parts hx
  obtain ⟨hnonneg, hweight⟩ := h.weighted.weight_eq hx
  show Analytic.ln x.1 + m.logLikelihood x.2 c = Exact.log (m.joint c x)
  rw [h.logLikelihood_eq hmem, joint, ← Exact.log_mul hnonneg (h.likelihood_nonneg hmem),
    hweight]
  rfl

/-- Where the history is possible, posterior weights are shares in the evidence. -/
theorem normalizeLogs_jointLogs (hpos : 0 < m.mass c) : normalizeLogs (m.jointLogs c) =
    m.parts.map fun x => Exact.real (m.joint c x / m.mass c) := by
  rw [h.jointLogs_eq, normalizeLogs_map_log h.joints_nonneg hpos, List.map_map]
  rfl

end Evaluable

/-- A checked mixture with exact sums, the functional equation of the gamma function where it
is used, and counts of the mixture's size. -/
structure Coherent (m : Mixture Exact) (c : Counts) : Prop where
  checked : m.Checked
  sums : m.SumsToOne
  gamma : m.family = .dcm → IsLogGamma (lnGamma : Exact → Exact)
  sized : c.IsSized m.nactions m.noutcomes
  noutcomes_pos : 0 < m.noutcomes

namespace Coherent

variable (h : m.Coherent c) {component : List Exact} (hmem : component ∈ m.components)

include h

theorem evaluable : m.Evaluable c :=
  ⟨h.checked.weighted, fun hdcm => ⟨h.noutcomes_pos, (h.gamma hdcm).finite⟩, h.sized⟩

theorem evidence_eq : m.evidence c = Exact.real (m.mass c) := h.evaluable.evidence_eq

theorem evidence_pos_iff : 0 < m.evidence c ↔ 0 < m.mass c := h.evaluable.evidence_pos_iff

theorem bump (a d : ℕ) : m.Coherent (c.bump a d) := { h with sized := h.sized.bump a d }

include hmem

theorem isRealRow {a : ℕ} (ha : a < m.nactions) :
    IsRealRow m.family m.noutcomes (m.parameter component a) :=
  h.checked.isRealRow h.sums hmem ha

omit hmem in
/-- What is seen of an action after one more outcome of it. -/
theorem seen_bump {a d : ℕ} (ha : a < m.nactions) (hd : d < m.noutcomes)
    (hroom : c.hasRoom a d = true) (b : ℕ) {e : ℕ} (he : e < m.noutcomes) :
    seen (c.bump a d) b e = seen c b e + if b = a ∧ e = d then 1 else 0 :=
  Counts.toNat_get_bump (h.sized.noutcomes ▸ hd) (h.sized.noutcomes ▸ he)
    (h.sized.place_lt ha hd) hroom

/-- One more outcome multiplies the likelihood by its predicted probability. -/
theorem likelihood_bump {a d : ℕ} (ha : a < m.nactions) (hd : d < m.noutcomes)
    (hroom : c.hasRoom a d = true) : m.likelihood component (c.bump a d) =
      m.likelihood component c * m.share c component a d := by
  refine prod_range_of_mul ha ?_ fun b _ hne => ?_
  · have hupdate : ∀ e < m.noutcomes, seen (c.bump a d) a e =
        Function.update (seen c a) d (seen c a d + 1) e := by
      intro e he
      rw [h.seen_bump ha hd hroom a he]
      by_cases hed : e = d
      · subst hed
        rw [if_pos ⟨rfl, rfl⟩, Function.update_self]
      · rw [if_neg fun h => hed h.2, add_zero, Function.update_of_ne hed]
    rw [actionLikelihood, rowLikelihood_congr hupdate,
      rowLikelihood_update (h.isRealRow hmem ha) h.gamma hd]
    rfl
  · refine rowLikelihood_congr fun e he => ?_
    rw [h.seen_bump ha hd hroom b he, if_neg fun h => hne h.1, add_zero]

omit hmem

omit h in
theorem likelihood_of_isZero (hzero : c.isZero = true) (component : List Exact) :
    m.likelihood component c = 1 := by
  refine Finset.prod_eq_one fun a _ => rowLikelihood_of_zero fun d _ => ?_
  rw [seen, Counts.get_of_isZero hzero]
  rfl

/-! ## Evidence and posterior -/

omit h in
theorem joint_of_isZero (hzero : c.isZero = true) (x : Exact × List Exact) :
    m.joint c x = x.1.toReal := by
  rw [joint, likelihood_of_isZero hzero, mul_one]

/-- The posterior of a component is its share in the evidence, also where nothing was seen. -/
theorem posterior_eq (hpos : 0 < m.mass c) :
    m.posterior c = m.parts.map fun x => Exact.real (m.joint c x / m.mass c) := by
  unfold posterior
  split
  · rename_i hzero
    have hmass : m.mass c = 1 := by
      rw [mass, List.map_congr_left fun x _ => joint_of_isZero hzero x]
      exact h.checked.sum_weights h.sums
    rw [h.checked.weighted.weights_eq, List.map_map, hmass]
    refine List.map_congr_left fun x _ => ?_
    rw [joint_of_isZero hzero, div_one]
    rfl
  · exact h.evaluable.normalizeLogs_jointLogs hpos

/-- Positive probabilities, or concentrations, which always are. -/
theorem parameter_pos (hparameters : m.family = .multinomial →
    ∀ component ∈ m.components, ∀ p ∈ component, 0 < p) {component : List Exact}
    (hmem : component ∈ m.components) {a d : ℕ} (ha : a < m.nactions) (hd : d < m.noutcomes) :
    0 < m.parameter component a d := by
  cases hfamily : m.family with
  | multinomial =>
      have hentry := h.checked.weighted.real_parameter_mem hmem ha hd
      have hpos := hparameters hfamily component hmem _
        (List.mem_of_mem_drop (List.mem_of_mem_take hentry))
      rwa [Exact.zero_eq, Exact.real_lt] at hpos
  | dcm =>
      have hrow := h.isRealRow hmem ha
      rw [hfamily] at hrow
      exact hrow d hd

/-- With positive parameters every history is possible. -/
theorem evidence_pos (hparameters : m.family = .multinomial →
    ∀ component ∈ m.components, ∀ p ∈ component, 0 < p) : 0 < m.evidence c := by
  have hlikelihood : ∀ component ∈ m.components, 0 < m.likelihood component c := by
    intro component hmem
    refine Finset.prod_pos fun a ha => rowLikelihood_pos fun d hd => ?_
    exact h.parameter_pos hparameters hmem (Finset.mem_range.mp ha) hd
  -- Weights sum to one, so one of them is positive, and its component alone gives evidence.
  have hsum : (m.parts.map fun _ => (0 : ℝ)).sum < (m.parts.map fun x => x.1.toReal).sum := by
    rw [h.checked.sum_weights h.sums, List.map_const', List.sum_replicate, smul_zero]
    exact one_pos
  obtain ⟨x, hx, hweight⟩ := List.exists_lt_of_sum_lt _ _ hsum
  have hjoint : 0 < m.joint c x :=
    mul_pos hweight (hlikelihood x.2 (mem_components_of_mem_parts hx))
  rw [h.evidence_pos_iff]
  exact hjoint.trans_le (List.single_le_sum h.evaluable.joints_nonneg _ (List.mem_map_of_mem hx))

end Coherent

end coherence

end Mixture

end SolverPortfolio

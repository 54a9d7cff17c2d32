import SolverPortfolio.Proofs.Mixture.Evidence

/-!
# What a mixture predicts is what it believes

In exact arithmetic the entry that a prediction of a mixture has for an action and an outcome is
the evidence with that outcome added, divided by the evidence without
(`Mixture.predict_eq_evidence_ratio`): likelihoods, posterior and predictions fit together.

The mixed scores of an action are weighted sums of what the components predict
(`Mixture.Coherent.actionScores_eq`). They need no scaling since they sum to one already
(`Mixture.Coherent.row_predict`), and with the posterior for weights such a sum is the evidence
after one more outcome, up to the evidence before.
-/

namespace SolverPortfolio

open Scalar LogSpace

/-! ## Scores that sum to one -/

/-- A row of numbers that sum to one stays as it is. -/
theorem LogSpace.normalizeScores_of_sum_eq_one {n : ℕ} {f : ℕ → ℝ}
    (hf : ∑ d ∈ Finset.range n, f d = 1) :
    normalizeScores ((List.range n).map fun d => Exact.real (f d)) =
      (List.range n).map fun d => Exact.real (f d) := by
  have htotal : (0 : Exact) < Exact.real 1 ∧ isFinite (Exact.real 1) = true :=
    ⟨by rw [Exact.zero_eq, Exact.real_lt]; exact one_pos, rfl⟩
  simp only [normalizeScores]
  rw [Exact.sum_range, hf, if_pos htotal, List.map_map]
  refine List.map_congr_left fun d _ => ?_
  exact (Exact.real_div _ one_ne_zero).trans (congrArg Exact.real (div_one _))

/-- Sums over outcomes and over components can be exchanged. -/
theorem sum_sum_map {ι : Type} (xs : List ι) (n : ℕ) (f : ι → ℕ → ℝ) :
    ∑ d ∈ Finset.range n, (xs.map fun x => f x d).sum =
      (xs.map fun x => ∑ d ∈ Finset.range n, f x d).sum := by
  induction xs with
  | nil => exact Finset.sum_const_zero
  | cons x xs ih => simp only [List.map_cons, List.sum_cons, Finset.sum_add_distrib, ih]

namespace Mixture

open GammaFunctions

/-- Components of weight zero add nothing to the scores. -/
theorem foldl_addScaled {ι : Type} {n : ℕ} {xs : List ι} {q : ι → ℝ} {f : ι → ℕ → ℝ}
    {F : ι → List Exact}
    (hF : ∀ x ∈ xs, F x = (List.range n).map fun d => Exact.real (f x d)) (s : ℕ → ℝ) :
    (xs.filter fun x => !(Exact.real (q x) == 0)).foldl
        (fun scores x => addScaled scores (Exact.real (q x)) (F x))
        ((List.range n).map fun d => Exact.real (s d)) =
      (List.range n).map fun d => Exact.real (s d + (xs.map fun x => q x * f x d).sum) := by
  induction xs generalizing s with
  | nil => simp only [List.map_nil, List.sum_nil, add_zero]; rfl
  | cons x xs ih =>
      rw [List.forall_mem_cons] at hF
      have hrest := ih hF.2 fun d => s d + q x * f x d
      simp only [List.map_cons, List.sum_cons, ← add_assoc]
      rw [← hrest, List.filter_cons]
      split
      · rw [List.foldl_cons, addScaled, hF.1, List.zipWith_map, List.zipWith_self]
        rfl
      · rename_i hzero
        have hq : q x = 0 := by
          by_contra hne
          refine hzero ?_
          rw [Exact.zero_eq]
          exact congrArg not (decide_eq_false fun heq => hne (Exact.real.inj heq.2))
        simp only [hq, zero_mul, add_zero]

variable {m : Mixture Exact} {c : Counts}

section coherence

variable [GammaFunctions Exact]

/-! ## Predicted rows -/

namespace Coherent

variable (h : m.Coherent c)

include h

theorem sum_share {component : List Exact} (hmem : component ∈ m.components) {a : ℕ}
    (ha : a < m.nactions) : ∑ d ∈ Finset.range m.noutcomes, m.share c component a d = 1 :=
  sum_rowPredictive (h.isRealRow hmem ha) h.noutcomes_pos

theorem predictive_parameters {component : List Exact} (hmem : component ∈ m.components) {a : ℕ}
    (ha : a < m.nactions) : predictive m.family (m.parameters component a) (c.row a) =
      (List.range m.noutcomes).map fun d => Exact.real (m.share c component a d) := by
  rw [h.checked.weighted.parameters_eq hmem ha, h.sized.row_eq ha]
  exact predictive_eq (h.isRealRow hmem ha) h.noutcomes_pos (c.get a)

/-- The mixed scores are the weighted sums of what the components predict. -/
theorem actionScores_eq (q : Exact × List Exact → ℝ) {a : ℕ} (ha : a < m.nactions) :
    m.actionScores c (m.parts.map fun x => Exact.real (q x)) a =
      (List.range m.noutcomes).map fun d =>
        Exact.real (m.parts.map fun x => q x * m.share c x.2 a d).sum := by
  have hzip : (m.parts.map fun x => Exact.real (q x)).zip m.components =
      m.parts.map fun x => (Exact.real (q x), x.2) := by
    rw [← h.checked.weighted.map_snd_parts]
    exact List.zip_map' ..
  have hstart : (List.replicate m.noutcomes 0 : List Exact) =
      (List.range m.noutcomes).map fun _ => Exact.real 0 := by
    rw [List.map_const', List.length_range, Exact.zero_eq]
  have hfold := foldl_addScaled (q := q) (f := fun x => m.share c x.2 a)
    (fun x hx => h.predictive_parameters (mem_components_of_mem_parts hx) ha) fun _ => 0
  simp only [zero_add] at hfold
  unfold actionScores
  rw [hzip, List.filter_map, List.foldl_map, hstart]
  exact hfold

/-- Each row of a prediction is the mixed scores, which sum to one. -/
theorem row_predict (hpos : 0 < m.mass c) {a : ℕ} (ha : a < m.nactions) :
    (m.predict c).row a = (List.range m.noutcomes).map fun d =>
      Exact.real ((m.parts.map fun x => m.joint c x * m.share c x.2 a d).sum / m.mass c) := by
  have hscores := fun b hb => h.actionScores_eq (fun x => m.joint c x / m.mass c) (a := b) hb
  have hlength : ∀ r ∈ (List.range m.nactions).map (m.actionScores c (m.posterior c)),
      r.length = m.noutcomes := by
    intro r hr
    obtain ⟨b, hb, rfl⟩ := List.mem_map.mp hr
    rw [h.posterior_eq hpos, hscores b (List.mem_range.mp hb), List.length_map, List.length_range]
  have hentry : ∀ d, (m.parts.map fun x => m.joint c x / m.mass c * m.share c x.2 a d).sum =
      (m.parts.map fun x => m.joint c x * m.share c x.2 a d).sum / m.mass c := by
    intro d
    simp only [div_mul_eq_mul_div]
    simp only [div_eq_mul_inv, List.sum_map_mul_right]
  have hsum : ∑ d ∈ Finset.range m.noutcomes,
      (m.parts.map fun x => m.joint c x * m.share c x.2 a d).sum / m.mass c = 1 := by
    rw [← Finset.sum_div, sum_sum_map, div_eq_one_iff_eq hpos.ne']
    refine congrArg List.sum (List.map_congr_left fun x hx => ?_)
    rw [← Finset.mul_sum, h.sum_share (mem_components_of_mem_parts hx) ha, mul_one]
  rw [predict, Prediction.row_ofScores (by rwa [List.length_map, List.length_range]) hlength,
    List.getElem_map, List.getElem_range, h.posterior_eq hpos, hscores a ha]
  simp only [hentry]
  exact normalizeScores_of_sum_eq_one hsum

end Coherent

/-! ## Coherence -/

/-- **What a mixture predicts is what it believes.** In exact arithmetic, the entry of a predicted
table for an action and an outcome is the evidence of the history with that outcome added, divided
by the evidence of the history. The mixture is a checked one whose weights and probabilities sum
to one exactly, and the gamma function has its functional equation where concentrations make use
of it. The history is one of its size that is possible, and the outcome one that its cell has room
for. A history with a row whose total is not a word is not predicted for. -/
theorem predict_eq_evidence_ratio (m : Mixture Exact) (hm : m.check = .ok ())
    (hsums : m.SumsToOne) (hgamma : m.family = .dcm → IsLogGamma (lnGamma : Exact → Exact))
    (task : String) (features : Option (FeatureVector Exact)) (c : Counts)
    (hc : c.IsSized m.nactions m.noutcomes) (hpos : 0 < m.evidence c) :
    ((∀ a < m.nactions, c.total a < UInt32.size) →
        ∃ t, (Model.mixture m).predict task features c = .ok t ∧
          ∀ a < m.nactions, ∀ d < m.noutcomes, c.hasRoom a d = true →
            (t.row a)[d]? = some (m.evidence (c.bump a d) / m.evidence c)) ∧
      ((∃ a < m.nactions, UInt32.size ≤ c.total a) →
        (Model.mixture m).predict task features c = .error .overflow) := by
  have hread := canRead_iff (c := c) (checked_of_check hm).components_ne_nil
  have hshape : c.HasShape m.nactions m.noutcomes := ⟨hc.nactions, hc.noutcomes⟩
  refine ⟨fun htotals => ?_, fun ⟨a, ha, hlarge⟩ => ?_⟩
  · refine ⟨m.predict c, ?_, fun a ha d hd hroom => ?_⟩
    · rw [Model.predict, Model.guarded_eq_ok hshape, hread.mpr htotals]
      rfl
    · have h : m.Coherent c := ⟨checked_of_check hm, hsums, hgamma, hc, Nat.zero_lt_of_lt hd⟩
      rw [h.evidence_pos_iff] at hpos
      have hnext : m.mass (c.bump a d) =
          (m.parts.map fun x => m.joint c x * m.share c x.2 a d).sum := by
        refine congrArg List.sum (List.map_congr_left fun x hx => ?_)
        rw [joint, h.likelihood_bump (mem_components_of_mem_parts hx) ha hd hroom, ← mul_assoc]
        rfl
      rw [(h.bump a d).evidence_eq, h.evidence_eq, hnext, Exact.real_div _ hpos.ne',
        h.row_predict hpos ha, List.getElem?_map, List.getElem?_range hd]
      rfl
  · have hnot : m.canRead c = false :=
      Bool.eq_false_iff.mpr fun h => (hread.mp h a ha).not_ge hlarge
    rw [Model.predict, Model.guarded_eq_ok hshape, hnot]
    rfl

end coherence

/-! ## Two mixtures -/

theorem isSimplex_map_real {l : List ℝ} (hl : ∀ x ∈ l, 0 ≤ x) (hsum : l.sum = 1) :
    isSimplex (l.map Exact.real) = true := by
  have hslack : Scalar.abs (Scalar.sum (l.map Exact.real) - 1) < (1e-6 : Exact) := by
    rw [Exact.sum_real, hsum, Exact.one_eq, Exact.real_sub, sub_self, Exact.abs_real, abs_zero]
    exact (Exact.real_lt _ _).mpr (by norm_num)
  rw [isSimplex, Bool.and_eq_true_iff, List.all_eq_true]
  refine ⟨fun v hv => ?_, decide_eq_true hslack⟩
  obtain ⟨x, hx, rfl⟩ := List.mem_map.mp hv
  exact Exact.isNonneg_iff.mpr ⟨x, hl x hx, rfl⟩

/-- Two components with the probabilities of a coin and of the coin the other way round. -/
noncomputable def twoCoins (p : ℝ) : Mixture Exact :=
  ⟨.multinomial, 1, 2, [p, 1 - p].map .real, [[p, 1 - p].map .real, [1 - p, p].map .real], none⟩

/-- A component with concentrations. -/
noncomputable def oneUrn : Mixture Exact :=
  ⟨.dcm, 1, 2, [1].map .real, [[1, 1].map .real], none⟩

/-- One outcome of the second kind. -/
def oneSeen : Counts := ⟨1, 2, [0, 1]⟩

theorem twoCoins_checked_of_le {p : ℝ} (h0 : 0 ≤ p) (h1 : p ≤ 1) : (twoCoins p).Checked := by
  have hleft : ∀ x ∈ [p, 1 - p], 0 ≤ x := by simp [h0, h1]
  have hright : ∀ x ∈ [1 - p, p], 0 ≤ x := by simp [h0, h1]
  refine ⟨isSimplex_map_real hleft (by simp), rfl, fun c hc => ?_, fun c hc a ha => ?_⟩
  · rcases List.mem_pair.mp hc with rfl | rfl <;> rfl
  · obtain rfl := Nat.lt_one_iff.mp ha
    rcases List.mem_pair.mp hc with rfl | rfl
    · exact isSimplex_map_real hleft (by simp)
    · exact isSimplex_map_real hright (by simp)

section twoCoins

variable {p : ℝ} (h0 : 0 < p) (h1 : p < 1)

include h0 h1

theorem twoCoins_checked : (twoCoins p).Checked := twoCoins_checked_of_le h0.le h1.le

omit h0 h1 in
theorem twoCoins_sumsToOne : (twoCoins p).SumsToOne := by
  have hone : ∀ {l : List ℝ}, l.sum = 1 → Scalar.sum (l.map Exact.real) = 1 := by
    intro l hl
    rw [Exact.sum_real, hl, Exact.one_eq]
  refine ⟨hone (by simp), fun _ c hc a ha => ?_⟩
  obtain rfl := Nat.lt_one_iff.mp ha
  rcases List.mem_pair.mp hc with rfl | rfl
  · exact hone (l := [p, 1 - p]) (by simp)
  · exact hone (l := [1 - p, p]) (by simp)

theorem twoCoins_pos : ∀ component ∈ (twoCoins p).components, ∀ q ∈ component, 0 < q := by
  intro component hmem q hq
  have hpos : ∀ x : ℝ, x = p ∨ x = 1 - p → (0 : Exact) < .real x := by
    rintro x (rfl | rfl)
    · rwa [Exact.zero_eq, Exact.real_lt]
    · rw [Exact.zero_eq, Exact.real_lt]
      linarith
  rcases List.mem_pair.mp hmem with rfl | rfl
  all_goals
    obtain ⟨x, hx, rfl⟩ := List.mem_map.mp hq
    rcases List.mem_pair.mp hx with rfl | rfl
    all_goals exact hpos _ (by simp)

end twoCoins

theorem oneUrn_checked : oneUrn.Checked := by
  refine ⟨isSimplex_map_real (by simp) (by simp), rfl, fun c hc => ?_, fun c hc a ha => ?_⟩
  · obtain rfl := List.mem_singleton.mp hc
    rfl
  · obtain rfl := Nat.lt_one_iff.mp ha
    obtain rfl := List.mem_singleton.mp hc
    show isPositive ([1, 1].map Exact.real) = true
    simp [isPositive]

theorem oneUrn_sumsToOne : oneUrn.SumsToOne := by
  refine ⟨?_, nofun⟩
  show Scalar.sum ([1].map Exact.real) = 1
  rw [Exact.sum_real, List.sum_singleton, Exact.one_eq]

/-- Euler's gamma function for concentrations. -/
noncomputable abbrev eulerGamma : GammaFunctions Exact where
  lnGamma x := Exact.log (Real.Gamma x.toReal)
  digamma := Gamma.digamma

/-- The same outcome once more, for probabilities and for concentrations. -/
theorem predict_eq_evidence_ratio_oneSeen :
    (∃ t, (Model.mixture (twoCoins (1 / 3))).predict "" none oneSeen = .ok t ∧
      (t.row 0)[1]? = some ((twoCoins (1 / 3)).evidence (oneSeen.bump 0 1) /
        (twoCoins (1 / 3)).evidence oneSeen)) ∧
    ∃ t, @Model.predict Exact _ eulerGamma (.mixture oneUrn) "" none oneSeen = .ok t ∧
      (t.row 0)[1]? = some (@evidence Exact _ eulerGamma oneUrn (oneSeen.bump 0 1) /
        @evidence Exact _ eulerGamma oneUrn oneSeen) := by
  have hsized : oneSeen.IsSized 1 2 := ⟨rfl, rfl, rfl⟩
  have htotals : ∀ a < 1, oneSeen.total a < UInt32.size := by decide
  have hroom : oneSeen.hasRoom 0 1 = true := by decide
  constructor
  · have h0 : (0 : ℝ) < 1 / 3 := by norm_num
    have h1 : (1 / 3 : ℝ) < 1 := by norm_num
    have hchecked := twoCoins_checked h0 h1
    have hcoins : (twoCoins (1 / 3)).Coherent oneSeen :=
      ⟨hchecked, twoCoins_sumsToOne, nofun, hsized, by decide⟩
    obtain ⟨t, ht, hrow⟩ := (predict_eq_evidence_ratio (twoCoins (1 / 3))
      (hchecked.check_eq_ok nofun) twoCoins_sumsToOne nofun "" none oneSeen hsized
      (hcoins.evidence_pos fun _ => twoCoins_pos h0 h1)).1 htotals
    exact ⟨t, ht, hrow 0 (by decide) 1 (by decide) hroom⟩
  · let _ : GammaFunctions Exact := eulerGamma
    have hdcm : oneUrn.family ≠ .multinomial := nofun
    have hurn : oneUrn.Coherent oneSeen :=
      ⟨oneUrn_checked, oneUrn_sumsToOne, fun _ => isLogGamma_euler, hsized, by decide⟩
    obtain ⟨t, ht, hrow⟩ := (predict_eq_evidence_ratio oneUrn
      (oneUrn_checked.check_eq_ok nofun) oneUrn_sumsToOne (fun _ => isLogGamma_euler) "" none
      oneSeen hsized (hurn.evidence_pos fun hfamily => absurd hfamily hdcm)).1 htotals
    exact ⟨t, ht, hrow 0 (by decide) 1 (by decide) hroom⟩

end Mixture

end SolverPortfolio

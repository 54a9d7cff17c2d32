import SolverPortfolio.Proofs.Mixture.Evidence
import SolverPortfolio.Proofs.Mixture.Fitting

/-!
# What a round computes

Numbers for the two halves of a round of a multinomial fit. The weight of a component is its mean
responsibility, and a probability is the share of its pseudo-count, the concentration and the
outcomes weighted by responsibility (`Mixture.weightOf_maximize`, `Mixture.probability_maximize`).
Responsibilities are shares in the evidence (`Mixture.Smoothed.responsibilitiesOf_eq`).

With a positive concentration what comes out is smoothed: probabilities are positive, and they sum
to one, as weights do (`Mixture.smoothed_maximize`). All of this is about components, actions and
outcomes by number, so sums are over ranges.
-/

namespace SolverPortfolio

open Scalar LogSpace

/-- A list is its entries in order. -/
theorem map_range_getD {β : Type} (xs : List β) (b : β) :
    (List.range xs.length).map (fun i => xs.getD i b) = xs := by
  have hall : (xs.drop (0 * xs.length)).take xs.length =
      (List.range xs.length).map fun i => xs.getD (0 * xs.length + i) b :=
    take_drop_eq_map_range (by simp) b
  simpa using hall.symm

theorem getD_mem {β : Type} {xs : List β} {i : ℕ} (hi : i < xs.length) (b : β) :
    xs.getD i b ∈ xs := by
  rw [List.getD_eq_getElem _ _ hi]
  exact List.getElem_mem hi

theorem getD_map_range {β : Type} {n i : ℕ} (hi : i < n) (f : ℕ → β) (b : β) :
    ((List.range n).map f).getD i b = f i := by
  rw [List.getD_eq_getElem?_getD, List.getElem?_map, List.getElem?_range hi]
  rfl

theorem Exact.foldl_add_range (n : ℕ) (f : ℕ → ℝ) (b : ℝ) :
    (List.range n).foldl (fun s i => s + real (f i)) (real b) =
      real (b + ∑ i ∈ Finset.range n, f i) := by
  induction n with
  | zero => rw [Finset.sum_range_zero, add_zero]; rfl
  | succ n ih =>
      rw [List.range_succ, List.foldl_append, ih, Finset.sum_range_succ, ← add_assoc]
      rfl

/-- Positive numbers over their sum, also if there are none. -/
theorem LogSpace.normalizeScores_range {n : ℕ} {f : ℕ → ℝ} (hf : ∀ i < n, 0 < f i) :
    normalizeScores ((List.range n).map fun i => Exact.real (f i)) =
      (List.range n).map fun i => Exact.real (f i / ∑ j ∈ Finset.range n, f j) := by
  cases n with
  | zero =>
      have hsum : Scalar.sum ([] : List Exact) = .real 0 := Exact.sum_real []
      simp only [normalizeScores, List.range_zero, List.map_nil, hsum]
      split <;> rfl
  | succ n =>
      have hpos : 0 < ((List.range (n + 1)).map f).sum :=
        Finset.sum_pos (fun i hi => hf i (Finset.mem_range.mp hi))
          (Finset.nonempty_range_iff.mpr n.succ_ne_zero)
      have hscaled := normalizeScores_map_real hpos
      rw [List.map_map, List.map_map, List.map_map] at hscaled
      exact hscaled

namespace Mixture

/-! ## Components by number -/

/-- The weight of a component. -/
noncomputable def weightOf (m : Mixture Exact) (k : ℕ) : ℝ := (m.weights.getD k 0).toReal

/-- The probability of an outcome of an action in a component. -/
noncomputable def probability (m : Mixture Exact) (k a d : ℕ) : ℝ := m.parameter (m.component k) a d

section entries

variable {m : Mixture Exact} {family : Family} {nactions noutcomes ncomponents : ℕ}
  (h : m.Shaped family nactions noutcomes ncomponents)

include h

theorem Shaped.components_eq : m.components = (List.range ncomponents).map m.component := by
  rw [← h.ncomponents]
  exact (map_range_getD m.components []).symm

theorem Shaped.component_mem {k : ℕ} (hk : k < ncomponents) : m.component k ∈ m.components := by
  rw [h.components_eq]
  exact List.mem_map_of_mem (List.mem_range.mpr hk)

/-- A row of numbers is a row of probabilities. -/
theorem Shaped.probability_eq {k a : ℕ} (hk : k < ncomponents) (ha : a < nactions) {q : ℕ → ℝ}
    (hrow : m.parameters (m.component k) a = (List.range noutcomes).map fun d => Exact.real (q d))
    {d : ℕ} (hd : d < noutcomes) : m.probability k a d = q d := by
  have hle : (a + 1) * m.noutcomes ≤ (m.component k).length := by
    rw [h.nparameters _ (h.component_mem hk), h.nactions]
    exact Nat.mul_le_mul_right _ ha
  have hentries := take_drop_eq_map_range hle (0 : Exact)
  rw [parameters, hentries, h.noutcomes] at hrow
  have hentry := List.map_inj_left.mp hrow d (List.mem_range.mpr hd)
  rw [probability, parameter, h.noutcomes, hentry]
  rfl

end entries

/-! ## Smoothed mixtures -/

/-- Weights that sum to one, and positive probabilities that do. -/
structure Smoothed (m : Mixture Exact) (nactions noutcomes ncomponents : ℕ) : Prop where
  shaped : m.Shaped .multinomial nactions noutcomes ncomponents
  weighted : m.Weighted
  sum_weights : ∑ k ∈ Finset.range ncomponents, m.weightOf k = 1
  probability_pos : ∀ k < ncomponents, ∀ a < nactions, ∀ d < noutcomes, 0 < m.probability k a d
  sum_probabilities : ∀ k < ncomponents, ∀ a < nactions, 0 < noutcomes →
    ∑ d ∈ Finset.range noutcomes, m.probability k a d = 1

section smoothed

variable {m : Mixture Exact} {nactions noutcomes ncomponents : ℕ} {c : Counts}

namespace Smoothed

variable (h : m.Smoothed nactions noutcomes ncomponents)

include h

theorem evaluable [GammaFunctions Exact] (hc : c.IsSized nactions noutcomes) : m.Evaluable c := by
  refine ⟨h.weighted, fun hdcm => ?_, ?_⟩
  · rw [h.shaped.family] at hdcm
    cases hdcm
  · rw [h.shaped.nactions, h.shaped.noutcomes]
    exact hc

theorem parts_eq : m.parts =
    (List.range ncomponents).map fun k => (Exact.real (m.weightOf k), m.component k) := by
  have hweights : m.weights = (List.range ncomponents).map fun k => Exact.real (m.weightOf k) := by
    have hentries := map_range_getD m.weights 0
    rw [h.shaped.nweights] at hentries
    refine hentries.symm.trans (List.map_congr_left fun k hk => ?_)
    have hlt : k < m.weights.length := h.shaped.nweights.symm ▸ List.mem_range.mp hk
    obtain ⟨w, -, hw⟩ := h.weighted.weights _ (getD_mem hlt 0)
    rw [weightOf, hw]
    rfl
  rw [parts, hweights, h.shaped.components_eq, List.zip_map']

theorem weightOf_nonneg {k : ℕ} (hk : k < ncomponents) : 0 ≤ m.weightOf k := by
  have hpart : (Exact.real (m.weightOf k), m.component k) ∈ m.parts := by
    rw [h.parts_eq]
    exact List.mem_map_of_mem (List.mem_range.mpr hk)
  exact (h.weighted.weight_eq hpart).1

theorem parameters_eq {k a : ℕ} (hk : k < ncomponents) (ha : a < nactions) :
    m.parameters (m.component k) a =
      (List.range noutcomes).map fun d => Exact.real (m.probability k a d) := by
  rw [h.weighted.parameters_eq (h.shaped.component_mem hk) (h.shaped.nactions.symm ▸ ha),
    h.shaped.noutcomes]
  rfl

variable [GammaFunctions Exact]

theorem mass_eq : m.mass c = ∑ k ∈ Finset.range ncomponents,
    m.weightOf k * m.likelihood (m.component k) c := by
  rw [mass, h.parts_eq, List.map_map]
  rfl

/-- Every outcome is in the likelihood. -/
theorem likelihood_eq (c : Counts) (k : ℕ) :
    m.likelihood (m.component k) c = ∏ a ∈ Finset.range nactions, ∏ d ∈ Finset.range noutcomes,
      m.probability k a d ^ seen c a d := by
  rw [likelihood, h.shaped.nactions]
  refine Finset.prod_congr rfl fun a _ => ?_
  rw [actionLikelihood, h.shaped.family, h.shaped.noutcomes]
  rfl

theorem likelihood_pos (c : Counts) {k : ℕ} (hk : k < ncomponents) :
    0 < m.likelihood (m.component k) c := by
  rw [h.likelihood_eq]
  refine Finset.prod_pos fun a ha => Finset.prod_pos fun d hd => pow_pos ?_ _
  exact h.probability_pos k hk a (Finset.mem_range.mp ha) d (Finset.mem_range.mp hd)

/-- Some component has weight, and no probability is zero. -/
theorem mass_pos (c : Counts) : 0 < m.mass c := by
  rw [h.mass_eq]
  have hnonneg : ∀ k ∈ Finset.range ncomponents,
      0 ≤ m.weightOf k * m.likelihood (m.component k) c := fun k hk =>
    mul_nonneg (h.weightOf_nonneg (Finset.mem_range.mp hk))
      (h.likelihood_pos c (Finset.mem_range.mp hk)).le
  obtain ⟨k, hk, hweight⟩ : ∃ k ∈ Finset.range ncomponents, m.weightOf k ≠ 0 :=
    Finset.exists_ne_zero_of_sum_ne_zero (h.sum_weights ▸ one_ne_zero)
  have hk' := Finset.mem_range.mp hk
  exact Finset.sum_pos' hnonneg ⟨k, hk, mul_pos ((h.weightOf_nonneg hk').lt_of_ne' hweight)
    (h.likelihood_pos c hk')⟩

/-- The responsibilities of the components for a task are their shares in the evidence. -/
theorem responsibilitiesOf_eq {N : ℕ} {cs : ℕ → Counts}
    (hcs : ∀ i < N, (cs i).IsSized nactions noutcomes) :
    m.responsibilitiesOf ((List.range N).map cs) = (List.range N).map fun i =>
      (List.range ncomponents).map fun k => Exact.real
        (m.weightOf k * m.likelihood (m.component k) (cs i) / m.mass (cs i)) := by
  rw [responsibilitiesOf, List.map_map]
  refine List.map_congr_left fun i hi => ?_
  have hi := List.mem_range.mp hi
  refine ((h.evaluable (hcs i hi)).normalizeLogs_jointLogs (h.mass_pos (cs i))).trans ?_
  rw [h.parts_eq, List.map_map]
  rfl

end Smoothed

end smoothed

/-! ## The parameters of a round -/

section maximize

variable {s : EstimatorSettings Exact} {m : Mixture Exact} {β : ℝ}
  {N nactions noutcomes ncomponents : ℕ} {cs : ℕ → Counts} {r : ℕ → ℕ → ℝ}

/-- Responsibilities by number. -/
noncomputable def responsibilityRows (N ncomponents : ℕ) (r : ℕ → ℕ → ℝ) : List (List Exact) :=
  (List.range N).map fun i => (List.range ncomponents).map fun k => .real (r i k)

/-- The mean responsibility of a component. -/
noncomputable def meanResponsibility (N : ℕ) (r : ℕ → ℕ → ℝ) (k : ℕ) : ℝ :=
  (∑ i ∈ Finset.range N, r i k) / N

/-- The concentration and the outcomes weighted by responsibility. -/
noncomputable def pseudoCount (β : ℝ) (N : ℕ) (cs : ℕ → Counts) (r : ℕ → ℕ → ℝ) (k a d : ℕ) : ℝ :=
  β + ∑ i ∈ Finset.range N, r i k * seen (cs i) a d

theorem column_responsibilityRows {k : ℕ} (hk : k < ncomponents) :
    column (responsibilityRows N ncomponents r) k =
      (List.range N).map fun i => Exact.real (r i k) := by
  rw [column, responsibilityRows, List.map_map]
  exact List.map_congr_left fun i _ => getD_map_range hk _ _

theorem meanShare_column {k : ℕ} (hN : 0 < N) (hk : k < ncomponents) :
    meanShare (column (responsibilityRows N ncomponents r) k) =
      .real (meanResponsibility N r k) := by
  rw [column_responsibilityRows hk, meanShare, Exact.sum_range, List.length_map,
    List.length_range, Exact.ofNat_eq, Exact.real_div _ (Nat.cast_ne_zero.mpr hN.ne')]
  rfl

/-- Responsibilities sum to one for every task, so their means do. -/
theorem sum_meanResponsibility (hN : 0 < N)
    (hone : ∀ i < N, ∑ k ∈ Finset.range ncomponents, r i k = 1) :
    ∑ k ∈ Finset.range ncomponents, meanResponsibility N r k = 1 := by
  have hN' : (N : ℝ) ≠ 0 := Nat.cast_ne_zero.mpr hN.ne'
  have htotal : ∑ i ∈ Finset.range N, ∑ k ∈ Finset.range ncomponents, r i k = N := by
    rw [Finset.sum_congr rfl fun i hi => hone i (Finset.mem_range.mp hi), Finset.sum_const,
      Finset.card_range, nsmul_eq_mul, mul_one]
  simp only [meanResponsibility]
  rw [← Finset.sum_div, Finset.sum_comm, htotal, div_self hN']

theorem meanResponsibility_nonneg {k : ℕ} (hr : ∀ i < N, 0 ≤ r i k) :
    0 ≤ meanResponsibility N r k :=
  div_nonneg (Finset.sum_nonneg fun i hi => hr i (Finset.mem_range.mp hi)) (Nat.cast_nonneg N)

theorem pseudoCount_pos (cs : ℕ → Counts) (hβ : 0 < β) {k : ℕ} (hr : ∀ i < N, 0 ≤ r i k) (a d : ℕ) :
    0 < pseudoCount β N cs r k a d :=
  add_pos_of_pos_of_nonneg hβ <| Finset.sum_nonneg fun i hi =>
    mul_nonneg (hr i (Finset.mem_range.mp hi)) (Nat.cast_nonneg _)

theorem weightedCount_eq {k : ℕ} (hk : k < ncomponents) (a d : ℕ) :
    weightedCount (.real β) (((List.range N).map cs).zip
      (column (responsibilityRows N ncomponents r) k)) a d =
        .real (pseudoCount β N cs r k a d) := by
  rw [column_responsibilityRows hk, List.zip_map', weightedCount, List.foldl_map]
  exact Exact.foldl_add_range N (fun i => r i k * seen (cs i) a d) β

variable [GammaFunctions Exact]

theorem weights_maximize (h : m.Shaped .multinomial nactions noutcomes ncomponents) (hN : 0 < N)
    (hone : ∀ i < N, ∑ k ∈ Finset.range ncomponents, r i k = 1) (training : List Counts) :
    (maximize s m training (responsibilityRows N ncomponents r)).weights =
      (List.range ncomponents).map fun k => .real (meanResponsibility N r k) := by
  have hshares : (List.range ncomponents).map (fun k =>
      meanShare (column (responsibilityRows N ncomponents r) k)) =
        ((List.range ncomponents).map (meanResponsibility N r)).map Exact.real := by
    rw [List.map_map]
    exact List.map_congr_left fun k hk => meanShare_column hN (List.mem_range.mp hk)
  have hsum : ((List.range ncomponents).map (meanResponsibility N r)).sum = 1 :=
    sum_meanResponsibility hN hone
  simp only [maximize]
  rw [h.nweights, hshares, normalizeScores_map_real (hsum ▸ one_pos), hsum, List.map_map,
    List.map_map]
  exact List.map_congr_left fun k _ => congrArg Exact.real (div_one _)

theorem component_maximize (h : m.Shaped .multinomial nactions noutcomes ncomponents)
    (training : List Counts) (responsibilities : List (List Exact)) {k : ℕ}
    (hk : k < ncomponents) : (maximize s m training responsibilities).component k =
      updateComponent s m (training.zip (column responsibilities k)) (m.component k) := by
  have hlt : k < m.components.length := h.ncomponents.symm ▸ hk
  simp only [maximize, component]
  rw [List.getD_eq_getElem?_getD, List.getD_eq_getElem?_getD, List.getElem?_map,
    List.getElem?_zipIdx, List.getElem?_eq_getElem hlt, Nat.zero_add]
  rfl

theorem parameters_maximize (h : m.Shaped .multinomial nactions noutcomes ncomponents)
    (hs : s.concentration = .real β) (hβ : 0 < β) {k : ℕ} (hk : k < ncomponents)
    (hr : ∀ i < N, 0 ≤ r i k) {a : ℕ} (ha : a < nactions) :
    let m' := maximize s m ((List.range N).map cs) (responsibilityRows N ncomponents r)
    m'.parameters (m'.component k) a = (List.range noutcomes).map fun d =>
      .real (pseudoCount β N cs r k a d /
        ∑ e ∈ Finset.range noutcomes, pseudoCount β N cs r k a e) := by
  have hupdate := parameters_updateComponent (s := s) h (((List.range N).map cs).zip
    (column (responsibilityRows N ncomponents r) k)) (h.component_mem hk)
    (a := a) (h.nactions.symm ▸ ha)
  have hscores : (List.range noutcomes).map (weightedCount s.concentration
      (((List.range N).map cs).zip (column (responsibilityRows N ncomponents r) k)) a) =
        (List.range noutcomes).map fun d => Exact.real (pseudoCount β N cs r k a d) := by
    rw [hs]
    exact List.map_congr_left fun d _ => weightedCount_eq hk a d
  intro m'
  have hcomponent : m'.component k = _ := component_maximize h _ _ hk
  rw [hcomponent]
  refine hupdate.trans ?_
  rw [updateAction, h.family, h.noutcomes]
  simp only [categoricalUpdate]
  rw [hscores]
  exact normalizeScores_range fun d _ => pseudoCount_pos cs hβ hr a d

/-- The new weight of a component is its mean responsibility. -/
theorem weightOf_maximize (h : m.Shaped .multinomial nactions noutcomes ncomponents) (hN : 0 < N)
    (hone : ∀ i < N, ∑ k ∈ Finset.range ncomponents, r i k = 1) (training : List Counts) {k : ℕ}
    (hk : k < ncomponents) :
    (maximize s m training (responsibilityRows N ncomponents r)).weightOf k =
      meanResponsibility N r k := by
  rw [weightOf, weights_maximize h hN hone, getD_map_range hk]
  rfl

/-- The new probability of an outcome is the share of its pseudo-count. -/
theorem probability_maximize (h : m.Shaped .multinomial nactions noutcomes ncomponents)
    (cs : ℕ → Counts) (hs : s.concentration = .real β) (hβ : 0 < β) {k : ℕ} (hk : k < ncomponents)
    (hr : ∀ i < N, 0 ≤ r i k) {a : ℕ} (ha : a < nactions) {d : ℕ} (hd : d < noutcomes) :
    (maximize s m ((List.range N).map cs) (responsibilityRows N ncomponents r)).probability k a d =
      pseudoCount β N cs r k a d / ∑ e ∈ Finset.range noutcomes, pseudoCount β N cs r k a e :=
  (shaped_maximize h _ _).probability_eq hk ha (parameters_maximize h hs hβ hk hr ha) hd

/-- What comes out of a round is smoothed. -/
theorem smoothed_maximize (h : m.Shaped .multinomial nactions noutcomes ncomponents)
    (cs : ℕ → Counts) (hs : s.concentration = .real β) (hβ : 0 < β) (hN : 0 < N)
    (hr : ∀ k < ncomponents, ∀ i < N, 0 ≤ r i k)
    (hone : ∀ i < N, ∑ k ∈ Finset.range ncomponents, r i k = 1) :
    (maximize s m ((List.range N).map cs) (responsibilityRows N ncomponents r)).Smoothed nactions
      noutcomes ncomponents := by
  have hshaped := shaped_maximize (s := s) h ((List.range N).map cs)
    (responsibilityRows N ncomponents r)
  have hpos := fun k hk a d => pseudoCount_pos cs hβ (hr k hk) a d
  have htotal : ∀ k < ncomponents, ∀ a, 0 < noutcomes →
      0 < ∑ e ∈ Finset.range noutcomes, pseudoCount β N cs r k a e := fun k hk a hnone =>
    Finset.sum_pos (fun e _ => hpos k hk a e) (Finset.nonempty_range_iff.mpr hnone.ne')
  refine ⟨hshaped, ⟨?_, hshaped.nweights.trans hshaped.ncomponents.symm, hshaped.nparameters, ?_⟩,
    ?_, ?_, ?_⟩
  · rw [weights_maximize h hN hone]
    intro w hw
    obtain ⟨k, hk, rfl⟩ := List.mem_map.mp hw
    exact ⟨_, meanResponsibility_nonneg (hr k (List.mem_range.mp hk)), rfl⟩
  · intro component hmem a ha p hp
    rw [hshaped.components_eq] at hmem
    rw [hshaped.nactions] at ha
    obtain ⟨k, hk, rfl⟩ := List.mem_map.mp hmem
    have hk := List.mem_range.mp hk
    rw [parameters_maximize h hs hβ hk (hr k hk) ha] at hp
    obtain ⟨d, -, rfl⟩ := List.mem_map.mp hp
    rw [hshaped.family]
    exact ⟨_, div_nonneg (hpos k hk a d).le (Finset.sum_nonneg fun e _ => (hpos k hk a e).le), rfl⟩
  · rw [Finset.sum_congr rfl fun k hk =>
      weightOf_maximize h hN hone _ (Finset.mem_range.mp hk)]
    exact sum_meanResponsibility hN hone
  · intro k hk a ha d hd
    rw [probability_maximize h cs hs hβ hk (hr k hk) ha hd]
    exact div_pos (hpos k hk a d) (htotal k hk a (Nat.zero_lt_of_lt hd))
  · intro k hk a ha hsome
    rw [Finset.sum_congr rfl fun d hd =>
      probability_maximize h cs hs hβ hk (hr k hk) ha (Finset.mem_range.mp hd), ← Finset.sum_div,
      div_self (htotal k hk a hsome).ne']

end maximize

end Mixture

end SolverPortfolio

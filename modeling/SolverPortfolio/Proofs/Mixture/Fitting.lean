import SolverPortfolio.Proofs.Mixture.Rounds
import SolverPortfolio.Proofs.Simplex

/-!
# Parameters stay parameters

What a round of a fit keeps, whatever the gamma functions are: weights are a probability vector,
and so is every row of parameters, unless it is a row of concentrations, which are numbers from
the floor on (`Mixture.Fitted`).

Weights and probabilities come out of responsibilities, which are probability vectors after every
round and before the first (`Mixture.Progress.Valid`); concentrations are cut off at the floor in
every step of their fixed point (`Mixture.isFittedRow_urnStep`).
-/

namespace SolverPortfolio

open Scalar LogSpace Randomness

namespace Exact

theorem zero_le_real {x : ℝ} : 0 ≤ real x ↔ 0 ≤ x := by
  rw [zero_eq, real_le]

protected theorem add_nonneg {a b : Exact} (ha : 0 ≤ a) (hb : 0 ≤ b) : 0 ≤ a + b := by
  rw [zero_le_iff] at ha hb ⊢
  rcases ha with ⟨x, hx, rfl⟩ | rfl
  · rcases hb with ⟨y, hy, rfl⟩ | rfl
    · exact Or.inl ⟨x + y, add_nonneg hx hy, rfl⟩
    · exact Or.inr rfl
  · rcases hb with ⟨y, hy, rfl⟩ | rfl <;> exact Or.inr rfl

theorem foldl_add_nonneg {ι : Type} {f : ι → Exact} {l : List ι} (hf : ∀ i ∈ l, 0 ≤ f i)
    {a : Exact} (ha : 0 ≤ a) : 0 ≤ l.foldl (fun s i => s + f i) a := by
  induction l generalizing a with
  | nil => exact ha
  | cons i l ih =>
      rw [List.forall_mem_cons] at hf
      exact ih hf.2 (Exact.add_nonneg ha hf.1)

end Exact

namespace Mixture

/-! ## Rows -/

/-- A probability vector, or concentrations from the floor on. -/
def IsFittedRow (family : Family) (row : List Exact) : Prop :=
  match family with
  | .multinomial => IsSimplex row
  | .dcm => ∀ a ∈ row, isFinite a = true ∧ concentrationFloor ≤ a

theorem concentrationFloor_eq : (concentrationFloor : Exact) = .real 1e-6 := rfl

theorem IsFittedRow.isRow {family : Family} {row : List Exact} (h : IsFittedRow family row) :
    isRow family row = true := by
  cases family with
  | multinomial => exact IsSimplex.check h
  | dcm =>
      refine List.all_eq_true.mpr fun a ha => ?_
      obtain ⟨hfinite, hfloor⟩ := h a ha
      obtain ⟨x, rfl⟩ := Exact.eq_real_of_isFinite hfinite
      rw [concentrationFloor_eq, Exact.real_le] at hfloor
      have hpos : (0 : Exact) < .real x := by
        rw [Exact.zero_eq, Exact.real_lt]
        exact lt_of_lt_of_le (by norm_num) hfloor
      rw [hfinite, decide_eq_true hpos]
      rfl

/-- A mixture of this size: a weight for each component, and a parameter for each component, action
and outcome. -/
structure Shaped (m : Mixture Exact) (family : Family) (nactions noutcomes ncomponents : ℕ) :
    Prop where
  family : m.family = family
  nactions : m.nactions = nactions
  noutcomes : m.noutcomes = noutcomes
  nweights : m.weights.length = ncomponents
  ncomponents : m.components.length = ncomponents
  nparameters : ∀ component ∈ m.components, component.length = m.nactions * m.noutcomes

/-- A mixture of this size whose weights are a probability vector and whose rows are fitted. -/
structure Fitted (m : Mixture Exact) (family : Family) (nactions noutcomes ncomponents : ℕ) :
    Prop extends m.Shaped family nactions noutcomes ncomponents where
  weights : IsSimplex m.weights
  rows : ∀ component ∈ m.components, ∀ a < m.nactions,
    IsFittedRow m.family (m.parameters component a)

section fitted

variable {m : Mixture Exact} {family : Family} {nactions noutcomes ncomponents : ℕ}

/-- What is fitted is accepted. -/
theorem Fitted.check (h : m.Fitted family nactions noutcomes ncomponents) : m.check = .ok () := by
  refine Checked.check_eq_ok
    ⟨h.weights.check, h.nweights.trans h.ncomponents.symm, h.nparameters, ?_⟩ ?_
  · intro component hmem a ha
    exact (h.rows component hmem a ha).isRow
  · intro hnone
    have hsum := h.weights.sum
    rw [hnone, Exact.one_eq] at hsum
    have hzero : (0 : ℝ) = 1 := Exact.real.inj ((Exact.sum_real []).symm.trans hsum)
    exact zero_ne_one hzero

/-! ## The start -/

theorem isFittedRow_replicate {noutcomes : ℕ} (hpos : 0 < noutcomes) (family : Family) :
    IsFittedRow family (List.replicate noutcomes (initialParameter family noutcomes)) := by
  cases family with
  | multinomial =>
      have huniform := isSimplex_uniform hpos
      rwa [uniform, uniformShare, show noutcomes.max 1 = noutcomes from Nat.max_eq_left hpos]
        at huniform
  | dcm =>
      intro a ha
      obtain rfl := (List.mem_replicate.mp ha).2
      refine ⟨rfl, ?_⟩
      rw [concentrationFloor_eq, initialParameter, Exact.one_eq, Exact.real_le]
      norm_num

theorem shaped_initial : (initial family nactions noutcomes ncomponents : Mixture Exact).Shaped
    family nactions noutcomes ncomponents where
  family := rfl
  nactions := rfl
  noutcomes := rfl
  nweights := List.length_replicate
  ncomponents := List.length_replicate
  nparameters := by
    intro component hmem
    obtain rfl := (List.mem_replicate.mp hmem).2
    exact List.length_replicate

theorem fitted_initial (hcomponents : 0 < ncomponents) (houtcomes : 0 < noutcomes) :
    (initial family nactions noutcomes ncomponents : Mixture Exact).Fitted family nactions
      noutcomes ncomponents where
  toShaped := shaped_initial
  weights := isFittedRow_replicate hcomponents .multinomial
  rows := by
    intro component hmem a ha
    obtain rfl := (List.mem_replicate.mp hmem).2
    have hle : noutcomes ≤ nactions * noutcomes - a * noutcomes := by
      rw [← Nat.sub_mul]
      exact Nat.le_mul_of_pos_left _ (Nat.sub_pos_of_lt ha)
    have hrow := isFittedRow_replicate houtcomes family
    rwa [parameters, initial, List.drop_replicate, List.take_replicate, Nat.min_eq_left hle]

end fitted

/-! ## Weights and probabilities -/

theorem weightedCount_nonneg {concentration : Exact} (hconcentration : 0 ≤ concentration)
    {samples : List (Counts × Exact)} (h : ∀ x ∈ samples, x.2.IsNonneg) (action outcome : ℕ) :
    0 ≤ weightedCount concentration samples action outcome := by
  refine Exact.foldl_add_nonneg (fun x hx => ?_) hconcentration
  obtain ⟨r, hr, heq⟩ := h x hx
  rw [heq, ofCount, Exact.ofNat_eq, Exact.real_mul, Exact.zero_le_real]
  exact mul_nonneg hr (Nat.cast_nonneg _)

theorem isSimplex_categoricalUpdate {s : EstimatorSettings Exact} (hs : 0 ≤ s.concentration)
    {samples : List (Counts × Exact)} (h : ∀ x ∈ samples, x.2.IsNonneg) (action : ℕ)
    {noutcomes : ℕ} (hpos : 0 < noutcomes) :
    IsSimplex (categoricalUpdate s samples action noutcomes) := by
  refine isSimplex_normalizeScores (fun hnone => ?_) fun v hv => ?_
  · rw [List.map_eq_nil_iff, List.range_eq_nil] at hnone
    exact hpos.ne' hnone
  · obtain ⟨d, -, rfl⟩ := List.mem_map.mp hv
    exact weightedCount_nonneg hs h action d

theorem isNonneg_of_mem_column {responsibilities : List (List Exact)}
    (h : ∀ r ∈ responsibilities, IsSimplex r) (k : ℕ) :
    ∀ v ∈ column responsibilities k, v.IsNonneg := by
  intro v hv
  obtain ⟨r, hr, rfl⟩ := List.mem_map.mp hv
  obtain ⟨xs, rfl, hxs, -⟩ := (h r hr).exists_real
  rw [List.getD_eq_getElem?_getD]
  cases hx : (xs.map Exact.real)[k]? with
  | none => exact ⟨0, le_rfl, Exact.zero_eq⟩
  | some v =>
      obtain ⟨x, hmem, rfl⟩ := List.mem_map.mp (List.mem_of_getElem? hx)
      exact ⟨x, hxs x hmem, rfl⟩

theorem meanShare_nonneg {column : List Exact} (hne : column ≠ [])
    (h : ∀ v ∈ column, v.IsNonneg) : 0 ≤ meanShare column := by
  obtain ⟨xs, rfl⟩ := Exact.exists_map_real fun v hv => by
    obtain ⟨x, -, rfl⟩ := h v hv
    rfl
  have hcount : (((xs.map Exact.real).length : ℕ) : ℝ) ≠ 0 :=
    Nat.cast_ne_zero.mpr (mt List.length_eq_zero_iff.mp hne)
  have hsum : 0 ≤ xs.sum := by
    refine List.sum_nonneg fun x hx => ?_
    obtain ⟨y, hy, heq⟩ := h _ (List.mem_map_of_mem hx)
    rwa [Exact.real.inj heq]
  rw [meanShare, Exact.sum_real, Exact.ofNat_eq, Exact.real_div _ hcount, Exact.zero_le_real]
  exact div_nonneg hsum (Nat.cast_nonneg _)

/-! ## Concentrations -/

section gamma

variable [GammaFunctions Exact]

/-- Whatever the fixed point asks for, it is cut off at the floor. -/
theorem isFittedRow_urnStep (s : EstimatorSettings Exact) (samples : List (Counts × Exact))
    (action : ℕ) (concentrations : List Exact) :
    IsFittedRow .dcm (urnStep s samples action concentrations) := by
  intro a ha
  obtain ⟨x, -, rfl⟩ := List.mem_map.mp ha
  simp only
  split
  · rename_i hfinite
    obtain ⟨y, hy⟩ := Exact.eq_real_of_isFinite hfinite
    rw [hy, concentrationFloor_eq, Exact.max_real]
    exact ⟨rfl, (Exact.real_le _ _).mpr (le_max_right _ _)⟩
  · rw [concentrationFloor_eq]
    exact ⟨rfl, (Exact.real_le _ _).mpr le_rfl⟩

theorem length_repeat_urnStep (s : EstimatorSettings Exact) (samples : List (Counts × Exact))
    (action : ℕ) (concentrations : List Exact) (n : ℕ) :
    (Nat.repeat (urnStep s samples action) n concentrations).length = concentrations.length := by
  induction n with
  | zero => rfl
  | succ n ih =>
      rw [Nat.repeat, urnStep, List.length_map, List.length_zipIdx, ih]

theorem isFittedRow_repeat_urnStep {s : EstimatorSettings Exact} {samples : List (Counts × Exact)}
    {action : ℕ} {concentrations : List Exact} (h : IsFittedRow .dcm concentrations) (n : ℕ) :
    IsFittedRow .dcm (Nat.repeat (urnStep s samples action) n concentrations) := by
  cases n with
  | zero => exact h
  | succ n => exact isFittedRow_urnStep s samples action _

/-! ## A round -/

section round

variable {s : EstimatorSettings Exact} {m : Mixture Exact} {family : Family}
  {nactions noutcomes ncomponents : ℕ} {samples : List (Counts × Exact)}

omit [GammaFunctions Exact] in
theorem Shaped.length_parameters (h : m.Shaped family nactions noutcomes ncomponents)
    {component : List Exact} (hmem : component ∈ m.components) {a : ℕ} (ha : a < m.nactions) :
    (m.parameters component a).length = m.noutcomes := by
  have hle : a * m.noutcomes + m.noutcomes ≤ m.nactions * m.noutcomes := by
    rw [← Nat.succ_mul]
    exact Nat.mul_le_mul_right _ ha
  rw [parameters, List.length_take, List.length_drop, h.nparameters component hmem]
  omega

theorem length_updateAction (h : m.Shaped family nactions noutcomes ncomponents)
    {component : List Exact} (hmem : component ∈ m.components) {a : ℕ} (ha : a < m.nactions) :
    (updateAction s m samples component a).length = m.noutcomes := by
  unfold updateAction
  split
  · rw [categoricalUpdate, length_normalizeScores, List.length_map, List.length_range]
  · exact (length_repeat_urnStep ..).trans (h.length_parameters hmem ha)

theorem isFittedRow_updateAction (hs : 0 ≤ s.concentration) (hpos : 0 < m.noutcomes)
    (hsamples : ∀ x ∈ samples, x.2.IsNonneg) (component : List Exact) (a : ℕ) :
    IsFittedRow m.family (updateAction s m samples component a) := by
  unfold updateAction
  cases hfamily : m.family with
  | multinomial => exact isSimplex_categoricalUpdate hs hsamples a hpos
  | dcm => exact isFittedRow_urnStep s samples a _

theorem length_of_mem_rows (h : m.Shaped family nactions noutcomes ncomponents)
    {component : List Exact} (hmem : component ∈ m.components) :
    ∀ r ∈ (List.range m.nactions).map (updateAction s m samples component),
      r.length = m.noutcomes := by
  intro r hr
  obtain ⟨a, ha, rfl⟩ := List.mem_map.mp hr
  exact length_updateAction h hmem (List.mem_range.mp ha)

/-- The rows of an updated component, one by one. -/
theorem parameters_updateComponent (h : m.Shaped family nactions noutcomes ncomponents)
    (samples : List (Counts × Exact)) {component : List Exact} (hmem : component ∈ m.components)
    {a : ℕ} (ha : a < m.nactions) :
    m.parameters (updateComponent s m samples component) a =
      updateAction s m samples component a := by
  have hlen : a < ((List.range m.nactions).map (updateAction s m samples component)).length := by
    rwa [List.length_map, List.length_range]
  rw [parameters, updateComponent, row_flatten (length_of_mem_rows h hmem) hlen,
    List.getElem_map, List.getElem_range]

theorem length_updateComponent (h : m.Shaped family nactions noutcomes ncomponents)
    {component : List Exact} (hmem : component ∈ m.components) :
    (updateComponent s m samples component).length = m.nactions * m.noutcomes := by
  rw [updateComponent, length_flatten_of_rows (length_of_mem_rows h hmem), List.length_map,
    List.length_range]

variable {training : List Counts} {responsibilities : List (List Exact)}

/-- Every component of a round is the update of one before it. -/
theorem exists_of_mem_maximize {component : List Exact}
    (hmem : component ∈ (maximize s m training responsibilities).components) :
    ∃ old ∈ m.components, ∃ k, component =
      updateComponent s m (training.zip (column responsibilities k)) old := by
  obtain ⟨⟨old, k⟩, hold, rfl⟩ := List.mem_map.mp hmem
  exact ⟨old, List.fst_mem_of_mem_zipIdx hold, k, rfl⟩

theorem shaped_maximize (h : m.Shaped family nactions noutcomes ncomponents)
    (training : List Counts) (responsibilities : List (List Exact)) :
    (maximize s m training responsibilities).Shaped family nactions noutcomes ncomponents := by
  refine ⟨h.family, h.nactions, h.noutcomes, ?_, ?_, fun component hmem => ?_⟩
  · simp only [maximize]
    rw [length_normalizeScores, List.length_map, List.length_range, h.nweights]
  · simp only [maximize]
    rw [List.length_map, List.length_zipIdx, h.ncomponents]
  · obtain ⟨old, hold, k, rfl⟩ := exists_of_mem_maximize hmem
    exact length_updateComponent h hold

omit [GammaFunctions Exact] in
theorem isSimplex_weights (hcomponents : 0 < ncomponents)
    (hne : responsibilities ≠ []) (h : ∀ r ∈ responsibilities, IsSimplex r) :
    IsSimplex (normalizeScores <|
      (List.range ncomponents).map fun k => meanShare (column responsibilities k)) := by
  refine isSimplex_normalizeScores (fun hnone => ?_) fun v hv => ?_
  · rw [List.map_eq_nil_iff, List.range_eq_nil] at hnone
    exact hcomponents.ne' hnone
  · obtain ⟨k, -, rfl⟩ := List.mem_map.mp hv
    refine meanShare_nonneg ?_ (isNonneg_of_mem_column h k)
    simpa [column] using hne

/-- The parameters of a round are parameters again. -/
theorem fitted_maximize (h : m.Fitted family nactions noutcomes ncomponents)
    (hs : 0 ≤ s.concentration) (hcomponents : 0 < ncomponents) (houtcomes : 0 < noutcomes)
    (hne : responsibilities ≠ []) (hresponsibilities : ∀ r ∈ responsibilities, IsSimplex r) :
    (maximize s m training responsibilities).Fitted family nactions noutcomes ncomponents := by
  have hsamples : ∀ k, ∀ x ∈ training.zip (column responsibilities k), x.2.IsNonneg :=
    fun k x hx => isNonneg_of_mem_column hresponsibilities k x.2 (List.of_mem_zip hx).2
  refine ⟨shaped_maximize h.toShaped _ _, ?_, fun component hmem a ha => ?_⟩
  · rw [← h.nweights] at hcomponents
    exact isSimplex_weights hcomponents hne hresponsibilities
  · obtain ⟨old, hold, k, rfl⟩ := exists_of_mem_maximize hmem
    have hrow := isFittedRow_updateAction hs (h.noutcomes ▸ houtcomes) (hsamples k) old a
    rwa [← parameters_updateComponent h.toShaped _ hold ha] at hrow

end round

/-! ## Restarts -/

namespace Progress

/-- What holds between two rounds. -/
structure Valid (p : Progress Exact) (family : Family)
    (nactions noutcomes ncomponents nexamples : ℕ) : Prop where
  model : p.model.Fitted family nactions noutcomes ncomponents
  nexamples : p.responsibilities.length = nexamples
  responsibilities : ∀ r ∈ p.responsibilities, IsSimplex r ∧ r.length = ncomponents

section start

variable (family : Family) (training : List Counts) (nactions noutcomes : ℕ) {ncomponents : ℕ}

omit [GammaFunctions Exact] in
theorem isSimplex_of_mem_start (hcomponents : 0 < ncomponents) (stream : Stream) :
    ∀ r ∈ (start family training nactions noutcomes ncomponents stream :
      Progress Exact).responsibilities, IsSimplex r ∧ r.length = ncomponents := by
  intro r hr
  obtain ⟨-, hrows⟩ := Stream.length_takeRows (α := Exact) ncomponents training.length stream
  obtain ⟨row, hrow, rfl⟩ := List.mem_map.mp hr
  refine ⟨isSimplex_normalizeScores (fun hnone => ?_) fun v hv => ?_, ?_⟩
  · rw [← List.length_eq_zero_iff, hrows row hrow] at hnone
    exact hcomponents.ne' hnone
  · obtain ⟨x, hx, rfl⟩ := Stream.isNonneg_of_mem_takeRows _ _ _ row hrow v hv
    exact Exact.zero_le_real.mpr hx
  · rw [length_normalizeScores, hrows row hrow]

omit [GammaFunctions Exact] in
theorem length_start (stream : Stream) :
    (start family training nactions noutcomes ncomponents stream :
      Progress Exact).responsibilities.length = training.length :=
  (List.length_map _).trans (Stream.length_takeRows _ _ stream).1

omit [GammaFunctions Exact] in
theorem valid_start (hcomponents : 0 < ncomponents) (houtcomes : 0 < noutcomes)
    (stream : Stream) :
    (start family training nactions noutcomes ncomponents stream : Progress Exact).Valid family
      nactions noutcomes ncomponents training.length :=
  ⟨fitted_initial hcomponents houtcomes, length_start family training nactions noutcomes stream,
    isSimplex_of_mem_start family training nactions noutcomes hcomponents stream⟩

end start

variable {s : EstimatorSettings Exact} {training : List Counts} {family : Family}
  {nactions noutcomes ncomponents : ℕ}

section next

variable {p : Progress Exact} (h : p.Valid family nactions noutcomes ncomponents training.length)
  (hs : 0 ≤ s.concentration) (hcomponents : 0 < ncomponents) (houtcomes : 0 < noutcomes)
  (hne : training ≠ [])

include h hs hcomponents houtcomes hne

theorem Valid.maximize : (maximize s p.model training p.responsibilities).Fitted family nactions
    noutcomes ncomponents := by
  refine fitted_maximize h.model hs hcomponents houtcomes ?_ fun r hr =>
    (h.responsibilities r hr).1
  rw [← List.length_pos_iff] at hne ⊢
  rwa [h.nexamples]

theorem Valid.next :
    (p.next s training).Valid family nactions noutcomes ncomponents training.length := by
  have hmodel := h.maximize hs hcomponents houtcomes hne
  refine ⟨?_, List.length_map _, fun r hr => ?_⟩
  · exact { hmodel with }
  · obtain ⟨c, -, rfl⟩ := List.mem_map.mp hr
    have hlogs : ((Mixture.maximize s p.model training p.responsibilities).jointLogs c).length =
        ncomponents := by
      rw [jointLogs, List.length_zipWith, hmodel.nweights, hmodel.ncomponents, Nat.min_self]
    refine ⟨isSimplex_normalizeLogs fun hnone => ?_, ?_⟩
    · rw [hnone] at hlogs
      exact hcomponents.ne hlogs
    · rw [length_normalizeLogs]
      exact hlogs

end next

end Progress

end gamma

end Mixture

end SolverPortfolio

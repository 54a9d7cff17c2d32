import SolverPortfolio.Proofs.Mixture.Fitting

/-!
# What a fit asks the gamma functions for

`Mixture.scoreQueries` are the arguments of the gamma logarithm in the score and the
responsibilities of a mixture, `Mixture.updateQueries` those of the digamma function in the
concentrations of a round. They are all there are: gamma functions that agree on them give the
same responsibilities and the same round (`Mixture.jointLogs_congr`, `Mixture.maximize_congr`).

Concentrations from the floor on add up to a positive number, and counts are only added to it, so
a valid restart asks for positive numbers only (`Mixture.isPositiveFinite_of_mem_scoreQueries`,
`Mixture.isPositiveFinite_of_mem_updateQueries`). What the gamma functions are elsewhere does not
matter, then, for the mixture that is fitted (`Mixture.fit_congr`), and whatever they are on
positive numbers, a mixture is fitted and passes the check (`Mixture.fit_valid`).
-/

namespace SolverPortfolio

open Scalar LogSpace Randomness GammaFunctions

/-- The same values on positive numbers. -/
def GammaFunctions.AgreeOnPositive (g g' : GammaFunctions Exact) : Prop :=
  ∀ x, isPositiveFinite x = true → g.lnGamma x = g'.lnGamma x ∧ g.digamma x = g'.digamma x

namespace Exact

theorem isPositiveFinite_real {x : ℝ} (hx : 0 < x) : Scalar.isPositiveFinite (real x) = true := by
  rw [Scalar.isPositiveFinite, isFinite_real, Bool.true_and, decide_eq_true_iff, zero_eq, real_lt]
  exact hx

/-- A count does not make a positive number less. -/
theorem isPositiveFinite_add_ofNat {a : Exact} (ha : Scalar.isPositiveFinite a = true) (n : ℕ) :
    Scalar.isPositiveFinite (a + Scalar.ofNat n) = true := by
  obtain ⟨x, hx, rfl⟩ := eq_real_of_isPositiveFinite ha
  rw [ofNat_eq, real_add]
  exact isPositiveFinite_real (add_pos_of_pos_of_nonneg hx (Nat.cast_nonneg n))

theorem isPositiveFinite_sum {values : List Exact} (hne : values ≠ [])
    (h : ∀ v ∈ values, Scalar.isPositiveFinite v = true) :
    Scalar.isPositiveFinite (Scalar.sum values) = true := by
  obtain ⟨xs, rfl⟩ := exists_map_real fun v hv => (Bool.and_eq_true_iff.mp (h v hv)).1
  have hpos : ∀ x ∈ xs, 0 < x := by
    intro x hx
    obtain ⟨y, hy, heq⟩ := eq_real_of_isPositiveFinite (h _ (List.mem_map_of_mem hx))
    rwa [real.inj heq]
  rw [sum_real]
  refine isPositiveFinite_real (List.sum_pos xs hpos ?_)
  simpa using hne

end Exact

namespace Mixture

theorem rowTotal_eq_ofNat (row : List UInt32) :
    (rowTotal row : Exact) = ofNat (row.map UInt32.toNat).sum := by
  have hcast : (row.map fun c => (c.toNat : ℝ)).sum = ((row.map UInt32.toNat).sum : ℕ) := by
    rw [Nat.cast_list_sum, List.map_map]
    rfl
  have hsum := Exact.sum_real (row.map fun c => (c.toNat : ℝ))
  rw [hcast, List.map_map] at hsum
  exact hsum

theorem IsFittedRow.isPositiveFinite {row : List Exact} (h : IsFittedRow .dcm row) :
    ∀ a ∈ row, isPositiveFinite a = true :=
  List.all_eq_true.mp (IsFittedRow.isRow h)

noncomputable section

/-! ## The score -/

/-- What the likelihood of a row asks the gamma logarithm for. -/
def urnQueries (concentrations : List Exact) (row : List UInt32) : List Exact :=
  sum concentrations :: (sum concentrations + rowTotal row) ::
    ((concentrations.zip row).filter fun x => x.2 != 0).flatMap fun x =>
      [x.1 + ofCount x.2, x.1]

/-- What the likelihood of a history under a component asks for. -/
def likelihoodQueries (m : Mixture Exact) (component : List Exact) (c : Counts) : List Exact :=
  match m.family with
  | .multinomial => []
  | .dcm => (c.observed m.nactions).flatMap fun a => urnQueries (m.parameters component a) (c.row a)

/-- What score and responsibilities ask for. -/
def scoreQueries (m : Mixture Exact) (training : List Counts) : List Exact :=
  training.flatMap fun c => m.components.flatMap fun component => m.likelihoodQueries component c

theorem isPositiveFinite_of_mem_urnQueries {concentrations : List Exact} {row : List UInt32}
    (hne : concentrations ≠ []) (h : ∀ a ∈ concentrations, isPositiveFinite a = true) :
    ∀ x ∈ urnQueries concentrations row, isPositiveFinite x = true := by
  have htotal := Exact.isPositiveFinite_sum hne h
  intro x hx
  rw [urnQueries, List.mem_cons, List.mem_cons, List.mem_flatMap] at hx
  rcases hx with rfl | rfl | ⟨⟨a, c⟩, hmem, hx⟩
  · exact htotal
  · rw [rowTotal_eq_ofNat]
    exact Exact.isPositiveFinite_add_ofNat htotal _
  · have ha := h a (List.of_mem_zip (List.mem_of_mem_filter hmem)).1
    rcases List.mem_pair.mp hx with rfl | rfl
    · exact Exact.isPositiveFinite_add_ofNat ha _
    · exact ha

section congr

variable {g g' : GammaFunctions Exact}

theorem urnLogLikelihood_congr {concentrations : List Exact} {row : List UInt32}
    (h : ∀ x ∈ urnQueries concentrations row, g.lnGamma x = g'.lnGamma x) :
    @urnLogLikelihood Exact _ g concentrations row =
      @urnLogLikelihood Exact _ g' concentrations row := by
  rw [urnQueries, List.forall_mem_cons, List.forall_mem_cons] at h
  obtain ⟨htotal, hall, hterms⟩ := h
  simp only [urnLogLikelihood]
  rw [htotal, hall]
  refine List.foldl_ext _ _ _ fun ll x hx => ?_
  have hx := fun y hy => hterms y (List.mem_flatMap.mpr ⟨x, hx, hy⟩)
  rw [hx _ List.mem_cons_self, hx _ (List.mem_cons_of_mem _ List.mem_cons_self)]

theorem logLikelihood_congr {m : Mixture Exact} {component : List Exact} {c : Counts}
    (h : ∀ x ∈ m.likelihoodQueries component c, g.lnGamma x = g'.lnGamma x) :
    @logLikelihood Exact _ g m component c = @logLikelihood Exact _ g' m component c := by
  unfold logLikelihood
  refine congrArg sum (List.map_congr_left fun a ha => ?_)
  unfold actionLogLikelihood
  unfold likelihoodQueries at h
  cases hfamily : m.family with
  | multinomial => rfl
  | dcm =>
      rw [hfamily] at h
      exact urnLogLikelihood_congr fun x hx => h x (List.mem_flatMap.mpr ⟨a, ha, hx⟩)

theorem jointLogs_congr {m : Mixture Exact} {training : List Counts}
    (h : ∀ x ∈ m.scoreQueries training, g.lnGamma x = g'.lnGamma x) {c : Counts}
    (hc : c ∈ training) : @jointLogs Exact _ g m c = @jointLogs Exact _ g' m c := by
  unfold jointLogs
  rw [← List.map_uncurry_zip_eq_zipWith, ← List.map_uncurry_zip_eq_zipWith]
  refine List.map_congr_left fun x hx => ?_
  have hcomponent := (List.of_mem_zip hx).2
  refine congrArg (Analytic.ln x.1 + ·) (logLikelihood_congr fun y hy => h y ?_)
  exact List.mem_flatMap.mpr ⟨c, hc, List.mem_flatMap.mpr ⟨x.2, hcomponent, hy⟩⟩

theorem trainingScore_congr {m : Mixture Exact} {training : List Counts}
    (h : ∀ x ∈ m.scoreQueries training, g.lnGamma x = g'.lnGamma x) :
    @trainingScore Exact _ g m training = @trainingScore Exact _ g' m training := by
  refine List.foldl_ext _ _ _ fun total c hc => ?_
  rw [jointLogs_congr h hc]

theorem responsibilitiesOf_congr {m : Mixture Exact} {training : List Counts}
    (h : ∀ x ∈ m.scoreQueries training, g.lnGamma x = g'.lnGamma x) :
    @responsibilitiesOf Exact _ g m training = @responsibilitiesOf Exact _ g' m training := by
  refine List.map_congr_left fun c hc => ?_
  rw [jointLogs_congr h hc]

end congr

/-! ## The concentrations -/

/-- What one step of the fixed point asks the digamma function for. -/
def stepQueries (samples : List (Counts × Exact)) (action : ℕ) (concentrations : List Exact) :
    List Exact :=
  sum concentrations :: (informative samples action).flatMap fun x =>
    (sum concentrations + ofNat (x.1.total action)) :: concentrations.zipIdx.flatMap fun y =>
      if x.1.get action y.2 != 0 then [y.1 + ofCount (x.1.get action y.2), y.1] else []

/-- What the update of an action asks for, in any of its steps. -/
def actionQueries [GammaFunctions Exact] (s : EstimatorSettings Exact) (m : Mixture Exact)
    (samples : List (Counts × Exact)) (component : List Exact) (action : ℕ) : List Exact :=
  match m.family with
  | .multinomial => []
  | .dcm => (List.range urnSteps).flatMap fun i =>
    stepQueries samples action
      (Nat.repeat (urnStep s samples action) i (m.parameters component action))

/-- What the parameters of a round ask for. -/
def updateQueries [GammaFunctions Exact] (s : EstimatorSettings Exact) (m : Mixture Exact)
    (training : List Counts) (responsibilities : List (List Exact)) : List Exact :=
  m.components.zipIdx.flatMap fun x => (List.range m.nactions).flatMap fun a =>
    actionQueries s m (training.zip (column responsibilities x.2)) x.1 a

theorem isPositiveFinite_of_mem_stepQueries {samples : List (Counts × Exact)} {action : ℕ}
    {concentrations : List Exact} (hne : concentrations ≠ [])
    (h : ∀ a ∈ concentrations, isPositiveFinite a = true) :
    ∀ x ∈ stepQueries samples action concentrations, isPositiveFinite x = true := by
  have htotal := Exact.isPositiveFinite_sum hne h
  intro x hx
  rw [stepQueries, List.mem_cons, List.mem_flatMap] at hx
  rcases hx with rfl | ⟨sample, -, hx⟩
  · exact htotal
  · rw [List.mem_cons, List.mem_flatMap] at hx
    rcases hx with rfl | ⟨⟨a, d⟩, hmem, hx⟩
    · exact Exact.isPositiveFinite_add_ofNat htotal _
    · have ha := h a (List.fst_mem_of_mem_zipIdx hmem)
      split at hx
      · rcases List.mem_pair.mp hx with rfl | rfl
        · exact Exact.isPositiveFinite_add_ofNat ha _
        · exact ha
      · cases hx

section congr

variable {g g' : GammaFunctions Exact} {s : EstimatorSettings Exact}

theorem urnStep_congr {samples : List (Counts × Exact)} {action : ℕ} {concentrations : List Exact}
    (h : ∀ x ∈ stepQueries samples action concentrations, g.digamma x = g'.digamma x) :
    @urnStep Exact _ g s samples action concentrations =
      @urnStep Exact _ g' s samples action concentrations := by
  rw [stepQueries, List.forall_mem_cons] at h
  obtain ⟨htotal, hsamples⟩ := h
  have hsample : ∀ x ∈ informative samples action,
      g.digamma (sum concentrations + ofNat (x.1.total action)) =
        g'.digamma (sum concentrations + ofNat (x.1.total action)) ∧
      ∀ y ∈ concentrations.zipIdx, (x.1.get action y.2 != 0) = true →
        g.digamma (y.1 + ofCount (x.1.get action y.2)) =
          g'.digamma (y.1 + ofCount (x.1.get action y.2)) ∧ g.digamma y.1 = g'.digamma y.1 := by
    intro x hx
    have hqueries := fun z hz => hsamples z (List.mem_flatMap.mpr ⟨x, hx, hz⟩)
    rw [List.forall_mem_cons] at hqueries
    refine ⟨hqueries.1, fun y hy hseen => ?_⟩
    have hy := fun z hz => hqueries.2 z (List.mem_flatMap.mpr ⟨y, hy, hz⟩)
    rw [if_pos hseen] at hy
    exact ⟨hy _ List.mem_cons_self, hy _ (List.mem_cons_of_mem _ List.mem_cons_self)⟩
  have hdenominator : @urnDenominator Exact _ g (1 / s.priorScale) (sum concentrations)
      (informative samples action) action = @urnDenominator Exact _ g' (1 / s.priorScale)
        (sum concentrations) (informative samples action) action := by
    refine List.foldl_ext _ _ _ fun total x hx => ?_
    rw [(hsample x hx).1, htotal]
  have hnumerator : ∀ y ∈ concentrations.zipIdx,
      @urnNumerator Exact _ g y.1 (informative samples action) action y.2 =
        @urnNumerator Exact _ g' y.1 (informative samples action) action y.2 := by
    intro y hy
    refine List.foldl_ext _ _ _ fun total x hx => ?_
    simp only
    split
    · rename_i hseen
      obtain ⟨hnext, hsame⟩ := (hsample x hx).2 y hy hseen
      rw [hnext, hsame]
    · rfl
  simp only [urnStep]
  rw [hdenominator]
  refine List.map_congr_left fun y hy => ?_
  rw [hnumerator y hy]

theorem urnUpdate_congr {samples : List (Counts × Exact)} {action : ℕ}
    {concentrations : List Exact}
    (h : ∀ i < urnSteps, ∀ x ∈ stepQueries samples action
      (Nat.repeat (@urnStep Exact _ g s samples action) i concentrations),
        g.digamma x = g'.digamma x) :
    @urnUpdate Exact _ g s samples action concentrations =
      @urnUpdate Exact _ g' s samples action concentrations := by
  have hsteps : ∀ i ≤ urnSteps,
      Nat.repeat (@urnStep Exact _ g s samples action) i concentrations =
        Nat.repeat (@urnStep Exact _ g' s samples action) i concentrations := by
    intro i
    induction i with
    | zero => exact fun _ => rfl
    | succ i ih =>
        intro hi
        rw [Nat.repeat, Nat.repeat, ← ih (Nat.le_of_succ_le hi)]
        exact urnStep_congr (h i hi)
  exact hsteps urnSteps le_rfl

theorem updateAction_congr {m : Mixture Exact} {samples : List (Counts × Exact)}
    {component : List Exact} {action : ℕ}
    (h : ∀ x ∈ @actionQueries g s m samples component action, g.digamma x = g'.digamma x) :
    @updateAction Exact _ g s m samples component action =
      @updateAction Exact _ g' s m samples component action := by
  unfold updateAction
  unfold actionQueries at h
  cases hfamily : m.family with
  | multinomial => rfl
  | dcm =>
      rw [hfamily] at h
      refine urnUpdate_congr fun i hi x hx => h x ?_
      exact List.mem_flatMap.mpr ⟨i, List.mem_range.mpr hi, hx⟩

/-- A round does not depend on anything else about the digamma function. -/
theorem maximize_congr {m : Mixture Exact} {training : List Counts}
    {responsibilities : List (List Exact)}
    (h : ∀ x ∈ @updateQueries g s m training responsibilities, g.digamma x = g'.digamma x) :
    @maximize Exact _ g s m training responsibilities =
      @maximize Exact _ g' s m training responsibilities := by
  have hcomponents : (@maximize Exact _ g s m training responsibilities).components =
      (@maximize Exact _ g' s m training responsibilities).components := by
    refine List.map_congr_left fun x hx => ?_
    refine congrArg List.flatten (List.map_congr_left fun a ha => updateAction_congr ?_)
    intro y hy
    exact h y (List.mem_flatMap.mpr ⟨x, hx, List.mem_flatMap.mpr ⟨a, ha, hy⟩⟩)
  simp only [maximize] at hcomponents ⊢
  rw [hcomponents]

end congr

/-! ## Valid restarts -/

section valid

variable {m : Mixture Exact} {family : Family} {nactions noutcomes ncomponents : ℕ}

/-- Concentrations of a fitted mixture are positive, and there are some. -/
theorem Fitted.parameters_pos (h : m.Fitted family nactions noutcomes ncomponents)
    (houtcomes : 0 < noutcomes) (hdcm : m.family = .dcm) {component : List Exact}
    (hmem : component ∈ m.components) {a : ℕ} (ha : a < m.nactions) :
    m.parameters component a ≠ [] ∧ IsFittedRow .dcm (m.parameters component a) := by
  refine ⟨fun hnone => ?_, hdcm ▸ h.rows component hmem a ha⟩
  have hlen := h.length_parameters hmem ha
  rw [hnone, h.noutcomes] at hlen
  exact houtcomes.ne hlen

theorem isPositiveFinite_of_mem_scoreQueries
    (h : m.Fitted family nactions noutcomes ncomponents) (houtcomes : 0 < noutcomes)
    (training : List Counts) : ∀ x ∈ m.scoreQueries training, isPositiveFinite x = true := by
  intro x hx
  obtain ⟨c, -, hx⟩ := List.mem_flatMap.mp hx
  obtain ⟨component, hmem, hx⟩ := List.mem_flatMap.mp hx
  unfold likelihoodQueries at hx
  cases hfamily : m.family with
  | multinomial =>
      rw [hfamily] at hx
      cases hx
  | dcm =>
      rw [hfamily] at hx
      obtain ⟨a, ha, hx⟩ := List.mem_flatMap.mp hx
      have ha := List.mem_range.mp (List.mem_of_mem_filter ha)
      obtain ⟨hne, hrow⟩ := h.parameters_pos houtcomes hfamily hmem ha
      exact isPositiveFinite_of_mem_urnQueries hne hrow.isPositiveFinite x hx

theorem isPositiveFinite_of_mem_updateQueries [GammaFunctions Exact] {s : EstimatorSettings Exact}
    (h : m.Fitted family nactions noutcomes ncomponents) (houtcomes : 0 < noutcomes)
    (training : List Counts) (responsibilities : List (List Exact)) :
    ∀ x ∈ updateQueries s m training responsibilities, isPositiveFinite x = true := by
  intro x hx
  obtain ⟨⟨component, k⟩, hmem, hx⟩ := List.mem_flatMap.mp hx
  have hmem := List.fst_mem_of_mem_zipIdx hmem
  obtain ⟨a, ha, hx⟩ := List.mem_flatMap.mp hx
  unfold actionQueries at hx
  cases hfamily : m.family with
  | multinomial =>
      rw [hfamily] at hx
      cases hx
  | dcm =>
      rw [hfamily] at hx
      obtain ⟨i, -, hx⟩ := List.mem_flatMap.mp hx
      obtain ⟨hne, hrow⟩ := h.parameters_pos houtcomes hfamily hmem (List.mem_range.mp ha)
      refine isPositiveFinite_of_mem_stepQueries (fun hnone => hne ?_)
        (isFittedRow_repeat_urnStep hrow i).isPositiveFinite x hx
      rw [← List.length_eq_zero_iff] at hnone ⊢
      rwa [length_repeat_urnStep] at hnone

end valid

/-! ## Runs -/

section runs

variable {g g' : GammaFunctions Exact} (hg : g.AgreeOnPositive g') {s : EstimatorSettings Exact}
  {training : List Counts} {family : Family} {nactions noutcomes ncomponents : ℕ}

include hg

theorem next_congr {p : Progress Exact}
    (h : p.Valid family nactions noutcomes ncomponents training.length)
    (hs : 0 ≤ s.concentration) (hcomponents : 0 < ncomponents) (houtcomes : 0 < noutcomes)
    (hne : training ≠ []) :
    @Progress.next Exact _ g s training p = @Progress.next Exact _ g' s training p := by
  have hpositive := @isPositiveFinite_of_mem_updateQueries p.model family nactions noutcomes
    ncomponents g s h.model houtcomes training p.responsibilities
  have hmaximize : @maximize Exact _ g s p.model training p.responsibilities =
      @maximize Exact _ g' s p.model training p.responsibilities :=
    maximize_congr fun x hx => (hg x (hpositive x hx)).2
  have hmodel := @Progress.Valid.maximize g s training family nactions noutcomes ncomponents p h
    hs hcomponents houtcomes hne
  have hqueries : ∀ x ∈ (@maximize Exact _ g s p.model training p.responsibilities).scoreQueries
      training, g.lnGamma x = g'.lnGamma x := fun x hx =>
    (hg x (isPositiveFinite_of_mem_scoreQueries hmodel houtcomes training x hx)).1
  simp only [Progress.next]
  rw [trainingScore_congr hqueries, responsibilitiesOf_congr hqueries, hmaximize]

theorem iterate_congr (hs : 0 ≤ s.concentration) (hcomponents : 0 < ncomponents)
    (houtcomes : 0 < noutcomes) (hne : training ≠ []) (rounds : ℕ) {p : Progress Exact}
    (h : p.Valid family nactions noutcomes ncomponents training.length) (previous : Exact) :
    @iterate Exact _ g s training rounds p.model p.responsibilities previous =
      @iterate Exact _ g' s training rounds p.model p.responsibilities previous := by
  induction rounds generalizing p previous with
  | zero => rfl
  | succ rounds ih =>
      have hnext := next_congr hg h hs hcomponents houtcomes hne
      have hvalid := @Progress.Valid.next g s training family nactions noutcomes ncomponents p h
        hs hcomponents houtcomes hne
      have hmodel := congrArg Progress.model hnext
      have hresponsibilities := congrArg Progress.responsibilities hnext
      have hscore := congrArg Mixture.trainingLogLikelihood hmodel
      simp only [Progress.next, Option.some_inj] at hmodel hresponsibilities hscore
      simp only [iterate]
      rw [hmodel, hresponsibilities, hscore]
      split
      · rfl
      · have hrest := ih hvalid (@trainingScore Exact _ g'
          (@maximize Exact _ g' s p.model training p.responsibilities) training)
        rwa [hnext] at hrest

theorem bestRestart_congr (hs : 0 ≤ s.concentration) (hcomponents : 0 < ncomponents)
    (houtcomes : 0 < noutcomes) (hne : training ≠ []) (restarts : ℕ) (stream : Stream)
    (best : Option (Mixture Exact)) :
    @bestRestart Exact _ g s training nactions noutcomes ncomponents restarts stream best =
      @bestRestart Exact _ g' s training nactions noutcomes ncomponents restarts stream best := by
  have hrestart : ∀ stream, @restart Exact _ g s training nactions noutcomes ncomponents stream =
      @restart Exact _ g' s training nactions noutcomes ncomponents stream := fun stream =>
    Prod.ext (iterate_congr hg hs hcomponents houtcomes hne _
      (Progress.valid_start s.family training nactions noutcomes hcomponents houtcomes stream) _)
      rfl
  induction restarts generalizing stream best with
  | zero => rfl
  | succ restarts ih =>
      simp only [bestRestart]
      rw [hrestart]
      exact ih _ _

/-- What the gamma functions are where nothing positive goes in does not matter. -/
theorem fit_congr (hne : training ≠ []) (hsized : ∀ c ∈ training, c.IsSized nactions noutcomes)
    (houtcomes : 0 < noutcomes) (hcomponents : 0 < s.components) (hs : 0 ≤ s.concentration)
    (e : Entropy) : @fit Exact _ g s e training = @fit Exact _ g' s e training := by
  have hmin : 0 < min s.components training.length :=
    Nat.lt_min.mpr ⟨hcomponents, List.length_pos_iff.mpr hne⟩
  unfold fit
  rw [commonShape_eq_ok hne hsized]
  simp only [bind, Except.bind]
  rw [bestRestart_congr hg hs hmin houtcomes hne]

end runs

end

/-! ## Fits -/

/-- **Every fit is valid.** Take any training set of one size with outcomes, settings with at
least one component and one restart and a concentration that is not negative, and any gamma
functions. Along every restart, whatever its draws, after any number of rounds: the weights of
the mixture are a probability vector, so are its rows or else they are concentrations from the
floor on, and so are the responsibilities; and the gamma functions are asked for positive numbers
only. The fit, then, does not depend on what they are elsewhere. If the row totals of all tasks
are words, or there are no rounds, it returns a mixture of as many components as settings and
training set allow for, which passes the check. If not, it stops. -/
theorem fit_valid [g : GammaFunctions Exact] (s : EstimatorSettings Exact) (e : Entropy)
    {training : List Counts} {nactions noutcomes : ℕ} (hne : training ≠ [])
    (hsized : ∀ c ∈ training, c.IsSized nactions noutcomes) (houtcomes : 0 < noutcomes)
    (hcomponents : 0 < s.components) (hrestarts : 0 < s.restarts) (hs : 0 ≤ s.concentration) :
    (∀ (stream : Stream) (n : ℕ),
      let p := (Progress.next s training)^[n]
        (.start s.family training nactions noutcomes (min s.components training.length) stream)
      p.Valid s.family nactions noutcomes (min s.components training.length) training.length ∧
        (∀ x ∈ updateQueries s p.model training p.responsibilities, isPositiveFinite x = true) ∧
        ∀ x ∈ (p.next s training).model.scoreQueries training, isPositiveFinite x = true) ∧
      (∀ g' : GammaFunctions Exact, g.AgreeOnPositive g' →
        @fit Exact _ g' s e training = @fit Exact _ g s e training) ∧
      (s.maxIterations = 0 ∨ (∀ c ∈ training, ∀ a < nactions, c.total a < UInt32.size) →
        ∃ m, fit s e training = .ok m ∧ m.check = .ok () ∧
          m.weights.length = min s.components training.length ∧
          m.components.length = min s.components training.length) ∧
      (s.maxIterations ≠ 0 → (∃ c ∈ training, ∃ a < nactions, UInt32.size ≤ c.total a) →
        fit s e training = .error .overflow) := by
  have hmin : 0 < min s.components training.length :=
    Nat.lt_min.mpr ⟨hcomponents, List.length_pos_iff.mpr hne⟩
  have hstart := fun stream =>
    Progress.valid_start s.family training nactions noutcomes hmin houtcomes stream
  have hnext : ∀ p : Progress Exact, p.Valid s.family nactions noutcomes _ training.length →
      (p.next s training).Valid s.family nactions noutcomes _ training.length := fun p hp =>
    hp.next hs hmin houtcomes hne
  refine ⟨fun stream n => ?_, fun g' hg => ?_, fun htotals => ?_, fun hrounds hlarge => ?_⟩
  · have hvalid := Progress.iterate_next hnext (hstart stream) n
    refine ⟨hvalid, ?_, ?_⟩
    · exact isPositiveFinite_of_mem_updateQueries hvalid.model houtcomes _ _
    · exact isPositiveFinite_of_mem_scoreQueries (hnext _ hvalid).model houtcomes training
  · exact (fit_congr hg hne hsized houtcomes hcomponents hs e).symm
  · obtain ⟨p, hp, hfit⟩ := exists_fit_eq hne hsized hcomponents hrestarts
      (canFit_iff.mpr htotals) e hstart hnext fun p hp => hp.model.check
    exact ⟨p.model, hfit, hp.model.check, hp.model.nweights, hp.model.ncomponents⟩
  · obtain ⟨c, hc, a, ha, hle⟩ := hlarge
    have hnot : ¬canFit s training nactions = true := fun h =>
      (canFit_iff.mp h).elim hrounds fun htotals => (htotals c hc a ha).not_ge hle
    rw [fit_eq hne hsized hcomponents hrestarts, if_neg hnot]

/-- Settings for two components and two restarts, with a seed. -/
noncomputable def seededSettings : EstimatorSettings Exact :=
  { EstimatorSettings.default with components := 2, restarts := 2, seed := some 7 }

/-- With a seed nothing is drawn from it. -/
def unusedEntropy : Entropy := ⟨Stream.ofSeed 0, 0⟩

theorem seededSettings_concentration : 0 ≤ seededSettings.concentration := by
  have hcentile : (0 : ℝ) ≤ 1e-2 := by norm_num
  exact Exact.zero_le_real.mpr hcentile

/-- Two tasks with two actions. With the second one there are more outcomes than a word can hold. -/
theorem fit_valid_twoTasks :
    let e := unusedEntropy
    (∃ m, fit seededSettings e [⟨2, 3, [3, 1, 0, 0, 0, 2]⟩, ⟨2, 3, [0, 4, 0, 1, 0, 0]⟩] = .ok m ∧
      m.check = .ok () ∧ m.weights.length = 2) ∧
    fit seededSettings e [⟨2, 3, [3, 1, 0, 0, 0, 2]⟩, ⟨2, 3, [0, 4294967295, 1, 1, 0, 0]⟩] =
      .error .overflow := by
  intro e
  have hsized : ∀ second : List UInt32, second.length = 6 →
      ∀ c ∈ [(⟨2, 3, [3, 1, 0, 0, 0, 2]⟩ : Counts), ⟨2, 3, second⟩], c.IsSized 2 3 := by
    intro second hlength c hc
    rcases List.mem_pair.mp hc with rfl | rfl
    · exact ⟨rfl, rfl, rfl⟩
    · exact ⟨rfl, rfl, hlength⟩
  obtain ⟨-, -, hfits, -⟩ := fit_valid seededSettings e (List.cons_ne_nil _ _)
    (hsized [0, 4, 0, 1, 0, 0] rfl) three_pos two_pos two_pos seededSettings_concentration
  obtain ⟨-, -, -, hstops⟩ := fit_valid seededSettings e (List.cons_ne_nil _ _)
    (hsized [0, 4294967295, 1, 1, 0, 0] rfl) three_pos two_pos two_pos
    seededSettings_concentration
  obtain ⟨m, hfit, hcheck, hweights, -⟩ := hfits (Or.inr (by decide))
  exact ⟨⟨m, hfit, hcheck, hweights⟩, hstops (by decide) (by decide)⟩

end Mixture

end SolverPortfolio

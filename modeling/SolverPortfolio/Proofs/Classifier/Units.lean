import SolverPortfolio.Proofs.Classifier.Standardisation

/-!
# Units of features

A classifier does not depend on the units its features are measured in. Means move with the units
and deviations stretch with them, so a feature that varies is standardised to the same values
(`Column.standardized_convert`) and all training rows are the same
(`Classifier.standardize_inUnits`). A feature that never varies is not scaled, and a query may have
another standardised value in other units; but such a feature has no weight. A value that is missing
or not finite is taken to be the mean, which moves with the units too
(`Classifier.valueOf_convert`). The main statement is `Classifier.units_do_not_matter`.

A query says of each name one value. So the features of one name have to share their unit
(`FeatureVector.OneUnitEach`), and predictions may change where they do not
(`Classifier.units_matter_for_one_name`).
-/

namespace SolverPortfolio

open Scalar

/-! ## Columns in other units -/

/-- Another unit: how many of the new units make an old one, and where the old zero lies. -/
structure Units where
  factor : ℝ
  origin : ℝ
  factor_pos : 0 < factor

namespace Column

noncomputable def convert (u : Units) (xs : List ℝ) : List ℝ :=
  xs.map fun x => u.factor * x + u.origin

theorem mean_convert (u : Units) {xs : List ℝ} (hne : xs ≠ []) :
    mean (convert u xs) = u.factor * mean xs + u.origin := by
  have hlength : (xs.length : ℝ) ≠ 0 := Nat.cast_ne_zero.mpr (by simpa using hne)
  have hsum : (convert u xs).sum = u.factor * xs.sum + xs.length * u.origin := by
    rw [convert, List.sum_map_add, List.sum_map_mul_left, List.map_id', List.map_const',
      List.sum_replicate, nsmul_eq_mul]
  rw [mean, hsum, convert, List.length_map, mean]
  field_simp

theorem deviation_convert (u : Units) {xs : List ℝ} (hne : xs ≠ []) :
    deviation (convert u xs) = u.factor * deviation xs := by
  have hvariance : variance (convert u xs) = u.factor ^ 2 * variance xs := by
    have hsquares : (convert u xs).map (fun x => (x - mean (convert u xs)) ^ 2) =
        (xs.map fun x => (x - mean xs) ^ 2).map fun y => u.factor ^ 2 * y := by
      rw [mean_convert u hne, convert, List.map_map, List.map_map]
      refine List.map_congr_left fun x _ => ?_
      simp only [Function.comp_apply]
      ring
    rw [variance, hsquares, mean, List.sum_map_mul_left, List.map_id', List.length_map,
      mul_div_assoc]
    rfl
  rw [deviation, hvariance, Real.sqrt_mul (sq_nonneg _), Real.sqrt_sq u.factor_pos.le, deviation]

theorem IsConstant.convert {xs : List ℝ} (h : IsConstant xs) (u : Units) :
    IsConstant (convert u xs) := by
  intro x hx y hy
  obtain ⟨a, ha, rfl⟩ := List.mem_map.mp hx
  obtain ⟨b, hb, rfl⟩ := List.mem_map.mp hy
  rw [h a ha b hb]

/-- What varies in both units is standardised to the same value. -/
theorem standardized_convert (u : Units) {xs : List ℝ} (hne : xs ≠ [])
    (hvaries : 1e-12 < deviation xs) (hvaries' : 1e-12 < deviation (convert u xs)) (x : ℝ) :
    standardized (convert u xs) (u.factor * x + u.origin) = standardized xs x := by
  have hdistance : u.factor * x + u.origin - mean (convert u xs) = u.factor * (x - mean xs) := by
    rw [mean_convert u hne]
    ring
  rw [standardized, scale, if_pos hvaries', hdistance, deviation_convert u hne,
    mul_div_mul_left _ _ u.factor_pos.ne', standardized, scale, if_pos hvaries]

end Column

/-! ## Features in other units -/

/-- A number in another unit. -/
noncomputable def Units.convert (u : Units) (x : Exact) : Exact :=
  .real u.factor * x + .real u.origin

@[simp] theorem Units.convert_real (u : Units) (x : ℝ) :
    u.convert (.real x) = .real (u.factor * x + u.origin) := rfl

@[simp] theorem Units.isFinite_convert (u : Units) (x : Exact) :
    Scalar.isFinite (u.convert x) = Scalar.isFinite x := by
  have hsign : Exact.sign (.real u.factor) = 1 := sign_pos u.factor_pos
  cases x with
  | real x => rfl
  | posInf =>
      show Scalar.isFinite (Exact.infinite (Exact.sign (.real u.factor) * 1) + _) = false
      rw [hsign]
      rfl
  | negInf =>
      show Scalar.isFinite (Exact.infinite (Exact.sign (.real u.factor) * -1) + _) = false
      rw [hsign]
      rfl
  | nan =>
      show Scalar.isFinite (Exact.infinite (Exact.sign (.real u.factor) * 0) + _) = false
      rw [hsign]
      rfl

namespace FeatureVector

/-- The feature at each place in its unit. -/
noncomputable def inUnits (units : ℕ → Units) (v : FeatureVector Exact) : FeatureVector Exact :=
  ⟨v.names, v.values.mapIdx fun j x => (units j).convert x⟩

/-- Every value of a query in the unit of its name. -/
noncomputable def inNamedUnits (units : String → Units) (v : FeatureVector Exact) :
    FeatureVector Exact :=
  ⟨v.names, v.values.mapIdx fun j x => (v.names[j]?.elim x fun name => (units name).convert x)⟩

theorem isEmpty_inNamedUnits (units : String → Units) (v : FeatureVector Exact) :
    (v.inNamedUnits units).isEmpty = v.isEmpty := by
  rw [isEmpty, isEmpty, inNamedUnits]
  cases v.values <;> simp

/-- What is looked up is in the unit of the name. -/
theorem get?_inNamedUnits (units : String → Units) (v : FeatureVector Exact) (name : String) :
    (v.inNamedUnits units).get? name = (v.get? name).map (units name).convert := by
  rw [get?, get?, inNamedUnits]
  cases hplace : v.names.idxOf? name with
  | none => rfl
  | some i =>
      obtain ⟨hi, hname, -⟩ := List.idxOf?_eq_some_iff.mp hplace
      show (v.values.mapIdx _)[i]? = (v.values[i]?).map _
      rw [List.getElem?_mapIdx, List.getElem?_eq_getElem hi, hname]
      rfl

/-- Feature `j` never varies, or it varies in either unit by more than what is scaled. -/
def VariesAlike (units : ℕ → Units) (features : List (FeatureVector Exact)) (j : ℕ) : Prop :=
  Column.IsConstant (column features j) ∨
    1e-12 < Column.deviation (column features j) ∧
      1e-12 < Column.deviation (column (features.map (inUnits units)) j)

/-- The features of one name are measured in one unit. -/
def OneUnitEach (names : List String) (units : ℕ → Units) : Prop :=
  ∀ i (hi : i < names.length) j (hj : j < names.length), names[i] = names[j] → units i = units j

/-- The unit of the first feature of a name. -/
def unitsOf (names : List String) (units : ℕ → Units) (name : String) : Units :=
  units (names.idxOf name)

theorem oneUnitEach_of_nodup {names : List String} {units : ℕ → Units} (h : names.Nodup) :
    OneUnitEach names units := fun _ _ _ _ hname => congrArg units (h.getElem_inj_iff.mp hname)

theorem OneUnitEach.unitsOf_getElem {names : List String} {units : ℕ → Units}
    (h : OneUnitEach names units) {j : ℕ} (hj : j < names.length) :
    unitsOf names units names[j] = units j := by
  have hfirst : names.idxOf names[j] < names.length :=
    List.idxOf_lt_length_of_mem (List.getElem_mem hj)
  exact h _ hfirst j hj (List.getElem_idxOf hfirst)

/-- `w` has the features of `v` that go by these names, each in its unit. -/
structure IsInUnits (names : List String) (units : ℕ → Units) (v w : FeatureVector Exact) :
    Prop where
  isEmpty : w.isEmpty = v.isEmpty
  get? : ∀ j (hj : j < names.length), w.get? names[j] = (v.get? names[j]).map (units j).convert

variable {features : List (FeatureVector Exact)} {n j : ℕ}

theorem IsNumeric.inUnits (h : IsNumeric features n) (units : ℕ → Units) :
    IsNumeric (features.map (inUnits units)) n := by
  intro w hw
  obtain ⟨v, hv, rfl⟩ := List.mem_map.mp hw
  obtain ⟨hlength, hfinite⟩ := h v hv
  refine ⟨by rw [FeatureVector.inUnits, List.length_mapIdx, hlength], fun x hx => ?_⟩
  obtain ⟨i, hi, rfl⟩ := List.mem_mapIdx.mp hx
  rw [Units.isFinite_convert]
  exact hfinite _ (List.getElem_mem hi)

theorem getD_inUnits {v : FeatureVector Exact} (units : ℕ → Units) (hj : j < v.values.length) :
    (v.inUnits units).values.getD j 0 = (units j).convert (v.values.getD j 0) := by
  have hj' : j < (v.inUnits units).values.length := by
    rwa [inUnits, List.length_mapIdx]
  rw [List.getD_eq_getElem _ _ hj', List.getD_eq_getElem _ _ hj]
  exact List.getElem_mapIdx ..

theorem IsNumeric.column_inUnits (h : IsNumeric features n) (units : ℕ → Units) (hj : j < n) :
    column (features.map (FeatureVector.inUnits units)) j =
      Column.convert (units j) (column features j) := by
  rw [column, Column.convert, column, List.map_map, List.map_map]
  refine List.map_congr_left fun v hv => ?_
  simp only [Function.comp_apply]
  rw [getD_inUnits units ((h v hv).1 ▸ hj), h.getD_eq hv hj]
  rfl

end FeatureVector

/-! ## Fits and predictions in other units -/

namespace Classifier

section units

open FeatureVector

variable {s : EstimatorSettings Exact} {counts : List Counts}
  {features : List (FeatureVector Exact)} {units : ℕ → Units} {n : ℕ} {c : Classifier Exact}

/-- The tasks are standardised to the same rows. -/
theorem standardize_inUnits (h : IsNumeric features n) (hne : features ≠ [])
    (halike : ∀ j < n, VariesAlike units features j) {v : FeatureVector Exact}
    (hv : v ∈ features) :
    standardize (meansOf (features.map (inUnits units)) n)
        (scalesOf (features.map (inUnits units)) (meansOf (features.map (inUnits units)) n))
        (v.inUnits units).values =
      standardize (meansOf features n) (scalesOf features (meansOf features n)) v.values := by
  have hne' : features.map (inUnits units) ≠ [] := by simpa using hne
  have hlength : (v.inUnits units).values.length = n :=
    (h.inUnits units _ (List.mem_map_of_mem hv)).1
  refine List.ext_getElem? fun j => ?_
  by_cases hj : j < n
  · have hvalue := h.getElem?_values hv hj
    have hvalue' : (v.inUnits units).values[j]? =
        some (.real ((units j).factor * (v.values.getD j 0).toReal + (units j).origin)) := by
      rw [inUnits, List.getElem?_mapIdx, hvalue]
      rfl
    rw [getElem?_standardize_real h hne hj hvalue,
      getElem?_standardize_real (h.inUnits units) hne' hj hvalue', h.column_inUnits units hj]
    have hcolumn : column features j ≠ [] := by simpa [column] using hne
    have hmem : (v.values.getD j 0).toReal ∈ column features j := List.mem_map_of_mem hv
    rcases halike j hj with hconstant | ⟨hvaries, hvaries'⟩
    · rw [hconstant.standardized_eq_zero _ hmem,
        (hconstant.convert (units j)).standardized_eq_zero _ (List.mem_map_of_mem hmem)]
    · rw [h.column_inUnits units hj] at hvaries'
      rw [Column.standardized_convert (units j) hcolumn hvaries hvaries']
  · have hshort : ∀ (means scales values : List Exact), values.length = n →
        (standardize means scales values)[j]? = none := by
      intro means scales values hvalues
      refine List.getElem?_eq_none ?_
      rw [standardize, List.length_zipWith, List.length_zipWith]
      omega
    rw [hshort _ _ _ hlength, hshort _ _ _ (h v hv).1]

theorem commonNames_inUnits (hne : features ≠ []) {names : List String}
    (h : commonNames features = .ok names) :
    commonNames (features.map (inUnits units)) = .ok names := by
  have hall := commonNames_eq_ok h
  obtain ⟨v, features, rfl⟩ := List.exists_cons_of_ne_nil hne
  have hsame : ((v :: features).map (inUnits units)).all (fun w =>
      w.names == names && w.values.length == names.length) = true := by
    rw [List.all_eq_true]
    intro w hw
    obtain ⟨u, hu, rfl⟩ := List.mem_map.mp hw
    simp [inUnits, hall u hu]
  have hfirst : ((((v :: features).map (inUnits units)).head?.map FeatureVector.names).getD []) =
      names := (hall v List.mem_cons_self).1
  simp only [commonNames]
  rw [hfirst, if_pos hsame]

theorem weights_trained_inUnits (h : IsNumeric features n) (hne : features ≠ [])
    (halike : ∀ j < n, VariesAlike units features j) {names : List String}
    (hnames : names.length = n) (pooled : Prediction Exact) :
    (trained s counts (features.map (inUnits units)) names pooled).weights =
      (trained s counts features names pooled).weights := by
  subst hnames
  have hrows : (features.map (inUnits units)).map (fun v =>
      standardize (meansOf (features.map (inUnits units)) names.length)
        (scalesOf (features.map (inUnits units))
          (meansOf (features.map (inUnits units)) names.length)) v.values) =
      features.map fun v => standardize (meansOf features names.length)
        (scalesOf features (meansOf features names.length)) v.values := by
    rw [List.map_map]
    exact List.map_congr_left fun v hv => standardize_inUnits h hne halike hv
  simp only [trained, hrows]

/-- A fit in other units is accepted as well, and has the same weights. -/
theorem fit_inUnits (hfit : fit s counts features = .ok c)
    (halike : ∀ j < c.names.length, VariesAlike units features j) :
    ∃ c', fit s counts (features.map (inUnits units)) = .ok c' ∧
      c'.names = c.names ∧ c'.pooled = c.pooled ∧ c'.weights = c.weights := by
  obtain ⟨hne, hnumeric⟩ := isNumeric_of_fit hfit
  obtain ⟨hcounts, hlength, hnames, hpooled, htotals, htrained, hcheck⟩ := fit_eq_ok_iff.mp hfit
  obtain ⟨hpooledcheck, hsized, hfinite⟩ := check_eq_ok hcheck
  simp only [isSized, isFinite, Bool.and_eq_true, beq_iff_eq, List.all_eq_true] at hsized hfinite
  have hweights : (trained s counts (features.map (inUnits units)) c.names c.pooled).weights =
      c.weights :=
    (weights_trained_inUnits hnumeric hne halike rfl c.pooled).trans
      (congrArg Classifier.weights htrained).symm
  have hcheck' : (trained s counts (features.map (inUnits units)) c.names c.pooled).check =
      .ok () := by
    refine check_trained (hnumeric.inUnits units) (by simpa using hne) rfl hpooledcheck ?_ ?_
    · rw [hweights]
      exact hsized.2
    · rw [hweights]
      exact hfinite.2
  refine ⟨_, fit_eq hcounts ?_ (commonNames_inUnits hne hnames) hpooled htotals hcheck', rfl, rfl,
    hweights⟩
  rw [List.length_map, hlength]

theorem valueOf_convert {v w : FeatureVector Exact} {name : String} {u : Units}
    (h : w.get? name = (v.get? name).map u.convert) (mean : Exact) :
    valueOf w name (u.convert mean) = u.convert (valueOf v name mean) := by
  rw [valueOf, valueOf, h]
  cases v.get? name with
  | none => rfl
  | some x =>
      simp only [Option.map_some, Units.isFinite_convert]
      split <;> rfl

/-- What a feature of a query adds to the log odds is the same in other units: either its
standardised value is the same, or it has no weight. -/
theorem mul_rowOf_inUnits {c' : Classifier Exact} (hfit : fit s counts features = .ok c)
    (hfit' : fit s counts (features.map (inUnits units)) = .ok c') (hnames : c'.names = c.names)
    {j : ℕ} (hj : j < c.names.length) (halike : VariesAlike units features j)
    {v w : FeatureVector Exact} (h : v.IsInUnits c.names units w) {weights : List Exact}
    (hweights : weights ∈ c.weights) :
    (List.zipWith (· * ·) weights.tail (c'.rowOf w))[j]? =
      (List.zipWith (· * ·) weights.tail (c.rowOf v))[j]? := by
  obtain ⟨hne, hnumeric⟩ := isNumeric_of_fit hfit
  have hj' : j < c'.names.length := hnames ▸ hj
  have hne' : column features j ≠ [] := by simpa [column] using hne
  have hcolumn := hnumeric.column_inUnits units hj
  obtain ⟨y, hy⟩ := exists_valueOf v c.names[j] (Column.mean (column features j))
  have hy' : valueOf w c'.names[j]
      (.real (Column.mean (column (features.map (inUnits units)) j))) =
        .real ((units j).factor * y + (units j).origin) := by
    have hname : c'.names[j] = c.names[j] := by simp only [hnames]
    rw [hcolumn, Column.mean_convert _ hne', ← Units.convert_real, hname,
      valueOf_convert (h.get? j hj), hy, Units.convert_real]
  rw [List.getElem?_zipWith, List.getElem?_zipWith, getElem?_rowOf hfit hj hy,
    getElem?_rowOf hfit' hj' hy', hcolumn]
  rcases halike with hconstant | ⟨hvaries, hvaries'⟩
  · cases hw : weights.tail[j]? with
    | none => rfl
    | some x =>
        obtain rfl := weight_eq_zero hfit hj hconstant hweights x hw
        simp
  · rw [hcolumn] at hvaries'
    rw [Column.standardized_convert _ hne' hvaries hvaries']

theorem linear_rowOf {c' : Classifier Exact} (hfit : fit s counts features = .ok c)
    (hfit' : fit s counts (features.map (inUnits units)) = .ok c') (hnames : c'.names = c.names)
    (halike : ∀ j < c.names.length, VariesAlike units features j) {v w : FeatureVector Exact}
    (h : v.IsInUnits c.names units w) {weights : List Exact} (hweights : weights ∈ c.weights) :
    linear weights (c'.rowOf w) = linear weights (c.rowOf v) := by
  have hproducts : List.zipWith (· * ·) weights.tail (c'.rowOf w) =
      List.zipWith (· * ·) weights.tail (c.rowOf v) := by
    refine List.ext_getElem? fun j => ?_
    by_cases hj : j < c.names.length
    · exact mul_rowOf_inUnits hfit hfit' hnames hj (halike j hj) h hweights
    · have hnone : (c.rowOf v)[j]? = none :=
        List.getElem?_eq_none ((length_rowOf_le c v).trans (not_lt.mp hj))
      have hnone' : (c'.rowOf w)[j]? = none :=
        List.getElem?_eq_none ((length_rowOf_le c' w).trans (hnames ▸ not_lt.mp hj))
      rw [List.getElem?_zipWith, List.getElem?_zipWith, hnone, hnone']
  rw [linear, linear, hproducts]

/-- What a query says of the features counts, in whichever units it says it. -/
theorem predict_of_isInUnits {c' : Classifier Exact} (hfit : fit s counts features = .ok c)
    (hfit' : fit s counts (features.map (inUnits units)) = .ok c') (hnames : c'.names = c.names)
    (hpooled : c'.pooled = c.pooled) (hweights : c'.weights = c.weights)
    (halike : ∀ j < c.names.length, VariesAlike units features j) {v w : FeatureVector Exact}
    (h : v.IsInUnits c.names units w) : c'.predict (some w) = c.predict (some v) := by
  cases hv : v.isEmpty with
  | true => rw [predict, predict, h.isEmpty, hv, if_pos rfl, if_pos rfl, hpooled]
  | false =>
      rw [predict_of_features c' (h.isEmpty.trans hv), predict_of_features c hv, predictRow,
        predictRow, nactions, nactions, noutcomes, noutcomes, hpooled, hweights]
      congr 1
      refine List.map_congr_left fun x hx => ?_
      obtain ⟨weights, a⟩ := x
      obtain ⟨hlt, hget⟩ := List.mem_zipIdx' hx
      have hmem : weights ∈ c.weights := hget ▸ List.getElem_mem hlt
      simp only [linear_rowOf hfit hfit' hnames halike h hmem]

end units

/-- **Units do not matter.** Let the features of the training tasks be measured in other units, and
let every feature either be the same for all tasks or vary noticeably in both units. If the fit was
accepted, it still is, with the same weights, and a task without features has the same prediction.
If the features of one name share their unit, as they do if all names are distinct, every query has
the same prediction in the new units, whichever features it lacks. -/
theorem units_do_not_matter {s : EstimatorSettings Exact} {counts : List Counts}
    {features : List (FeatureVector Exact)} {c : Classifier Exact} {units : ℕ → Units}
    (hfit : fit s counts features = .ok c)
    (halike : ∀ j < c.names.length, FeatureVector.VariesAlike units features j) :
    ∃ c', fit s counts (features.map (FeatureVector.inUnits units)) = .ok c' ∧
      c'.weights = c.weights ∧ c'.predict none = c.predict none ∧
      (c.names.Nodup → FeatureVector.OneUnitEach c.names units) ∧
      (FeatureVector.OneUnitEach c.names units → ∀ v,
        c'.predict (some (v.inNamedUnits (FeatureVector.unitsOf c.names units))) =
          c.predict (some v)) := by
  obtain ⟨c', hfit', hnames, hpooled, hweights⟩ := fit_inUnits hfit halike
  refine ⟨c', hfit', hweights, hpooled, FeatureVector.oneUnitEach_of_nodup, fun hone v => ?_⟩
  refine predict_of_isInUnits hfit hfit' hnames hpooled hweights halike ⟨?_, fun j hj => ?_⟩
  · exact FeatureVector.isEmpty_inNamedUnits _ v
  · rw [← hone.unitsOf_getElem hj]
    exact FeatureVector.get?_inNamedUnits _ v _

theorem isNumeric_fourFeatures (second : String) :
    FeatureVector.IsNumeric (fourFeatures second) 2 := by
  simp [FeatureVector.IsNumeric, fourFeatures, task]

theorem column_fourFeatures_zero (second : String) :
    FeatureVector.column (fourFeatures second) 0 = [0, 0, 0, 0] := rfl

theorem column_fourFeatures_one (second : String) :
    FeatureVector.column (fourFeatures second) 1 = [1, -1, 1, -1] := rfl

theorem deviation_second : Column.deviation [1, -1, 1, -1] = 1 := by
  have hvariance : Column.variance [1, -1, 1, -1] = 1 := by
    norm_num [Column.variance, Column.mean]
  rw [Column.deviation, hvariance, Real.sqrt_one]

/-- What varies noticeably still does in units that are no larger. -/
theorem variesAlike_fourFeatures (second : String) {units : ℕ → Units}
    (hfactor : 1 ≤ (units 1).factor) (j : ℕ) :
    FeatureVector.VariesAlike units (fourFeatures second) j := by
  by_cases hj : j = 1
  · subst hj
    right
    rw [(isNumeric_fourFeatures second).column_inUnits units one_lt_two, column_fourFeatures_one,
      Column.deviation_convert _ (List.cons_ne_nil _ _), deviation_second, mul_one]
    exact ⟨by norm_num, lt_of_lt_of_le (by norm_num) hfactor⟩
  · -- All values of the first feature are zero, and there is no third one.
    have hcolumn : FeatureVector.column (fourFeatures second) j = [0, 0, 0, 0] := by
      cases j with
      | zero => rfl
      | succ j =>
          cases j with
          | zero => exact absurd rfl hj
          | succ j => simp [FeatureVector.column, fourFeatures, task, Exact.toReal]
    left
    rw [hcolumn]
    simp [Column.IsConstant]

theorem thousand_pos : (0 : ℝ) < 1e3 := by
  norm_num

/-- The first of two features counts from another origin, the second in thousandths. -/
noncomputable def thousandths (j : ℕ) : Units :=
  if j = 1 then ⟨1e3, 0.5, thousand_pos⟩ else ⟨1, 1.5, Real.zero_lt_one⟩

/-- The query lacks the first feature. -/
theorem units_do_not_matter_thousandths :
    fit oneStep fourTasks (fourFeatures "y") = .ok (stepped "y") ∧
      (∀ j < (stepped "y").names.length,
        FeatureVector.VariesAlike thousandths (fourFeatures "y") j) ∧
      ∃ c', fit oneStep fourTasks
          ((fourFeatures "y").map (FeatureVector.inUnits thousandths)) = .ok c' ∧
        c'.weights = (stepped "y").weights ∧
        c'.predict (some ⟨["y"], [.real 1000.5]⟩) =
          (stepped "y").predict (some ⟨["y"], [.real 1]⟩) := by
  have hfactor : (1 : ℝ) ≤ (thousandths 1).factor := by
    show (1 : ℝ) ≤ 1e3
    norm_num
  have halike := variesAlike_fourFeatures "y" hfactor
  obtain ⟨c', hfit, hweights, -, hdistinct, hpredict⟩ :=
    units_do_not_matter (fit_fourFeatures "y") fun j _ => halike j
  have hnodup : (stepped "y").names.Nodup := by
    show ["x", "y"].Nodup
    decide
  have hquery : FeatureVector.inNamedUnits (FeatureVector.unitsOf (stepped "y").names thousandths)
      ⟨["y"], [.real 1]⟩ = ⟨["y"], [.real 1000.5]⟩ := by
    have hplace : (stepped "y").names.idxOf "y" = 1 := by
      show ["x", "y"].idxOf "y" = 1
      decide
    norm_num [FeatureVector.inNamedUnits, FeatureVector.unitsOf, hplace, thousandths]
  exact ⟨fit_fourFeatures "y", fun j _ => halike j, c', hfit, hweights,
    hquery ▸ hpredict (hdistinct hnodup) ⟨["y"], [.real 1]⟩⟩

/-- Only the first of two features counts from another origin. -/
def firstShifted (j : ℕ) : Units := ⟨1, if j = 0 then 1 else 0, Real.zero_lt_one⟩

/-- The value of the first feature stands for both in a query, and so does its unit. -/
theorem rowOf_firstShifted {c : Classifier Exact} (hnames : c.names = ["x", "x"])
    (hfit : fit oneStep fourTasks ((fourFeatures "x").map (FeatureVector.inUnits firstShifted)) =
      .ok c) : c.rowOf ((task "x" 1).inUnits firstShifted) = [.real 0, .real 1] := by
  obtain ⟨names, means, scales, weights, pooled⟩ := c
  obtain rfl : names = ["x", "x"] := hnames
  have hnumeric := isNumeric_fourFeatures "x"
  have hvalue : ∀ mean, valueOf ((task "x" 1).inUnits firstShifted) "x" (.real mean) = .real 1 := by
    intro mean
    norm_num [valueOf, FeatureVector.inUnits, task, FeatureVector.get?, List.idxOf?_cons,
      firstShifted]
  have hfirst := getElem?_rowOf hfit (j := 0) Nat.two_pos (hvalue _)
  have hsecond := getElem?_rowOf hfit (j := 1) Nat.one_lt_two (hvalue _)
  have hzero : Column.standardized (Column.convert (firstShifted 0) [0, 0, 0, 0]) 1 = 0 := by
    refine Column.IsConstant.standardized_eq_zero ?_ 1 ?_ <;>
      simp [Column.IsConstant, Column.convert, firstShifted]
  have hone : Column.standardized (Column.convert (firstShifted 1) [1, -1, 1, -1]) 1 = 1 := by
    have hsame : Column.convert (firstShifted 1) [1, -1, 1, -1] = [1, -1, 1, -1] := by
      simp [Column.convert, firstShifted]
    rw [hsame, Column.standardized, Column.scale, deviation_second, if_pos (by norm_num)]
    norm_num [Column.mean]
  rw [hnumeric.column_inUnits _ two_pos, column_fourFeatures_zero, hzero] at hfirst
  rw [hnumeric.column_inUnits _ one_lt_two, column_fourFeatures_one, hone] at hsecond
  have hlength := length_rowOf_le ⟨["x", "x"], means, scales, weights, pooled⟩
    ((task "x" 1).inUnits firstShifted)
  refine List.ext_getElem? fun j => ?_
  rcases j with _ | _ | j
  · exact hfirst
  · exact hsecond
  · rw [List.getElem?_eq_none (hlength.trans (Nat.le_add_left 2 j))]
    rfl

/-- Two features of one name in units of their own are predicted in the first one's. -/
theorem units_matter_for_one_name :
    fit oneStep fourTasks (fourFeatures "x") = .ok (stepped "x") ∧
      (∀ j < (stepped "x").names.length,
        FeatureVector.VariesAlike firstShifted (fourFeatures "x") j) ∧
      ∃ c', fit oneStep fourTasks
          ((fourFeatures "x").map (FeatureVector.inUnits firstShifted)) = .ok c' ∧
        c'.predict (some ((task "x" 1).inUnits firstShifted)) ≠
          (stepped "x").predict (some (task "x" 1)) := by
  have hfactor : (1 : ℝ) ≤ (firstShifted 1).factor := le_refl 1
  have halike := variesAlike_fourFeatures "x" hfactor
  obtain ⟨c', hfit', hnames, hpooled, hweights⟩ :=
    fit_inUnits (fit_fourFeatures "x") fun j _ => halike j
  refine ⟨fit_fourFeatures "x", fun j _ => halike j, c', hfit', ?_⟩
  have hrow : (stepped "x").rowOf (task "x" 1) = [.real 0, .real 0] := by
    simp [rowOf, stepped, standardize, valueOf, task, FeatureVector.get?, List.idxOf?_cons,
      Exact.real_div]
  rw [predict_of_features _ rfl, predict_of_features _ rfl, rowOf_firstShifted hnames hfit', hrow]
  have hlinear : ∀ x y : ℝ, linear [.real (-1 / 4), .real 0, .real (1 / 4)] [.real x, .real y] =
      Exact.real (-1 / 4 + 1 / 4 * y) := by
    intro x y
    simp [linear, Scalar.sum]
  exact predictRow_ne hpooled rfl hweights rfl (hlinear 0 1) (hlinear 0 0) (by norm_num)

end Classifier

end SolverPortfolio

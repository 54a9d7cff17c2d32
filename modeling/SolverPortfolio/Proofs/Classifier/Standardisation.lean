import SolverPortfolio.Proofs.Classifier

/-!
# Standardised features

In exact arithmetic a fit standardises each feature by the mean and the standard deviation of its
values for the training tasks (`Classifier.getElem?_meansOf`, `Classifier.getElem?_scalesOf`); it
is only accepted if all these values are numbers (`Classifier.isNumeric_of_fit`). The rows of the
tasks and of queries follow value by value.

A feature that has the same value for all tasks is not scaled and is zero in every row. Descent
leaves its weight where it starts, at zero: a gradient that adds up multiples of zero is zero or has
left the numbers (`Classifier.ignoresFeature_descend` is the step, and the weights of an accepted
fit are numbers, `Classifier.weight_eq_zero`).
-/

namespace SolverPortfolio

open Scalar

/-! ## Columns of numbers -/

namespace Column

noncomputable section

def mean (xs : List ℝ) : ℝ := xs.sum / xs.length

def variance (xs : List ℝ) : ℝ := mean (xs.map fun x => (x - mean xs) ^ 2)

/-- The standard deviation. -/
def deviation (xs : List ℝ) : ℝ := √(variance xs)

def IsConstant (xs : List ℝ) : Prop := ∀ x ∈ xs, ∀ y ∈ xs, x = y

/-- The unit of the standardised values; a column that hardly varies is not scaled. -/
def scale (xs : List ℝ) : ℝ := if 1e-12 < deviation xs then deviation xs else 1

def standardized (xs : List ℝ) (x : ℝ) : ℝ := (x - mean xs) / scale xs

end

/-- A mean adds up shares. -/
theorem mean_map {ι : Type} (l : List ι) (f : ι → ℝ) :
    mean (l.map f) = (l.map fun i => f i / l.length).sum := by
  rw [mean, List.length_map, ← LogSpace.sum_map_div, List.map_map]
  rfl

theorem scale_pos (xs : List ℝ) : 0 < scale xs := by
  rw [scale]
  split
  · rename_i hvaries
    exact lt_trans (by norm_num) hvaries
  · exact one_pos

theorem IsConstant.eq_mean {xs : List ℝ} (h : IsConstant xs) : ∀ x ∈ xs, x = mean xs := by
  intro x hx
  have hlength : (xs.length : ℝ) ≠ 0 :=
    Nat.cast_ne_zero.mpr (List.length_pos_of_mem hx).ne'
  have hsum : xs.sum = xs.length * x := by
    rw [List.eq_replicate_of_mem fun y hy => h y hy x hx, List.sum_replicate, nsmul_eq_mul,
      List.length_replicate]
  rw [mean, hsum, mul_div_cancel_left₀ _ hlength]

theorem IsConstant.standardized_eq_zero {xs : List ℝ} (h : IsConstant xs) :
    ∀ x ∈ xs, standardized xs x = 0 := by
  intro x hx
  rw [standardized, ← h.eq_mean x hx, sub_self, zero_div]

end Column

namespace FeatureVector

/-- The values of the feature at a place. -/
noncomputable def column (features : List (FeatureVector Exact)) (j : ℕ) : List ℝ :=
  features.map fun v => (v.values.getD j 0).toReal

/-- All values are numbers, `n` for each task. -/
def IsNumeric (features : List (FeatureVector Exact)) (n : ℕ) : Prop :=
  ∀ v ∈ features, v.values.length = n ∧ ∀ x ∈ v.values, Scalar.isFinite x = true

variable {features : List (FeatureVector Exact)} {n j : ℕ}

theorem IsNumeric.getElem?_values (h : IsNumeric features n) {v : FeatureVector Exact}
    (hv : v ∈ features) (hj : j < n) :
    v.values[j]? = some (.real (v.values.getD j 0).toReal) := by
  obtain ⟨hlength, hfinite⟩ := h v hv
  have hlt : j < v.values.length := hlength ▸ hj
  obtain ⟨x, hx⟩ := Exact.eq_real_of_isFinite (hfinite _ (List.getElem_mem hlt))
  rw [List.getD_eq_getElem _ _ hlt, List.getElem?_eq_getElem hlt, hx]
  rfl

theorem IsNumeric.getD_eq (h : IsNumeric features n) {v : FeatureVector Exact}
    (hv : v ∈ features) (hj : j < n) :
    v.values.getD j 0 = .real (v.values.getD j 0).toReal := by
  have hvalue := congrArg (Option.getD · 0) (h.getElem?_values hv hj)
  rwa [← List.getD_eq_getElem?_getD] at hvalue

end FeatureVector

/-! ## Standardisation column by column -/

/-- Rows added up place by place are columns added up. -/
theorem getElem?_foldl_zipWith {β γ δ : Type} {f : β → γ → β} {g : δ → List γ} (c : γ) {j : ℕ} :
    ∀ {rows : List δ} {start : List β}, (∀ r ∈ rows, j < (g r).length) →
      (rows.foldl (fun sums r => List.zipWith f sums (g r)) start)[j]? =
        start[j]?.map fun b => rows.foldl (fun b r => f b ((g r).getD j c)) b
  | [], start, _ => by simp
  | r :: rows, start, h => by
      rw [List.forall_mem_cons] at h
      rw [List.foldl_cons, getElem?_foldl_zipWith c h.2, List.getElem?_zipWith,
        List.getElem?_eq_getElem h.1]
      cases start[j]? <;> simp [h.1]

theorem length_foldl_zipWith {β γ δ : Type} {f : β → γ → β} {g : δ → List γ} {n : ℕ}
    {rows : List δ} {start : List β} (h : ∀ r ∈ rows, (g r).length = n)
    (hstart : start.length = n) :
    (rows.foldl (fun sums r => List.zipWith f sums (g r)) start).length = n := by
  induction rows generalizing start with
  | nil => exact hstart
  | cons r rows ih =>
      rw [List.forall_mem_cons] at h
      have hsums : (List.zipWith f start (g r)).length = n := by
        rw [List.length_zipWith, hstart, h.1, Nat.min_self]
      exact ih h.2 hsums

namespace Exact

theorem foldl_add_real {ι : Type} {F : ι → Exact} {f : ι → ℝ} {l : List ι}
    (h : ∀ i ∈ l, F i = real (f i)) : l.foldl (fun s i => s + F i) 0 = real (l.map f).sum := by
  have hfold : ∀ start : ℝ,
      l.foldl (fun s i => s + F i) (real start) = real (start + (l.map f).sum) := by
    induction l with
    | nil => intro start; rw [List.map_nil, List.sum_nil, add_zero]; rfl
    | cons i l ih =>
        rw [List.forall_mem_cons] at h
        intro start
        rw [List.foldl_cons, h.1, real_add, ih h.2, List.map_cons, List.sum_cons, add_assoc]
  rw [zero_eq, hfold, zero_add]

theorem isFinite_of_div {x : Exact} {y : ℝ} (h : Scalar.isFinite (x / real y) = true) :
    Scalar.isFinite x = true := by
  have hspecial : ∀ a : Exact, Scalar.isFinite a = false →
      Scalar.isFinite (if y = 0 then a else infinite (a.sign * SignType.sign y)) ≠ true := by
    intro a ha
    split
    · rw [ha]
      exact Bool.false_ne_true
    · cases a.sign * SignType.sign y <;> exact Bool.false_ne_true
  cases x with
  | real x => rfl
  | posInf => exact absurd h (hspecial posInf rfl)
  | negInf => exact absurd h (hspecial negInf rfl)
  | nan => exact absurd h Bool.false_ne_true

end Exact

namespace Classifier

section columns

variable {features : List (FeatureVector Exact)} {n j : ℕ}

open FeatureVector in
theorem getElem?_meansOf (h : IsNumeric features n) (hne : features ≠ []) (hj : j < n) :
    (meansOf features n)[j]? = some (.real (Column.mean (column features j))) := by
  have hcount : ((features.length : ℕ) : ℝ) ≠ 0 := Nat.cast_ne_zero.mpr (by simpa using hne)
  have hshare : ∀ v ∈ features, v.values.getD j 0 / (ofNat features.length : Exact) =
      .real ((v.values.getD j 0).toReal / features.length) := by
    intro v hv
    rw [h.getD_eq hv hj, Exact.ofNat_eq, Exact.real_div _ hcount]
    rfl
  rw [meansOf, getElem?_foldl_zipWith 0 fun v hv => (h v hv).1.symm ▸ hj,
    List.getElem?_replicate_of_lt hj, Option.map_some, Exact.foldl_add_real hshare]
  rw [column, Column.mean_map]

theorem length_meansOf (h : ∀ v ∈ features, v.values.length = n) :
    (meansOf features n).length = n :=
  length_foldl_zipWith h List.length_replicate

theorem length_scalesOf {means : List Exact} (h : ∀ v ∈ features, v.values.length = n)
    (hmeans : means.length = n) : (scalesOf features means).length = n := by
  rw [scalesOf, List.length_map, variancesOf]
  refine length_foldl_zipWith (fun v hv => ?_) (by rw [List.length_replicate, hmeans])
  rw [List.length_zipWith, h v hv, hmeans, Nat.min_self]

theorem scaleOf_variance (xs : List ℝ) :
    scaleOf (Exact.real (Column.variance xs)) = .real (Column.scale xs) := by
  have hnonneg : 0 ≤ Column.variance xs := by
    refine div_nonneg (List.sum_nonneg fun y hy => ?_) (Nat.cast_nonneg _)
    obtain ⟨x, -, rfl⟩ := List.mem_map.mp hy
    positivity
  have hsqrt : Analytic.sqrt (Exact.real (Column.variance xs)) = .real (Column.deviation xs) :=
    if_pos hnonneg
  have hthreshold : (1e-12 : Exact) = .real 1e-12 := rfl
  rw [scaleOf, hsqrt, hthreshold, Column.scale]
  simp only [Exact.real_lt]
  split <;> simp

open FeatureVector in
theorem getElem?_scalesOf (h : IsNumeric features n) (hne : features ≠ []) (hj : j < n) :
    (scalesOf features (meansOf features n))[j]? =
      some (.real (Column.scale (column features j))) := by
  have hlengths : ∀ v ∈ features, v.values.length = n := fun v hv => (h v hv).1
  have hmeans : (meansOf features n).length = n := length_meansOf hlengths
  have hcount : ((features.length : ℕ) : ℝ) ≠ 0 := Nat.cast_ne_zero.mpr (by simpa using hne)
  have hmean := getElem?_meansOf h hne hj
  have hshare : ∀ v ∈ features,
      square ((List.zipWith (· - ·) v.values (meansOf features n)).getD j 0) /
          (ofNat features.length : Exact) =
        .real (((v.values.getD j 0).toReal - Column.mean (column features j)) ^ 2 /
          features.length) := by
    intro v hv
    rw [List.getD_eq_getElem?_getD, List.getElem?_zipWith, h.getElem?_values hv hj, hmean]
    simp only [Option.getD_some, Exact.real_sub, square, Exact.real_mul, Exact.ofNat_eq]
    rw [Exact.real_div _ hcount, sq]
  have hsum : (variancesOf features (meansOf features n))[j]? =
      some (.real (Column.variance (column features j))) := by
    rw [variancesOf, getElem?_foldl_zipWith 0 (fun v hv => by
        rw [List.length_zipWith, hlengths v hv, hmeans, Nat.min_self]; exact hj),
      hmeans, List.getElem?_replicate_of_lt hj, Option.map_some, Exact.foldl_add_real hshare]
    have hsquares : (column features j).map (fun x => (x - Column.mean (column features j)) ^ 2) =
        features.map fun v =>
          ((v.values.getD j 0).toReal - Column.mean (column features j)) ^ 2 := List.map_map
    rw [Column.variance, hsquares, Column.mean_map]
  rw [scalesOf, List.getElem?_map, hsum, Option.map_some, scaleOf_variance]

open FeatureVector in
/-- Means are numbers only if all values are. -/
theorem isNumeric_of_isFinite (hlengths : ∀ v ∈ features, v.values.length = n)
    (hmeans : ∀ m ∈ meansOf features n, Scalar.isFinite m = true) : IsNumeric features n := by
  refine fun v hv => ⟨hlengths v hv, fun x hx => ?_⟩
  obtain ⟨j, hj, rfl⟩ := List.getElem_of_mem hx
  have hmean : (meansOf features n)[j]? = (List.replicate n (0 : Exact))[j]?.map fun b =>
      features.foldl (fun m w => m + w.values.getD j 0 / ofNat features.length) b :=
    getElem?_foldl_zipWith 0 fun w hw => (hlengths v hv).trans (hlengths w hw).symm ▸ hj
  rw [List.getElem?_replicate_of_lt (hlengths v hv ▸ hj), Option.map_some] at hmean
  have hfinite := hmeans _ (List.mem_of_getElem? hmean)
  rw [← List.foldl_map] at hfinite
  have hshare := (Rounded.isFinite_foldl_add hfinite).2 _ (List.mem_map_of_mem hv)
  rw [List.getD_eq_getElem _ _ hj] at hshare
  exact Exact.isFinite_of_div hshare

open FeatureVector in
/-- A standardised row, value by value. -/
theorem getElem?_standardize_real (h : IsNumeric features n) (hne : features ≠ []) (hj : j < n)
    {values : List Exact} {x : ℝ} (hvalue : values[j]? = some (.real x)) :
    (standardize (meansOf features n) (scalesOf features (meansOf features n)) values)[j]? =
      some (.real (Column.standardized (column features j) x)) := by
  rw [standardize, List.getElem?_zipWith, List.getElem?_zipWith, hvalue, getElem?_meansOf h hne hj,
    getElem?_scalesOf h hne hj]
  simp only [Exact.real_sub]
  rw [Exact.real_div _ (Column.scale_pos _).ne']
  rfl

end columns

/-! ## Rows of a fit -/

section rows

open FeatureVector

variable {s : EstimatorSettings Exact} {counts : List Counts}
  {features : List (FeatureVector Exact)} {n : ℕ} {c : Classifier Exact}

theorem isNumeric_of_fit (hfit : fit s counts features = .ok c) :
    features ≠ [] ∧ IsNumeric features c.names.length := by
  obtain ⟨hne, hlength, hnames, -, -, htrained, hcheck⟩ := fit_eq_ok_iff.mp hfit
  have hfinite := (check_eq_ok hcheck).2.2
  simp only [isFinite, Bool.and_eq_true, List.all_eq_true] at hfinite
  have hmeans : c.means = meansOf features c.names.length := congrArg Classifier.means htrained
  refine ⟨?_, isNumeric_of_isFinite (fun v hv => (commonNames_eq_ok hnames v hv).2) ?_⟩
  · rintro rfl
    exact hne (List.length_eq_zero_iff.mp hlength.symm)
  · rw [← hmeans]
    exact hfinite.1.1

/-- What is trained passes the check if its weights do. -/
theorem check_trained (h : IsNumeric features n) (hne : features ≠ []) {names : List String}
    (hnames : names.length = n) {pooled : Prediction Exact} (hpooled : pooled.check = .ok ())
    (hsized : ∀ w ∈ (trained s counts features names pooled).weights, w.length = n + 1)
    (hfinite : ∀ w ∈ (trained s counts features names pooled).weights,
      ∀ x ∈ w, Scalar.isFinite x = true) :
    (trained s counts features names pooled).check = .ok () := by
  subst hnames
  have hlengths : ∀ v ∈ features, v.values.length = names.length := fun v hv => (h v hv).1
  have hmeans := length_meansOf hlengths
  have hscales := length_scalesOf hlengths hmeans
  have hmean : ∀ x ∈ meansOf features names.length, Scalar.isFinite x = true := by
    intro x hx
    obtain ⟨j, hj, rfl⟩ := List.getElem_of_mem hx
    have hreal := getElem?_meansOf h hne (hmeans ▸ hj)
    rw [Option.some.inj ((List.getElem?_eq_getElem hj).symm.trans hreal)]
    rfl
  have hscale : ∀ x ∈ scalesOf features (meansOf features names.length),
      Scalar.isPositiveFinite x = true := by
    intro x hx
    obtain ⟨j, hj, rfl⟩ := List.getElem_of_mem hx
    have hreal := getElem?_scalesOf h hne (hscales ▸ hj)
    rw [Option.some.inj ((List.getElem?_eq_getElem hj).symm.trans hreal)]
    simpa [isPositiveFinite] using Column.scale_pos _
  have hisSized : (trained s counts features names pooled).isSized = true := by
    simp only [isSized, Bool.and_eq_true, beq_iff_eq, List.all_eq_true]
    refine ⟨⟨⟨hmeans, hscales⟩, ?_⟩, hsized⟩
    simp [trained, nactions]
  have hisFinite : (trained s counts features names pooled).isFinite = true := by
    simp only [isFinite, Bool.and_eq_true, List.all_eq_true]
    exact ⟨⟨hmean, hscale⟩, hfinite⟩
  have hchecked : (trained s counts features names pooled).pooled.check = .ok () := hpooled
  rw [check, hchecked, hisSized, hisFinite]
  rfl

theorem exists_valueOf (v : FeatureVector Exact) (name : String) (mean : ℝ) :
    ∃ y, valueOf v name (.real mean) = .real y := by
  rw [valueOf]
  cases v.get? name with
  | none => exact ⟨mean, rfl⟩
  | some x =>
      cases x with
      | real x => exact ⟨x, rfl⟩
      | posInf => exact ⟨mean, rfl⟩
      | negInf => exact ⟨mean, rfl⟩
      | nan => exact ⟨mean, rfl⟩

/-- The row of a query, value by value. -/
theorem getElem?_rowOf (hfit : fit s counts features = .ok c) {v : FeatureVector Exact} {j : ℕ}
    (hj : j < c.names.length) {y : ℝ}
    (hy : valueOf v c.names[j] (.real (Column.mean (column features j))) = .real y) :
    (c.rowOf v)[j]? = some (.real (Column.standardized (column features j) y)) := by
  obtain ⟨hne, hnumeric⟩ := isNumeric_of_fit hfit
  obtain ⟨htrained, -, -⟩ := fit_eq_ok hfit
  have hmeans : c.means = meansOf features c.names.length := congrArg Classifier.means htrained
  have hscales : c.scales = scalesOf features (meansOf features c.names.length) :=
    congrArg Classifier.scales htrained
  rw [rowOf, hscales, hmeans]
  refine getElem?_standardize_real hnumeric hne hj ?_
  rw [List.getElem?_zipWith, List.getElem?_eq_getElem hj, getElem?_meansOf hnumeric hne hj]
  exact congrArg some hy

theorem length_rowOf_le (k : Classifier Exact) (v : FeatureVector Exact) :
    (k.rowOf v).length ≤ k.names.length := by
  rw [rowOf, standardize, List.length_zipWith, List.length_zipWith, List.length_zipWith]
  omega

end rows

/-! ## Features that never vary -/

section vanishing

/-- Zero, unless the computation has left the numbers. -/
def Vanishes (x : Exact) : Prop := x = .real 0 ∨ x = .nan

theorem Vanishes.add {x y : Exact} (hx : Vanishes x) (hy : Vanishes y) : Vanishes (x + y) := by
  rcases hx with rfl | rfl
  · rcases hy with rfl | rfl
    · exact Or.inl (congrArg Exact.real (add_zero 0))
    · exact Or.inr rfl
  · exact Or.inr rfl

theorem Vanishes.neg {x : Exact} (hx : Vanishes x) : Vanishes (-x) := by
  rcases hx with rfl | rfl
  · exact Or.inl (congrArg Exact.real neg_zero)
  · exact Or.inr rfl

theorem Vanishes.sub {x y : Exact} (hx : Vanishes x) (hy : Vanishes y) : Vanishes (x - y) :=
  hx.add hy.neg

theorem Vanishes.mul (x : Exact) {y : Exact} (hy : Vanishes y) : Vanishes (x * y) := by
  have hspecial : ∀ z : SignType, Exact.infinite (z * y.sign) = .nan := by
    intro z
    have hsign : y.sign = 0 := by
      rcases hy with rfl | rfl
      · exact sign_zero
      · rfl
    rw [hsign, mul_zero]
    rfl
  cases x with
  | real x =>
      rcases hy with rfl | rfl
      · exact Or.inl (congrArg Exact.real (mul_zero x))
      · exact Or.inr (hspecial (SignType.sign x))
  | posInf => exact Or.inr (hspecial 1)
  | negInf => exact Or.inr (hspecial (-1))
  | nan => exact Or.inr (hspecial 0)

theorem Vanishes.div {x : Exact} (hx : Vanishes x) (n : ℕ) : Vanishes (x / ofNat n) := by
  rcases hx with rfl | rfl
  · by_cases hn : (n : ℝ) = 0
    · right
      show (if (n : ℝ) = 0 then Exact.infinite (SignType.sign 0) else _) = _
      rw [if_pos hn, sign_zero]
      rfl
    · left
      rw [Exact.ofNat_eq, Exact.real_div _ hn, zero_div]
  · exact Or.inr rfl

theorem Vanishes.eq_zero {x : Exact} (hx : Vanishes x) (hfinite : Scalar.isFinite x = true) :
    x = .real 0 := by
  rcases hx with rfl | rfl
  · rfl
  · cases hfinite

/-- The weight of feature `j`, behind the bias, vanishes. -/
def IgnoresFeature (j : ℕ) (weights : List Exact) : Prop :=
  ∀ w ∈ weights[j + 1]?, Vanishes w

variable {j : ℕ}

theorem ignoresFeature_replicate (x : Exact) (n : ℕ) :
    IgnoresFeature j (x :: List.replicate n 0) := by
  intro w hw
  obtain rfl := List.eq_of_mem_replicate (List.mem_of_getElem? hw)
  exact Or.inl Exact.zero_eq

/-- A feature that is zero adds nothing to the gradient. -/
theorem ignoresFeature_addGradient (weights : List Exact) {gradient : List Exact}
    {sample : Sample Exact} (hsample : ∀ x ∈ sample.1[j]?, x = .real 0)
    (h : IgnoresFeature j gradient) :
    IgnoresFeature j (addGradient weights gradient sample) := by
  intro w hw
  cases gradient with
  | nil => cases hw
  | cons g gs =>
      rw [addGradient, Option.mem_def, List.getElem?_cons_succ, List.getElem?_zipWith_eq_some] at hw
      obtain ⟨y, x, hy, hx, rfl⟩ := hw
      obtain rfl := hsample x hx
      exact (h y hy).add (Vanishes.mul _ (Or.inl rfl))

theorem ignoresFeature_gradientOf (weights : List Exact) {samples : List (Sample Exact)}
    (hsamples : ∀ x ∈ samples, ∀ y ∈ x.1[j]?, y = .real 0) :
    IgnoresFeature j (gradientOf weights samples) := by
  have hfold : ∀ gradient, IgnoresFeature j gradient →
      IgnoresFeature j (samples.foldl (addGradient weights) gradient) := by
    induction samples with
    | nil => exact fun _ h => h
    | cons x samples ih =>
        rw [List.forall_mem_cons] at hsamples
        exact fun gradient h =>
          ih hsamples.2 _ (ignoresFeature_addGradient weights hsamples.1 h)
  refine hfold _ fun w hw => ?_
  obtain rfl := List.eq_of_mem_replicate (List.mem_of_getElem? hw)
  exact Or.inl Exact.zero_eq

/-- What one step of descent preserves. -/
theorem ignoresFeature_descend (s : EstimatorSettings Exact) {samples : List (Sample Exact)}
    (hsamples : ∀ x ∈ samples, ∀ y ∈ x.1[j]?, y = .real 0) {weights : List Exact}
    (h : IgnoresFeature j weights) : IgnoresFeature j (descend s samples weights) := by
  have hgradient := ignoresFeature_gradientOf weights hsamples
  unfold descend
  split
  · rename_i w ws g gs hweights
    rw [hweights] at hgradient
    intro w' hw'
    rw [Option.mem_def, List.getElem?_cons_succ, List.getElem?_zipWith_eq_some] at hw'
    obtain ⟨y, x, hy, hx, rfl⟩ := hw'
    have hpenalty : Vanishes (s.logisticPenalty * y) := Vanishes.mul _ (h y hy)
    have hshare : Vanishes (x / ofNat samples.length) := (hgradient x hx).div _
    exact (h y hy).sub (Vanishes.mul _ (hshare.add hpenalty))
  · exact h

/-- A feature that is zero in every sample gets no weight. -/
theorem ignoresFeature_fitLogistic (s : EstimatorSettings Exact) {samples : List (Sample Exact)}
    (hsamples : ∀ x ∈ samples, ∀ y ∈ x.1[j]?, y = .real 0) (n : ℕ) (rate : Exact) :
    IgnoresFeature j (fitLogistic s samples n rate) := by
  rw [fitLogistic]
  split
  · exact ignoresFeature_replicate _ n
  · induction s.logisticIterations with
    | zero => exact ignoresFeature_replicate _ n
    | succ i ih => exact ignoresFeature_descend s hsamples ih

/-- A feature that is the same for all tasks has no weight. -/
theorem weight_eq_zero {s : EstimatorSettings Exact} {counts : List Counts}
    {features : List (FeatureVector Exact)} {c : Classifier Exact}
    (hfit : fit s counts features = .ok c) (hj : j < c.names.length)
    (hconstant : Column.IsConstant (FeatureVector.column features j)) {weights : List Exact}
    (hweights : weights ∈ c.weights) : ∀ w ∈ weights.tail[j]?, w = .real 0 := by
  obtain ⟨hne, hnumeric⟩ := isNumeric_of_fit hfit
  obtain ⟨htrained, -, hcheck⟩ := fit_eq_ok hfit
  have hfinite := (check_eq_ok hcheck).2.2
  simp only [isFinite, Bool.and_eq_true, List.all_eq_true] at hfinite
  have hmem := hweights
  rw [congrArg Classifier.weights htrained] at hmem
  obtain ⟨a, -, rfl⟩ := List.mem_map.mp hmem
  intro w hw
  rw [Option.mem_def, List.getElem?_tail] at hw
  refine (ignoresFeature_fitLogistic s (fun x hx y hy => ?_) _ _ w hw).eq_zero
    (hfinite.2 _ hweights w (List.mem_of_getElem? hw))
  obtain ⟨⟨task, row⟩, hrow, rfl⟩ := List.mem_map.mp hx
  obtain ⟨v, hv, rfl⟩ := List.mem_map.mp (List.of_mem_zip (List.mem_filter.mp hrow).1).2
  have hzero := getElem?_standardize_real hnumeric hne hj (hnumeric.getElem?_values hv hj)
  rw [hconstant.standardized_eq_zero _ (List.mem_map_of_mem hv)] at hzero
  exact Option.some.inj (hy.symm.trans hzero)

end vanishing

end Classifier

end SolverPortfolio

import Mathlib.Analysis.SpecialFunctions.Sigmoid
import SolverPortfolio.Classifier
import SolverPortfolio.Proofs.LogSpace
import SolverPortfolio.Proofs.Portfolio.Sizes
import SolverPortfolio.Proofs.Simplex

/-!
# Features in training and in prediction

A fit reads the values of a training task by their places, a prediction looks them up by their
names. What is looked up is the first value of the name (`FeatureVector.get?_eq_lookup`). As long
as no trained name is given two values (`FeatureVector.IsSingleValued`), that is the value of the
name, wherever it stands (`lookup_eq_some_iff`): a training task is then predicted from the row it
was trained on (`Classifier.predict_of_mem_features`), and neither the order of the features nor
names that were not trained matter.

Where a name has two values the rows part, and without features there is no row to look at: the
prediction is the pooled one even if a bias was fitted. Four tasks and one step of descent, worked
out in exact arithmetic, show both (`Classifier.predict_misses_rows`).
-/

namespace SolverPortfolio

open Scalar

/-! ## Lookups -/

/-- If a name has one value at most, it has those it is paired with. -/
theorem lookup_eq_some_iff {β : Type} {pairs : List (String × β)} {name : String}
    (h : ∀ p ∈ pairs, ∀ q ∈ pairs, p.1 = name → q.1 = name → p.2 = q.2) {x : β} :
    pairs.lookup name = some x ↔ (name, x) ∈ pairs := by
  refine ⟨mem_of_lookup, fun hmem => ?_⟩
  cases hlookup : pairs.lookup name with
  | none =>
      have hne := List.lookup_eq_none_iff.mp hlookup (name, x) hmem
      simp at hne
  | some y =>
      have heq : y = x := h (name, y) (mem_of_lookup hlookup) (name, x) hmem rfl rfl
      rw [heq]

theorem lookup_filter {β : Type} {name : String} (pairs : List (String × β))
    (keep : String → Bool) (h : keep name = true) :
    (pairs.filter fun p => keep p.1).lookup name = pairs.lookup name := by
  induction pairs with
  | nil => rfl
  | cons p pairs ih =>
      rw [List.filter_cons, List.lookup_cons]
      by_cases hname : name = p.1
      · rw [if_pos (hname ▸ h), List.lookup_cons, ih]
      · split
        · rw [List.lookup_cons, ih]
        · rw [ih, beq_false_of_ne hname]

theorem LogSpace.isDistribution_of_isSimplex {row : List Exact} (h : IsSimplex row) :
    Prediction.isDistribution row = true := by
  have hslack : ¬(Prediction.rowTolerance : Exact) < Scalar.abs (Scalar.sum row - 1) := by
    have htolerance : (Prediction.rowTolerance : Exact) = .real (1 / 10 ^ 6) :=
      Exact.real_decimal_one (by norm_num)
    rw [htolerance, h.sum, Exact.one_eq, Exact.real_sub, sub_self, Exact.abs_real, abs_zero,
      Exact.real_lt]
    norm_num
  obtain ⟨xs, rfl, -, -⟩ := h.exists_real
  rw [Prediction.isDistribution, decide_eq_false hslack, Bool.not_false, Bool.and_true,
    List.all_eq_true]
  intro x hx
  obtain ⟨r, -, rfl⟩ := List.mem_map.mp hx
  exact Bool.and_eq_true_iff.mpr ⟨rfl, decide_eq_true (h.nonneg _ hx)⟩

namespace FeatureVector

variable {α : Type}

/-- The names with the values in their places. -/
def pairs (v : FeatureVector α) : List (String × α) := v.names.zip v.values

/-- None of these names is given two values. -/
def IsSingleValued (names : List String) (v : FeatureVector α) : Prop :=
  ∀ p ∈ v.pairs, ∀ q ∈ v.pairs, p.1 ∈ names → p.1 = q.1 → p.2 = q.2

/-- The value of a name is the first one it is paired with. -/
theorem get?_eq_lookup [Scalar α] (v : FeatureVector α) (name : String) :
    v.get? name = v.pairs.lookup name := by
  obtain ⟨names, values⟩ := v
  simp only [get?, pairs]
  induction names generalizing values with
  | nil => rfl
  | cons n names ih =>
      cases values with
      | nil =>
          rw [List.zip_nil_right]
          cases (n :: names).idxOf? name <;> rfl
      | cons x values =>
          rw [List.zip_cons_cons, List.lookup_cons, List.idxOf?_cons]
          by_cases hname : name = n
          · simp [hname]
          · rw [beq_false_of_ne hname, beq_false_of_ne (Ne.symm hname), ← ih]
            cases names.idxOf? name <;> simp

theorem isSingleValued_of_nodup {v : FeatureVector α} (h : v.names.Nodup) (names : List String) :
    v.IsSingleValued names := by
  rintro ⟨n, x⟩ hp ⟨m, y⟩ hq - heq
  obtain ⟨i, hi, hx⟩ := List.getElem_of_mem hp
  obtain ⟨j, hj, hy⟩ := List.getElem_of_mem hq
  simp only [pairs, List.getElem_zip, Prod.mk.injEq] at hx hy
  obtain rfl : n = m := heq
  obtain rfl : i = j := (h.getElem_inj_iff).mp (hx.1.trans hy.1.symm)
  exact hx.2.symm.trans hy.2

variable [Scalar α] {names : List String} {v v' : FeatureVector α} {name : String}

theorem get?_eq_some_iff (h : v.IsSingleValued names) (hname : name ∈ names) {x : α} :
    v.get? name = some x ↔ (name, x) ∈ v.pairs := by
  rw [get?_eq_lookup]
  refine lookup_eq_some_iff fun p hp q hq hpname hqname => ?_
  exact h p hp q hq (hpname ▸ hname) (hpname.trans hqname.symm)

/-- The values of single-valued names do not depend on the order of the features. -/
theorem get?_perm (h : v.IsSingleValued names) (hperm : v.pairs.Perm v'.pairs)
    (hname : name ∈ names) : v.get? name = v'.get? name := by
  have h' : v'.IsSingleValued names := by
    intro p hp q hq
    exact h p (hperm.mem_iff.mpr hp) q (hperm.mem_iff.mpr hq)
  refine Option.ext fun x => ?_
  rw [get?_eq_some_iff h hname, get?_eq_some_iff h' hname, hperm.mem_iff]

end FeatureVector

namespace Classifier

variable {α : Type} [Analytic α]

/-! ## Rows -/

section rows

variable {names : List String} {means : List α} {v : FeatureVector α}

/-- Looked up by the names it goes by, a task has the values it has. -/
theorem zipWith_valueOf (hnames : v.names = names) (hvalues : v.values.length = names.length)
    (hmeans : means.length = names.length) (hsingle : v.IsSingleValued names)
    (hfinite : ∀ x ∈ v.values, Scalar.isFinite x = true) :
    List.zipWith (valueOf v) names means = v.values := by
  refine List.ext_getElem (by simp [hvalues, hmeans]) fun i hi hi' => ?_
  have hname : i < names.length := hvalues ▸ hi'
  have hpair : (names[i], v.values[i]) ∈ v.pairs := by
    subst hnames
    have hzip : i < v.pairs.length := by
      rw [FeatureVector.pairs, List.length_zip]
      omega
    have hget : v.pairs[i] = (v.names[i], v.values[i]) := List.getElem_zip
    exact hget ▸ List.getElem_mem hzip
  have hlookup := (FeatureVector.get?_eq_some_iff hsingle (List.getElem_mem hname)).mpr hpair
  rw [List.getElem_zipWith, valueOf, hlookup]
  simp [hfinite _ (List.getElem_mem hi')]

/-- A row has the values in units of the scales, measured from the means. -/
theorem getElem?_standardize {scales values : List α} {j : ℕ} (hmeans : j < means.length)
    (hscales : j < scales.length) (hvalues : j < values.length) :
    (standardize means scales values)[j]? =
      some ((values.getD j 0 - means.getD j 0) / scales.getD j 0) := by
  simp [standardize, hmeans, hscales, hvalues]

theorem rowOf_congr {k : Classifier α} {v v' : FeatureVector α}
    (h : ∀ name ∈ k.names, v.get? name = v'.get? name) : k.rowOf v = k.rowOf v' := by
  have hvalues : ∀ (ns : List String) (ms : List α), (∀ n ∈ ns, n ∈ k.names) →
      List.zipWith (valueOf v) ns ms = List.zipWith (valueOf v') ns ms := by
    intro ns
    induction ns with
    | nil => exact fun _ _ => rfl
    | cons n ns ih =>
        rintro (_ | ⟨m, ms⟩) hns
        · rfl
        · rw [List.forall_mem_cons] at hns
          rw [List.zipWith_cons_cons, List.zipWith_cons_cons, ih ms hns.2, valueOf, valueOf,
            h n hns.1]
  rw [rowOf, rowOf, hvalues k.names k.means fun _ => id]

theorem predict_of_features (k : Classifier α) {v : FeatureVector α} (h : v.isEmpty = false) :
    k.predict (some v) = k.predictRow (k.rowOf v) := by
  rw [predict, h, if_neg Bool.false_ne_true]

/-- A prediction from features is one from the values of the trained names. -/
theorem predict_congr {k : Classifier α} {v v' : FeatureVector α} (hv : v.isEmpty = false)
    (hv' : v'.isEmpty = false) (h : ∀ name ∈ k.names, v.get? name = v'.get? name) :
    k.predict (some v) = k.predict (some v') := by
  rw [k.predict_of_features hv, k.predict_of_features hv', rowOf_congr h]

end rows

/-! ## Fits -/

/-- What is fitted for the common names of the tasks and their pooled prediction. -/
def trained (s : EstimatorSettings α) (counts : List Counts) (features : List (FeatureVector α))
    (names : List String) (pooled : Prediction α) : Classifier α :=
  let means := meansOf features names.length
  let scales := scalesOf features means
  let rows := features.map fun v => standardize means scales v.values
  { names := names
    means := means
    scales := scales
    weights := (List.range pooled.nactions).map fun a =>
      fitLogistic s (samplesOf counts rows a) names.length (pooled.successRate a)
    pooled := pooled }

variable {s : EstimatorSettings α} {counts : List Counts} {features : List (FeatureVector α)}
  {c : Classifier α}

omit [Analytic α] in
theorem commonNames_eq_ok {names : List String} (h : commonNames features = .ok names) :
    ∀ v ∈ features, v.names = names ∧ v.values.length = names.length := by
  simp only [commonNames] at h
  split at h
  · rename_i hall
    obtain rfl := Except.ok.inj h
    intro v hv
    simpa using List.all_eq_true.mp hall v hv
  · cases h

theorem fit_eq {names : List String} {pooled : Prediction α} (hne : counts ≠ [])
    (hlength : features.length = counts.length) (hnames : commonNames features = .ok names)
    (hpooled : Prediction.pooled counts s.concentration = .ok pooled)
    (htotals : ∀ c ∈ counts, c.hasTotals pooled.nactions = true)
    (hcheck : (trained s counts features names pooled).check = .ok ()) :
    fit s counts features = .ok (trained s counts features names pooled) := by
  have hempty : ¬counts.isEmpty = true := by simpa using hne
  have hsame : ¬(features.length != counts.length) = true := by simp [hlength]
  unfold fit
  simp only [if_neg hempty, if_neg hsame]
  rw [hnames]
  show (Prediction.pooled counts s.concentration >>= _) = _
  rw [hpooled]
  show (Decision.provided (counts.all fun c => c.hasTotals pooled.nactions) >>= fun _ =>
    (trained s counts features names pooled).check >>= fun _ => _) = _
  rw [List.all_eq_true.mpr htotals]
  show ((trained s counts features names pooled).check >>= fun _ => _) = _
  rw [hcheck]
  rfl

/-- A fit is what is trained, if the rows add up and it passes the check. -/
theorem fit_eq_ok_iff : fit s counts features = .ok c ↔
    counts ≠ [] ∧ features.length = counts.length ∧ commonNames features = .ok c.names ∧
      Prediction.pooled counts s.concentration = .ok c.pooled ∧
      (∀ x ∈ counts, x.hasTotals c.pooled.nactions = true) ∧
      c = trained s counts features c.names c.pooled ∧ c.check = .ok () := by
  constructor
  · intro h
    unfold fit at h
    by_cases hempty : counts.isEmpty = true
    · simp only [if_pos hempty] at h
      cases h
    · by_cases hlength : (features.length != counts.length) = true
      · simp only [if_neg hempty, if_pos hlength] at h
        cases h
      · simp only [if_neg hempty, if_neg hlength] at h
        obtain ⟨names, hnames, h⟩ := Decision.bind_eq_ok h
        obtain ⟨pooled, hpooled, h⟩ := Decision.bind_eq_ok h
        obtain ⟨_, htotals, h⟩ := Decision.bind_eq_ok h
        obtain ⟨_, hcheck, h⟩ := Decision.bind_eq_ok h
        obtain rfl := Except.ok.inj h
        exact ⟨by simpa using hempty, by simpa using hlength, hnames, hpooled,
          List.all_eq_true.mp (Decision.of_provided htotals), rfl, hcheck⟩
  · rintro ⟨hne, hlength, hnames, hpooled, htotals, htrained, hcheck⟩
    rw [htrained] at hcheck ⊢
    exact fit_eq hne hlength hnames hpooled htotals hcheck

theorem fit_eq_ok (h : fit s counts features = .ok c) :
    c = trained s counts features c.names c.pooled ∧
      (∀ v ∈ features, v.names = c.names ∧ v.values.length = c.names.length) ∧
      c.check = .ok () := by
  obtain ⟨-, -, hnames, -, -, htrained, hcheck⟩ := fit_eq_ok_iff.mp h
  exact ⟨htrained, commonNames_eq_ok hnames, hcheck⟩

theorem isSized_of_fit (h : fit s counts features = .ok c) :
    c.means.length = c.names.length ∧ c.scales.length = c.names.length := by
  obtain ⟨-, -, hcheck⟩ := fit_eq_ok h
  have hsized := (check_eq_ok hcheck).2.1
  simp only [isSized, Bool.and_eq_true, beq_iff_eq] at hsized
  exact hsized.1.1

/-- A task with features, none of which has two values, is predicted from the row it was trained
on. -/
theorem predict_of_mem_features (hfit : fit s counts features = .ok c)
    (hfinite : ∀ v ∈ features, ∀ x ∈ v.values, Scalar.isFinite x = true) {v : FeatureVector α}
    (hv : v ∈ features) (hsingle : v.IsSingleValued c.names) (hsome : v.isEmpty = false) :
    c.predict (some v) = c.predictRow (standardize c.means c.scales v.values) := by
  obtain ⟨-, hcommon, -⟩ := fit_eq_ok hfit
  obtain ⟨hnames, hvalues⟩ := hcommon v hv
  rw [c.predict_of_features hsome, rowOf,
    zipWith_valueOf hnames hvalues (isSized_of_fit hfit).1 hsingle (hfinite v hv)]

/-- **Training and prediction see the same features.** Let a fit of tasks with finite values be
accepted. Each action's logistic model is fitted to the rows of the tasks, their values measured
from the means in units of the scales; and for a task with features, none of which has two values,
the models are evaluated on that very row. So they are for every one if names are distinct, and a
task without features gets the pooled prediction. Whatever the classifier, a prediction from
features depends on the values of the trained names only: the order of the features does not
matter if none of these names has two values, and neither do names that were not trained. -/
theorem predict_reads_features (hfit : fit s counts features = .ok c)
    (hfinite : ∀ v ∈ features, ∀ x ∈ v.values, Scalar.isFinite x = true) :
    (c.means = meansOf features c.names.length ∧ c.scales = scalesOf features c.means ∧
        c.weights = (List.range c.nactions).map fun a =>
          fitLogistic s (samplesOf counts (features.map fun v =>
            standardize c.means c.scales v.values) a) c.names.length (c.pooled.successRate a)) ∧
      (∀ v ∈ features,
        (∀ j < c.names.length, (standardize c.means c.scales v.values)[j]? =
          some ((v.values.getD j 0 - c.means.getD j 0) / c.scales.getD j 0)) ∧
        (v.isEmpty = false → v.IsSingleValued c.names →
          c.predict (some v) = .ofScores c.nactions c.noutcomes
            (c.weights.zipIdx.map fun (weights, a) => actionScores (c.pooled.row a)
              (sigmoid (linear weights (standardize c.means c.scales v.values))))) ∧
        (c.names.Nodup → v.IsSingleValued c.names) ∧
        (v.isEmpty = true → c.predict (some v) = c.pooled)) ∧
      ∀ (k : Classifier α) (v v' : FeatureVector α), v.isEmpty = false → v'.isEmpty = false →
        ((∀ name ∈ k.names, v.get? name = v'.get? name) →
          k.predict (some v) = k.predict (some v')) ∧
        (v.IsSingleValued k.names → v.pairs.Perm v'.pairs →
          k.predict (some v) = k.predict (some v')) ∧
        ((v.pairs.filter fun p => k.names.contains p.1) =
            (v'.pairs.filter fun p => k.names.contains p.1) →
          k.predict (some v) = k.predict (some v')) := by
  obtain ⟨htrained, hcommon, -⟩ := fit_eq_ok hfit
  refine ⟨?_, fun v hv => ⟨fun j hj => ?_, fun hsome hsingle => ?_, fun hnodup => ?_,
    fun hnone => ?_⟩, fun k v v' hv hv' => ⟨predict_congr hv hv', fun hsingle hperm => ?_,
      fun hfilter => ?_⟩⟩
  · generalize c.names = names, c.pooled = pooled at htrained
    subst htrained
    exact ⟨rfl, rfl, rfl⟩
  · obtain ⟨hmeans, hscales⟩ := isSized_of_fit hfit
    have hvalues := (hcommon v hv).2
    exact getElem?_standardize (hmeans ▸ hj) (hscales ▸ hj) (hvalues ▸ hj)
  · exact predict_of_mem_features hfit hfinite hv hsingle hsome
  · exact FeatureVector.isSingleValued_of_nodup ((hcommon v hv).1 ▸ hnodup) c.names
  · rw [predict, hnone, if_pos rfl]
  · exact predict_congr hv hv' fun name hname => FeatureVector.get?_perm hsingle hperm hname
  · refine predict_congr hv hv' fun name hname => ?_
    have hkeep : k.names.contains name = true := List.contains_iff_mem.mpr hname
    rw [FeatureVector.get?_eq_lookup, FeatureVector.get?_eq_lookup,
      ← lookup_filter v.pairs _ hkeep, hfilter, lookup_filter v'.pairs _ hkeep]

/-! ## One step of descent -/

theorem sigmoid_real (x : ℝ) : sigmoid (Exact.real x) = .real (Real.sigmoid x) := by
  have hexp : ∀ y : ℝ, Analytic.exp (Exact.real y) = .real (Real.exp y) := fun _ => rfl
  have hpos : ∀ y : ℝ, 1 + Real.exp y ≠ 0 := fun y => by positivity
  rw [sigmoid]
  split
  · rw [Exact.real_neg, hexp, Exact.one_eq, Exact.real_add, Exact.real_div _ (hpos _), one_div,
      Real.sigmoid_def]
  · rw [hexp, Exact.one_eq, Exact.real_add, Exact.real_div _ (hpos _), Real.sigmoid_def,
      Real.exp_neg]
    congr 1
    field_simp
    ring

/-- One action that solved and missed as often. -/
noncomputable def evenly : Prediction Exact := ⟨1, 2, LogSpace.uniform 2⟩

theorem evenly_eq : evenly = ⟨1, 2, [.real 2⁻¹, .real 2⁻¹]⟩ := by
  rw [evenly, LogSpace.uniform_eq two_pos]
  simp [List.replicate]

theorem predictRow_evenly {k : Classifier Exact} {weights row : List Exact} {x : ℝ}
    (hpooled : k.pooled = evenly) (hweights : k.weights = [weights])
    (hlinear : linear weights row = .real x) : k.predictRow row =
      ⟨1, 2, [.real (1 - Real.sigmoid x), .real (Real.sigmoid x)]⟩ := by
  have hrow : evenly.row 0 = [.real 2⁻¹, .real 2⁻¹] := by
    rw [evenly_eq]
    rfl
  have hmass : solvedMass [Exact.real 2⁻¹, .real 2⁻¹] = .real 2⁻¹ := by
    show Scalar.sum [Exact.real 2⁻¹] = _
    simp [Scalar.sum]
  have hscores : actionScores [Exact.real 2⁻¹, .real 2⁻¹] (.real (Real.sigmoid x)) =
      [1 - Real.sigmoid x, Real.sigmoid x].map Exact.real := by
    simp [actionScores, hmass, splitScore, OutcomeKind.index, List.zipIdx, Exact.real_div]
  have hsum : [1 - Real.sigmoid x, Real.sigmoid x].sum = 1 := by simp
  have hscaled : LogSpace.normalizeScores ([1 - Real.sigmoid x, Real.sigmoid x].map Exact.real) =
      [.real (1 - Real.sigmoid x), .real (Real.sigmoid x)] := by
    rw [LogSpace.normalizeScores_map_real (by rw [hsum]; exact one_pos), hsum]
    simp
  simp only [predictRow, nactions, noutcomes, hweights, hpooled, List.zipIdx_singleton,
    List.map_singleton, hlinear, sigmoid_real, hrow, hscores, Prediction.ofScores, hscaled]
  rfl

/-- One step of gradient descent. -/
noncomputable def oneStep : EstimatorSettings Exact :=
  { EstimatorSettings.default with
    concentration := .real 1, logisticIterations := 1, logisticStep := .real 1,
    logisticPenalty := .real 0 }

/-- Four tasks, one of which was solved. -/
def fourTasks : List Counts := [⟨1, 2, [0, 3]⟩, ⟨1, 2, [1, 0]⟩, ⟨1, 2, [1, 0]⟩, ⟨1, 2, [1, 0]⟩]

theorem pooled_fourTasks : Prediction.pooled fourTasks oneStep.concentration = .ok evenly := by
  have hshape : Prediction.commonShape (α := Exact) fourTasks = .ok (1, 2) := rfl
  have hscore : ∀ d, d = 0 ∨ d = 1 →
      Prediction.pooledScore fourTasks oneStep.concentration 0 d = .real 4 := by
    rintro d (rfl | rfl)
    · have hsum : (1 : ℝ) + 1 + 1 + 1 = 4 := by norm_num
      simp [Prediction.pooledScore, fourTasks, oneStep, Counts.get, Counts.place, ofCount, hsum]
    · have hsum : (1 : ℝ) + 3 = 4 := by norm_num
      simp [Prediction.pooledScore, fourTasks, oneStep, Counts.get, Counts.place, ofCount, hsum]
  have hscaled : LogSpace.normalizeScores ([4, 4].map Exact.real) = [.real 2⁻¹, .real 2⁻¹] := by
    rw [LogSpace.normalizeScores_map_real (by norm_num)]
    norm_num
  rw [Prediction.pooled, hshape]
  show Except.ok (Prediction.ofScores 1 2 [[Prediction.pooledScore _ _ 0 0,
    Prediction.pooledScore _ _ 0 1]]) = _
  rw [hscore 0 (Or.inl rfl), hscore 1 (Or.inr rfl), Prediction.ofScores, List.map_singleton,
    show [Exact.real 4, .real 4] = [4, 4].map Exact.real from rfl, hscaled, evenly_eq]
  rfl

theorem scaleOf_zero : scaleOf (Exact.real 0) = .real 1 := by
  have hsqrt : Analytic.sqrt (Exact.real 0) = .real 0 := by
    show Exact.sqrt (.real 0) = _
    simp [Exact.sqrt]
  have hsmall : ¬(1e-12 : Exact) < .real 0 := by
    rw [Exact.real_decimal_one (by norm_num), Exact.real_lt]
    norm_num
  rw [scaleOf, hsqrt, if_neg hsmall, Exact.one_eq]

theorem scaleOf_one : scaleOf (Exact.real 1) = .real 1 := by
  have hsqrt : Analytic.sqrt (Exact.real 1) = .real 1 := by
    show Exact.sqrt (.real 1) = _
    simp [Exact.sqrt]
  rw [scaleOf, hsqrt, Exact.one_eq, ite_self]

theorem clamp_real {x low high : ℝ} (hlow : low ≤ x) (hhigh : x ≤ high) :
    Scalar.clamp (Exact.real x) (.real low) (.real high) = .real x := by
  simp [Scalar.clamp, not_lt.mpr hlow, not_lt.mpr hhigh]

theorem logit_evenly : logit (evenly.successRate 0) = .real 0 := by
  have hfloor : (probabilityFloor : Exact) = .real (1 / 10 ^ 6) :=
    Exact.real_decimal_one (by norm_num)
  have hrate : evenly.successRate 0 = .real 2⁻¹ := by
    have hget : evenly.get 0 .unsolved = .real 2⁻¹ := by
      rw [evenly_eq]
      rfl
    have hhalf : (1 : ℝ) - 2⁻¹ = 2⁻¹ := by norm_num
    rw [Prediction.successRate, hget, Exact.one_eq, Exact.zero_eq, Exact.real_sub, hhalf,
      clamp_real (by norm_num) (by norm_num)]
  have hodds : (2 : ℝ)⁻¹ / (1 - 2⁻¹) = 1 := by norm_num
  simp only [logit, hrate, hfloor, Exact.one_eq, Exact.real_sub]
  rw [clamp_real (by norm_num) (by norm_num), Exact.real_sub, Exact.real_div _ (by norm_num), hodds]
  exact Exact.log_one

theorem samplesOf_fourTasks (r₁ r₂ r₃ r₄ : List Exact) : samplesOf fourTasks [r₁, r₂, r₃, r₄] 0 =
    [(r₁, .real 1), (r₂, .real 0), (r₃, .real 0), (r₄, .real 0)] := by
  have hsolved : label (α := Exact) ⟨1, 2, [0, 3]⟩ 0 = .real 1 := by
    have htotal : (⟨1, 2, [0, 3]⟩ : Counts).total 0 = 3 := rfl
    rw [label, htotal]
    simp [Counts.get, Counts.place, ofCount, Exact.real_div, OutcomeKind.index]
  have hmissed : label (α := Exact) ⟨1, 2, [1, 0]⟩ 0 = .real 0 := by
    have htotal : (⟨1, 2, [1, 0]⟩ : Counts).total 0 = 1 := rfl
    rw [label, htotal]
    simp [Counts.get, Counts.place, ofCount, Exact.real_div, OutcomeKind.index]
  show [(r₁, label ⟨1, 2, [0, 3]⟩ 0), (r₂, label ⟨1, 2, [1, 0]⟩ 0), (r₃, label ⟨1, 2, [1, 0]⟩ 0),
    (r₄, label ⟨1, 2, [1, 0]⟩ 0)] = _
  rw [hsolved, hmissed]

/-- Two features of which the first never varies; they may go by one name. -/
def task (second : String) (x : ℝ) : FeatureVector Exact := ⟨["x", second], [.real 0, .real x]⟩

def fourFeatures (second : String) : List (FeatureVector Exact) :=
  [task second 1, task second (-1), task second 1, task second (-1)]

/-- What one step makes of the four tasks. -/
noncomputable def stepped (second : String) : Classifier Exact where
  names := ["x", second]
  means := [.real 0, .real 0]
  scales := [.real 1, .real 1]
  weights := [[.real (-1 / 4), .real 0, .real (1 / 4)]]
  pooled := evenly

theorem meansOf_fourFeatures (second : String) :
    meansOf (fourFeatures second) 2 = [.real 0, .real 0] := by
  have hsum : (4 : ℝ)⁻¹ + -1 / 4 + 4⁻¹ + -1 / 4 = 0 := by norm_num
  simp [meansOf, fourFeatures, task, Exact.real_div, List.replicate, hsum]

theorem scalesOf_fourFeatures (second : String) :
    scalesOf (fourFeatures second) [.real 0, .real 0] = [.real 1, .real 1] := by
  have hsum : (4 : ℝ)⁻¹ + 4⁻¹ + 4⁻¹ + 4⁻¹ = 1 := by norm_num
  simp [scalesOf, variancesOf, fourFeatures, task, Exact.real_div, List.replicate, square, hsum,
    scaleOf_zero, scaleOf_one]

theorem trained_fourFeatures (second : String) :
    trained oneStep fourTasks (fourFeatures second) ["x", second] evenly = stepped second := by
  have hrows : (fourFeatures second).map (fun v =>
      standardize [.real 0, .real 0] [.real 1, .real 1] v.values) =
        [[.real 0, .real 1], [.real 0, .real (-1)], [.real 0, .real 1], [.real 0, .real (-1)]] := by
    simp [fourFeatures, task, standardize, Exact.real_div]
  have hweights : fitLogistic oneStep [([.real 0, .real 1], .real 1),
      ([.real 0, .real (-1)], .real 0), ([.real 0, .real 1], .real 0),
      ([.real 0, .real (-1)], .real 0)] 2 (evenly.successRate 0) =
        [.real (-1 / 4), .real 0, .real (1 / 4)] := by
    -- Every rate starts at one half, so that the errors are -1/2 once and 1/2 three times.
    have hbias : -(((2 : ℝ)⁻¹ - 1 + 2⁻¹ + 2⁻¹ + 2⁻¹) / 4) = -1 / 4 := by norm_num
    have hweight : -(((2 : ℝ)⁻¹ - 1 + -2⁻¹) / 4) = 4⁻¹ := by norm_num
    simp [fitLogistic, logit_evenly, oneStep, Nat.repeat, descend, gradientOf, addGradient, linear,
      Scalar.sum, sigmoid_real, List.replicate, stepWeight, Exact.real_div, hbias, hweight]
  have hnames : (["x", second] : List String).length = 2 := rfl
  have hactions : List.range evenly.nactions = [0] := rfl
  simp only [trained, hnames, meansOf_fourFeatures, scalesOf_fourFeatures, hrows, hactions,
    List.map_singleton, samplesOf_fourTasks, hweights]
  rfl

theorem trained_featureless :
    trained oneStep fourTasks (List.replicate 4 .empty) [] evenly =
      ⟨[], [], [], [[.real (-1 / 4)]], evenly⟩ := by
  have hmeans : meansOf (List.replicate 4 (.empty : FeatureVector Exact)) 0 = [] := rfl
  have hscales : scalesOf (List.replicate 4 (.empty : FeatureVector Exact)) [] = [] := rfl
  have hrows : (List.replicate 4 (.empty : FeatureVector Exact)).map (fun v =>
      standardize [] [] v.values) = [[], [], [], []] := rfl
  have hweights : fitLogistic oneStep [([], .real 1), ([], .real 0), ([], .real 0), ([], .real 0)] 0
      (evenly.successRate 0) = [.real (-1 / 4)] := by
    have hbias : -(((2 : ℝ)⁻¹ - 1 + 2⁻¹ + 2⁻¹ + 2⁻¹) / 4) = -1 / 4 := by norm_num
    simp [fitLogistic, logit_evenly, oneStep, Nat.repeat, descend, gradientOf, addGradient, linear,
      Scalar.sum, sigmoid_real, stepWeight, Exact.real_div, hbias]
  have hactions : List.range evenly.nactions = [0] := rfl
  simp only [trained, List.length_nil, hmeans, hscales, hrows, hactions, List.map_singleton,
    samplesOf_fourTasks, hweights]

theorem evenly_check : evenly.check = .ok () := by
  have hrow : evenly.row 0 = LogSpace.uniform 2 := rfl
  have hfind : (List.range evenly.nactions).find?
      (fun a => !Prediction.isDistribution (evenly.row a)) = none := by
    rw [List.find?_eq_none]
    intro a ha
    obtain rfl : a = 0 := Nat.lt_one_iff.mp (List.mem_range.mp ha)
    rw [hrow, LogSpace.isDistribution_of_isSimplex (LogSpace.isSimplex_uniform two_pos)]
    exact Bool.false_ne_true
  have hsized : ¬(evenly.noutcomes = 0 ||
      evenly.probabilities.length != evenly.nactions * evenly.noutcomes) = true :=
    Bool.false_ne_true
  rw [Prediction.check, if_neg hsized, hfind]

theorem fit_fourFeatures (second : String) :
    fit oneStep fourTasks (fourFeatures second) = .ok (stepped second) := by
  have hcheck : (stepped second).check = .ok () := by
    have hsized : (stepped second).isSized = true := rfl
    have hfinite : (stepped second).isFinite = true := by
      simp [stepped, isFinite, isPositiveFinite]
    have hpooled : (stepped second).pooled.check = .ok () := evenly_check
    rw [check, hpooled, hsized, hfinite]
    rfl
  have hnames : commonNames (fourFeatures second) = .ok ["x", second] := by
    simp [commonNames, fourFeatures, task]
  rw [← trained_fourFeatures] at hcheck ⊢
  exact fit_eq (List.cons_ne_nil _ _) rfl hnames pooled_fourTasks (by decide) hcheck

theorem fit_featureless : fit oneStep fourTasks (List.replicate 4 .empty) =
    .ok ⟨[], [], [], [[.real (-1 / 4)]], evenly⟩ := by
  have hcheck : (⟨[], [], [], [[.real (-1 / 4)]], evenly⟩ : Classifier Exact).check = .ok () := by
    show (evenly.check >>= fun _ => _) = _
    rw [evenly_check]
    rfl
  rw [← trained_featureless] at hcheck ⊢
  exact fit_eq (List.cons_ne_nil _ _) rfl rfl pooled_fourTasks (by decide) hcheck

theorem predictRow_ne {k k' : Classifier Exact} {weights row row' : List Exact} {x y : ℝ}
    (hpooled : k.pooled = evenly) (hpooled' : k'.pooled = evenly) (hweights : k.weights = [weights])
    (hweights' : k'.weights = [weights]) (hx : linear weights row = .real x)
    (hy : linear weights row' = .real y) (hne : x ≠ y) : k.predictRow row ≠ k'.predictRow row' := by
  rw [predictRow_evenly hpooled hweights hx, predictRow_evenly hpooled' hweights' hy]
  intro heq
  simp only [Prediction.mk.injEq, List.cons.injEq, Exact.real.injEq, true_and, and_true] at heq
  exact hne (Real.sigmoid_injective heq.2)

/-- The two features go by names of their own. -/
theorem predict_reads_features_distinct :
    fit oneStep fourTasks (fourFeatures "y") = .ok (stepped "y") ∧
      (∀ v ∈ fourFeatures "y", ∀ x ∈ v.values, Scalar.isFinite x = true) ∧
      (stepped "y").predict (some (task "y" 1)) =
        (stepped "y").predictRow
          (standardize (stepped "y").means (stepped "y").scales (task "y" 1).values) := by
  have hfinite : ∀ v ∈ fourFeatures "y", ∀ x ∈ v.values, Scalar.isFinite x = true := by
    simp [fourFeatures, task]
  have hmem : task "y" 1 ∈ fourFeatures "y" := List.mem_cons_self
  have hnodup : (stepped "y").names.Nodup := by
    show ["x", "y"].Nodup
    decide
  obtain ⟨-, hrow, hsingle, -⟩ :=
    (predict_reads_features (fit_fourFeatures "y") hfinite).2.1 (task "y" 1) hmem
  exact ⟨fit_fourFeatures "y", hfinite, hrow rfl (hsingle hnodup)⟩

/-- Two features of one name are trained by their places and predicted by the first of them, so
that their order matters; and the bias of a classifier without features is not asked for. -/
theorem predict_misses_rows :
    ((∀ v ∈ fourFeatures "x", ∀ x ∈ v.values, Scalar.isFinite x = true) ∧
      ∃ c, fit oneStep fourTasks (fourFeatures "x") = .ok c ∧
        c.predict (some (task "x" 1)) ≠
          c.predictRow (standardize c.means c.scales (task "x" 1).values) ∧
        c.predict (some (task "x" 1)) ≠ c.predict (some ⟨["x", "x"], [.real 1, .real 0]⟩)) ∧
      ∃ c, fit oneStep fourTasks (List.replicate 4 .empty) = .ok c ∧
        c.predict (some .empty) ≠ c.predictRow (standardize c.means c.scales []) := by
  have hlinear : ∀ x y : ℝ, linear [.real (-1 / 4), .real 0, .real (1 / 4)] [.real x, .real y] =
      Exact.real (-1 / 4 + 1 / 4 * y) := by
    intro x y
    simp [linear, Scalar.sum]
  have hrow : ∀ x y : ℝ, (stepped "x").rowOf ⟨["x", "x"], [.real x, .real y]⟩ =
      [.real x, .real x] := by
    intro x y
    simp [rowOf, stepped, standardize, valueOf, FeatureVector.get?, List.idxOf?_cons,
      Exact.real_div]
  have hplaced : standardize (stepped "x").means (stepped "x").scales (task "x" 1).values =
      [.real 0, .real 1] := by
    simp [stepped, standardize, task, Exact.real_div]
  refine ⟨⟨?_, stepped "x", fit_fourFeatures "x", ?_, ?_⟩, _, fit_featureless, ?_⟩
  · simp [fourFeatures, task]
  · rw [predict_of_features _ rfl, hplaced, task, hrow]
    exact predictRow_ne rfl rfl rfl rfl (hlinear 0 0) (hlinear 0 1) (by norm_num)
  · rw [predict_of_features _ rfl, predict_of_features _ rfl, task, hrow, hrow]
    exact predictRow_ne rfl rfl rfl rfl (hlinear 0 0) (hlinear 1 1) (by norm_num)
  · have hbias : linear [.real (-1 / 4)] [] = Exact.real (-1 / 4) := by
      simp [linear, Scalar.sum]
    show evenly ≠ predictRow _ []
    rw [predictRow_evenly rfl rfl hbias, evenly_eq, ← Real.sigmoid_zero]
    intro heq
    simp only [Prediction.mk.injEq, List.cons.injEq, Exact.real.injEq, true_and, and_true] at heq
    have hzero : (0 : ℝ) = -1 / 4 := Real.sigmoid_injective heq.2
    norm_num at hzero

end Classifier

end SolverPortfolio

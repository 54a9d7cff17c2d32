import SolverPortfolio.Proofs.Portfolio.Checked
import SolverPortfolio.Proofs.Portfolio.Sizes
import SolverPortfolio.Proofs.Scalar.Rounded

/-!
# Rates and tables

What a checked portfolio predicts: rates that are probabilities for any scalars, tables of
distributions in exact arithmetic.
-/

namespace SolverPortfolio

/-!
## Success rates are probabilities

Whatever a model of a checked portfolio predicts, no entry of the table fails to be a
number: stored tables are checked to be finite, and computed ones are scaled, or uniform
where scaling would go wrong. Entries may exceed one by rounding, but success rates are
cut off, so that planners get probabilities (`Portfolio.isProbability_successRate`).
-/

open Scalar Rounded

variable {α : Type} [Analytic α]

/-- Every entry of the table that belongs to an action is a number. -/
def Prediction.Numeric (p : Prediction α) : Prop :=
  ∀ a < p.nactions, ∀ k : OutcomeKind, isNaN (p.get a k) = false

/-! ### Checked tables -/

namespace Prediction

theorem get_eq_row (p : Prediction α) (a : ℕ) {k : OutcomeKind} (hk : k.index < p.noutcomes) :
    p.get a k = (p.row a).getD k.index 0 := by
  rw [get, row, List.getD_eq_getElem?_getD, List.getD_eq_getElem?_getD,
    List.getElem?_take_of_lt hk, List.getElem?_drop]

theorem isDistribution_of_check {p : Prediction α} (h : p.check = .ok ()) :
    ∀ a < p.nactions, isDistribution (p.row a) = true := by
  unfold check at h
  split at h
  · cases h
  · split at h
    · cases h
    · rename_i hnone
      intro a ha
      have := List.find?_eq_none.mp hnone a (List.mem_range.mpr ha)
      simpa using this

end Prediction

/-! ### Scaled tables -/

variable [Rounded α]

theorem isNaN_div {a b : α} {x y : ℝ} (ha : value a = .real x) (hb : value b = .real y)
    (hy : y ≠ 0) : isNaN (a / b) = false := by
  have hne : value b ≠ .real 0 := by
    rw [hb]
    exact fun h => hy (Exact.real.inj h)
  rw [isNaN_eq_false_iff, value_div a hne, ha, hb, Exact.real_div _ hy]
  exact nearest_ne_nan α _

theorem LogSpace.isNaN_uniformShare (n : ℕ) : isNaN (uniformShare n : α) = false := by
  have hone : (1 : ℝ) ≤ (Nat.max n 1 : ℕ) := by exact_mod_cast Nat.le_max_right n 1
  have hle := nearest_mono (α := α) hone
  rw [nearest_one] at hle
  have hvalue : value (ofNat (Nat.max n 1) : α) = nearest α (Nat.max n 1 : ℕ) := value_ofNat _
  cases hf : nearest α (Nat.max n 1 : ℕ) with
  | real f =>
      rw [hf, Exact.real_le] at hle
      exact isNaN_div value_one (hvalue.trans hf) (by linarith)
  | posInf =>
      have hne : value (ofNat (Nat.max n 1) : α) ≠ .real 0 := by
        rw [hvalue, hf]
        exact Exact.noConfusion
      rw [uniformShare, isNaN_eq_false_iff, value_div _ hne, hvalue, hf, value_one]
      exact nearest_ne_nan α 0
  | negInf => exact absurd (hf ▸ hle) (Exact.not_real_le_negInf 1)
  | nan => exact absurd hf (nearest_ne_nan α _)

theorem LogSpace.isNaN_of_mem_normalizeScores {scores : List α} :
    ∀ v ∈ normalizeScores scores, isNaN v = false := by
  intro v hv
  simp only [normalizeScores] at hv
  split at hv
  · rename_i htotal
    obtain ⟨x, hx, rfl⟩ := List.mem_map.mp hv
    obtain ⟨y, hy⟩ := isFinite_iff.mp htotal.2
    obtain ⟨z, hz⟩ := isFinite_iff.mp (isFinite_of_sum htotal.2 x hx)
    have hpos : 0 < y := by
      have := htotal.1
      rwa [lt_iff, hy, value_zero, Exact.real_lt] at this
    exact isNaN_div hz hy hpos.ne'
  · rw [uniform] at hv
    rw [(List.mem_replicate.mp hv).2]
    exact isNaN_uniformShare _

namespace Prediction

theorem isNaN_getD {xs : List α} (h : ∀ x ∈ xs, isNaN x = false) (i : ℕ) :
    isNaN (xs.getD i 0) = false := by
  rw [List.getD_eq_getElem?_getD]
  cases hi : xs[i]? with
  | none =>
      rw [Option.getD_none, isNaN_eq_false_iff, value_zero]
      exact Exact.noConfusion
  | some x => exact h x (List.mem_of_getElem? hi)

theorem numeric_ofScores (na no : ℕ) (rows : List (List α)) :
    (ofScores na no rows).Numeric := by
  intro a _ k
  refine isNaN_getD (fun x hx => ?_) _
  obtain ⟨row, hrow, hx⟩ := List.mem_flatten.mp hx
  obtain ⟨scores, _, rfl⟩ := List.mem_map.mp hrow
  exact LogSpace.isNaN_of_mem_normalizeScores x hx

/-! ### Rates -/

theorem numeric_of_check {p : Prediction α} (h : p.check = .ok ())
    (hshape : p.noutcomes = OutcomeKind.count) : p.Numeric := by
  intro a ha k
  have hrow := (Bool.and_eq_true_iff.mp (isDistribution_of_check h a ha)).1
  rw [get_eq_row p a (hshape ▸ k.index_lt_count)]
  refine isNaN_getD (fun x hx => ?_) _
  obtain ⟨y, hy⟩ := isFinite_iff.mp (Bool.and_eq_true_iff.mp (List.all_eq_true.mp hrow x hx)).1
  exact isNaN_eq_false_iff.mpr (by rw [hy]; exact Exact.noConfusion)

theorem Numeric.isProbability_rateOf {p : Prediction α} (h : p.Numeric) (a : ℕ) :
    IsProbability (rateOf p.successRates a) := by
  rw [rateOf, successRates, List.getD_eq_getElem?_getD, List.getElem?_map]
  by_cases ha : a < p.nactions
  · rw [List.getElem?_range ha]
    refine isProbability_clamp ?_
    have hget := isNaN_eq_false_iff.mp (h a ha .unsolved)
    rw [isNaN_eq_false_iff, value_sub, value_one]
    cases hv : value (p.get a .unsolved) with
    | real x => exact nearest_ne_nan α _
    | posInf => exact Exact.noConfusion
    | negInf => exact Exact.noConfusion
    | nan => exact absurd hv hget
  · rw [List.getElem?_eq_none (by rw [List.length_range]; omega)]
    exact isProbability_zero

end Prediction

/-! ### Predictions of checked portfolios -/

namespace Portfolio

variable [GammaFunctions α]

theorem numeric_of_predict {p : Portfolio α} (h : p.check = .ok ()) {task : String}
    {features : Option (FeatureVector α)} {c : Counts} {t : Prediction α}
    (ht : p.model.predict task features c = .ok t) : t.Numeric := by
  obtain ⟨_, ⟨shapes, hshapes, _⟩, _⟩ := check_eq_ok h
  have hshape := hasShape h
  obtain ⟨w, model, s⟩ := p
  cases model with
  | multinomial q =>
      obtain ⟨_, _, rfl⟩ := Decision.map_eq_ok ht
      obtain ⟨_, hq, _⟩ := Decision.map_eq_ok hshapes
      exact Prediction.numeric_of_check hq hshape.2
  | mixture m =>
      obtain ⟨rfl, -⟩ := Model.of_predict_mixture ht
      exact Prediction.numeric_ofScores _ _ _
  | classifier k =>
      obtain ⟨_, _, rfl⟩ := Decision.map_eq_ok ht
      obtain ⟨_, hk, _⟩ := Decision.map_eq_ok hshapes
      obtain ⟨_, hpooled, _⟩ := Decision.bind_eq_ok hk
      have hnumeric : k.pooled.Numeric := Prediction.numeric_of_check hpooled hshape.2
      unfold Classifier.predict
      split
      · exact hnumeric
      · split
        · exact hnumeric
        · exact Prediction.numeric_ofScores _ _ _
  | oracle tables =>
      simp only [Model.predict] at ht
      split at ht
      · rename_i t' hlookup
        obtain rfl := Except.ok.inj ht
        have hmem : (task, t') ∈ tables := mem_of_lookup hlookup
        exact Prediction.numeric_of_check (check_of_mem_oracle hshapes hmem) (hshape _ hmem).2
      · cases ht
  | random seed na no =>
      obtain ⟨_, _, rfl⟩ := Decision.map_eq_ok ht
      exact Prediction.numeric_ofScores _ _ _

/-- Planners get probabilities. -/
theorem isProbability_successRate {p : Portfolio α} (h : p.check = .ok ()) {task : String}
    {features : Option (FeatureVector α)} {c : Counts} {t : Prediction α}
    (ht : p.model.predict task features c = .ok t) (a : ℕ) :
    IsProbability (rateOf t.successRates a) :=
  (numeric_of_predict h ht).isProbability_rateOf a

end Portfolio

end SolverPortfolio

namespace SolverPortfolio

/-!
## Predicted tables

In exact arithmetic every table that a model of a checked portfolio predicts has a row of
three nonnegative numbers for each action, and each row sums to one up to a millionth
(`Portfolio.isTable_of_predict`). Stored tables are checked for that. Computed ones are
scaled rows of scores, or uniform where scaling would go wrong; what remains to show is
that scores are nonnegative numbers, for any history, features and seed, and whatever the
gamma function is (`IsScores`).
-/

open Scalar Rounded LogSpace

/-! ### Numbers and rows -/

/-- A real number that is not negative. -/
def Exact.IsNonneg (a : Exact) : Prop := ∃ x : ℝ, 0 ≤ x ∧ a = .real x

/-- Three nonnegative numbers. -/
def IsScores (row : List Exact) : Prop :=
  ∃ x y z : ℝ, 0 ≤ x ∧ 0 ≤ y ∧ 0 ≤ z ∧ row = [.real x, .real y, .real z]

/-- Three nonnegative numbers that sum to one, up to a millionth. -/
def IsDistribution (row : List Exact) : Prop :=
  ∃ x y z : ℝ, 0 ≤ x ∧ 0 ≤ y ∧ 0 ≤ z ∧ |x + y + z - 1| ≤ 1e-6 ∧
    row = [.real x, .real y, .real z]

theorem IsDistribution.isScores {row : List Exact} (h : IsDistribution row) : IsScores row := by
  obtain ⟨x, y, z, hx, hy, hz, _, rfl⟩ := h
  exact ⟨x, y, z, hx, hy, hz, rfl⟩

theorem isScores_of_forall {row : List Exact} (hlen : row.length = OutcomeKind.count)
    (h : ∀ v ∈ row, v.IsNonneg) : IsScores row := by
  obtain ⟨a, b, c, rfl⟩ := List.length_eq_three.mp hlen
  obtain ⟨x, hx, rfl⟩ := h a (by simp)
  obtain ⟨y, hy, rfl⟩ := h b (by simp)
  obtain ⟨z, hz, rfl⟩ := h c (by simp)
  exact ⟨x, y, z, hx, hy, hz, rfl⟩

namespace Exact

theorem sum_triple (x y z : ℝ) : Scalar.sum [real x, real y, real z] = real (x + y + z) := by
  simp [Scalar.sum]

theorem isNonneg_iff {a : Exact} :
    (Scalar.isFinite a && decide ((0 : Exact) ≤ a)) = true ↔ a.IsNonneg := by
  rw [Bool.and_eq_true_iff, decide_eq_true_iff]
  constructor
  · rintro ⟨hfinite, hle⟩
    obtain ⟨x, rfl⟩ := eq_real_of_isFinite hfinite
    rw [zero_eq, real_le] at hle
    exact ⟨x, hle, rfl⟩
  · rintro ⟨x, hx, rfl⟩
    exact ⟨rfl, by rwa [zero_eq, real_le]⟩

theorem abs_real (x : ℝ) : Scalar.abs (real x) = real |x| := by
  rw [Scalar.abs, zero_eq]
  split
  · rename_i hneg
    rw [real_lt] at hneg
    rw [real_neg, abs_of_neg hneg]
  · rename_i hnonneg
    rw [real_lt, not_lt] at hnonneg
    rw [abs_of_nonneg hnonneg]

end Exact

/-! ### Scaled rows -/

/-- Stored rows pass the check. -/
theorem isDistribution_of_isDistribution {row : List Exact} (hlen : row.length = OutcomeKind.count)
    (h : Prediction.isDistribution row = true) : IsDistribution row := by
  obtain ⟨hrow, hsum⟩ := Bool.and_eq_true_iff.mp h
  obtain ⟨x, y, z, hx, hy, hz, rfl⟩ := isScores_of_forall hlen fun v hv =>
    Exact.isNonneg_iff.mp (List.all_eq_true.mp hrow v hv)
  refine ⟨x, y, z, hx, hy, hz, ?_, rfl⟩
  rw [Bool.not_eq_true', decide_eq_false_iff_not, Exact.sum_triple, Exact.one_eq, Exact.real_sub,
    Exact.abs_real] at hsum
  exact not_lt.mp fun hlt => hsum ((Exact.real_lt _ _).mpr hlt)

/-- Scores are scaled to a distribution. -/
theorem IsScores.normalize {row : List Exact} (h : IsScores row) :
    IsDistribution (normalizeScores row) := by
  obtain ⟨x, y, z, hx, hy, hz, rfl⟩ := h
  simp only [normalizeScores, Exact.sum_triple]
  split
  · rename_i htotal
    have hpos : 0 < x + y + z := by
      have := htotal.1
      rwa [Exact.zero_eq, Exact.real_lt] at this
    refine ⟨x / (x + y + z), y / (x + y + z), z / (x + y + z), by positivity, by positivity,
      by positivity, ?_, ?_⟩
    · rw [← add_div, ← add_div, div_self hpos.ne', sub_self, abs_zero]
      norm_num
    · simp only [List.map_cons, List.map_nil, Exact.real_div _ hpos.ne']
  · refine ⟨1 / 3, 1 / 3, 1 / 3, by norm_num, by norm_num, by norm_num, by norm_num, ?_⟩
    have hshare : (uniformShare 3 : Exact) = .real (1 / 3) := by
      show (1 : Exact) / .real ((3 : ℕ) : ℝ) = _
      rw [Exact.one_eq, Exact.real_div _ (by norm_num), Nat.cast_ofNat]
    show List.replicate 3 (uniformShare 3 : Exact) = _
    rw [hshare]
    rfl

/-! ### Tables -/

/-- A row of three nonnegative numbers that sum to one for each of `n` actions. -/
structure Prediction.IsTable (t : Prediction Exact) (n : ℕ) : Prop extends t.IsSized n where
  rows : ∀ a < n, IsDistribution (t.row a)

theorem Prediction.isTable_of_check {t : Prediction Exact} {n : ℕ} (h : t.check = .ok ())
    (hn : t.nactions = n) (ho : t.noutcomes = OutcomeKind.count) : t.IsTable n where
  toIsSized := isSized_of_check h hn ho
  rows := fun _ ha => isDistribution_of_isDistribution ((isSized_of_check h hn ho).length_row ha)
    (isDistribution_of_check h _ (hn.symm ▸ ha))

theorem Prediction.isTable_ofScores {n : ℕ} {rows : List (List Exact)} (hn : rows.length = n)
    (hrows : ∀ r ∈ rows, IsScores r) : (ofScores n OutcomeKind.count rows).IsTable n := by
  have hlen : ∀ r ∈ rows, r.length = OutcomeKind.count := by
    intro r hr
    obtain ⟨_, _, _, _, _, _, rfl⟩ := hrows r hr
    rfl
  refine ⟨isSized_ofScores hn hlen, fun a ha => ?_⟩
  rw [row_ofScores (hn.symm ▸ ha) hlen]
  exact (hrows _ (List.getElem_mem _)).normalize

end SolverPortfolio

import SolverPortfolio.Proofs.Classifier

/-!
# Predicted distributions

A prediction from features says anew how likely a task is solved and takes the proportions of the
solved outcomes from the pooled prediction. In exact arithmetic the scores of a row then sum to one
whatever the pooled row sums to (`Classifier.sum_splitRow`), so that scaling them changes nothing
(`Classifier.row_predict`): the rate of success is the one of the logistic model
(`Classifier.predict_splits_success`).
-/

namespace SolverPortfolio.Classifier

open Scalar LogSpace

/-! ## Scores -/

theorem sum_splitRow (s x y : ℝ) : (splitRow s x y).sum = 1 := by
  rw [splitRow]
  split
  · rename_i hpos
    have hsolved : s * x / (x + y) + s * y / (x + y) = s := by
      rw [← add_div, ← mul_add, mul_div_cancel_right₀ _ hpos.ne']
    simp [hsolved]
  · simp

/-- The scores are scaled already. -/
theorem normalizeScores_splitRow (s x y : ℝ) :
    normalizeScores ((splitRow s x y).map Exact.real) = (splitRow s x y).map Exact.real := by
  have hsum := sum_splitRow s x y
  rw [normalizeScores_map_real (hsum ▸ one_pos), hsum]
  simp

theorem linear_real (bias : ℝ) (weights row : List ℝ) :
    linear ((bias :: weights).map Exact.real) (row.map Exact.real) =
      .real (bias + (List.zipWith (· * ·) weights row).sum) := by
  have hproducts : List.zipWith (· * ·) (weights.map Exact.real) (row.map Exact.real) =
      (List.zipWith (· * ·) weights row).map Exact.real := by
    rw [List.zipWith_map, List.map_zipWith]
    rfl
  rw [linear, List.map_cons, List.headD_cons, List.tail_cons, hproducts, Exact.sum_real,
    Exact.real_add]

/-! ## Rows of a prediction -/

section rows

variable {c : Classifier Exact} {a : ℕ}

/-- The parameters of an action and the standardised features are numbers, one weight for each
feature. -/
theorem exists_model (hcheck : c.check = .ok ()) (v : FeatureVector Exact) (ha : a < c.nactions) :
    ∃ (bias : ℝ) (weights row : List ℝ),
      c.weights[a]? = some ((bias :: weights).map Exact.real) ∧ c.rowOf v = row.map Exact.real ∧
        weights.length = row.length := by
  obtain ⟨-, hsized, hfinite⟩ := check_eq_ok hcheck
  obtain ⟨row, hrow⟩ := Exact.exists_map_real (isFinite_of_mem_rowOf hfinite v)
  simp only [isSized, Bool.and_eq_true, beq_iff_eq, List.all_eq_true] at hsized
  obtain ⟨⟨⟨hmeans, hscales⟩, hcount⟩, hweights⟩ := hsized
  have hlt : a < c.weights.length := hcount ▸ ha
  have hmem : c.weights[a] ∈ c.weights := List.getElem_mem hlt
  have hnumbers := List.all_eq_true.mp (Bool.and_eq_true_iff.mp hfinite).2 _ hmem
  obtain ⟨parameters, hparameters⟩ := Exact.exists_map_real (List.all_eq_true.mp hnumbers)
  have hlength : parameters.length = c.names.length + 1 := by
    rw [← hweights _ hmem, hparameters, List.length_map]
  have hrowlength : row.length = c.names.length := by
    have h := congrArg List.length hrow
    rw [List.length_map] at h
    simp [← h, rowOf, standardize, hmeans, hscales]
  obtain ⟨bias, weights, rfl⟩ := List.exists_cons_of_length_eq_add_one hlength
  refine ⟨bias, weights, row, ?_, hrow, ?_⟩
  · rw [List.getElem?_eq_getElem hlt, hparameters]
  · rw [hrowlength]
    exact Nat.succ.inj hlength

/-- A row of a prediction consists of the unscaled scores. -/
theorem row_predict {v : FeatureVector Exact} {weights : List Exact} {s u x y : ℝ}
    (hcheck : c.check = .ok ()) (hthree : c.noutcomes = 3) (hv : v.isEmpty = false)
    (hweights : c.weights[a]? = some weights)
    (hsigmoid : sigmoid (linear weights (c.rowOf v)) = .real s)
    (hpooled : c.pooled.row a = [.real u, .real x, .real y]) :
    (c.predict (some v)).row a = (splitRow s x y).map Exact.real := by
  obtain ⟨hchecked, hsized, -⟩ := check_eq_ok hcheck
  simp only [isSized, Bool.and_eq_true, beq_iff_eq] at hsized
  have hcount : c.weights.length = c.nactions := hsized.1.2
  have htable : c.pooled.IsSized c.nactions := Prediction.isSized_of_check hchecked rfl hthree
  obtain ⟨hlt, hget⟩ := List.getElem?_eq_some_iff.mp hweights
  rw [c.predict_of_features hv, predictRow, hthree, Prediction.row_ofScores (by simpa using hlt),
    List.getElem_map, List.getElem_zipIdx, Nat.zero_add, hget]
  · show normalizeScores (actionScores (c.pooled.row a) (sigmoid (linear weights (c.rowOf v)))) = _
    rw [hsigmoid, hpooled, actionScores_real, normalizeScores_splitRow]
  · intro r hr
    obtain ⟨⟨w, b⟩, hmem, rfl⟩ := List.mem_map.mp hr
    have hb : b < c.nactions := hcount ▸ (List.mem_zipIdx' hmem).1
    simp only [actionScores, List.length_map, List.length_zipIdx]
    exact htable.length_row hb

end rows

/-! ## The distribution -/

/-- Row `a` of a table is a distribution over three outcomes that solves with probability `s`, in
the proportions of the pooled row; without any in the pooled row a solved task is a positive one. -/
structure SplitsSuccess (p pooled : Prediction Exact) (a : ℕ) (s : ℝ) : Prop where
  length : (p.row a).length = 3
  simplex : IsSimplex (p.row a)
  successRate : p.successRate a = .real s
  unsolved : p.get a .unsolved = .real (1 - s)
  solved : ∃ x y : ℝ, 0 ≤ x ∧ 0 ≤ y ∧
    pooled.get a .positive = .real x ∧ pooled.get a .negative = .real y ∧
    (0 < x + y → p.get a .positive = .real (s * x / (x + y)) ∧
      p.get a .negative = .real (s * y / (x + y))) ∧
    (x + y = 0 → p.get a .positive = .real s ∧ p.get a .negative = .real 0)

theorem splitsSuccess_of_row {p pooled : Prediction Exact} {a : ℕ} {s u x y : ℝ}
    (hp : p.noutcomes = 3) (hpooled : pooled.noutcomes = 3) (hs : 0 ≤ s) (hs' : s ≤ 1)
    (hx : 0 ≤ x) (hy : 0 ≤ y) (hrow : p.row a = (splitRow s x y).map Exact.real)
    (hpooledrow : pooled.row a = [.real u, .real x, .real y]) : SplitsSuccess p pooled a s := by
  have hget : ∀ k : OutcomeKind, p.get a k = ((splitRow s x y).map Exact.real).getD k.index 0 :=
    fun k => by rw [Prediction.get_eq_row p a (hp ▸ k.index_lt_count), hrow]
  have hpooledget : ∀ k : OutcomeKind,
      pooled.get a k = [Exact.real u, .real x, .real y].getD k.index 0 :=
    fun k => by rw [Prediction.get_eq_row pooled a (hpooled ▸ k.index_lt_count), hpooledrow]
  have hunsolved : p.get a .unsolved = .real (1 - s) := by
    rw [hget, splitRow]
    split <;> rfl
  refine ⟨?_, ?_, ?_, hunsolved, x, y, hx, hy, hpooledget _, hpooledget _, fun hpos => ?_,
    fun hzero => ?_⟩
  · rw [hrow, splitRow]
    split <;> rfl
  · rw [hrow, isSimplex_map_real_iff]
    exact ⟨nonneg_of_mem_splitRow hs hs' hx hy, sum_splitRow s x y⟩
  · rw [Prediction.successRate, hunsolved, Exact.one_eq, Exact.zero_eq, Exact.real_sub,
      sub_sub_cancel, clamp_real hs hs']
  · rw [hget, hget, splitRow, if_pos hpos]
    exact ⟨rfl, rfl⟩
  · rw [hget, hget, splitRow, if_neg hzero.not_gt]
    exact ⟨rfl, rfl⟩

/-- **A prediction splits the success of the logistic model.** For a checked classifier over three
outcomes, any features and any action, let `s` be the sigmoid of the bias plus the weighted
standardised features. The row of the action is a probability vector, its rate of success is `s`,
and `s` is split between a positive and a negative answer in the ratio of the pooled row, or goes to
the positive one if the pooled row has neither. A task without features gets the pooled table. -/
theorem predict_splits_success {c : Classifier Exact} (hcheck : c.check = .ok ())
    (hthree : c.noutcomes = 3) :
    (∀ v : FeatureVector Exact, v.isEmpty = false → ∀ a < c.nactions,
      ∃ (bias : ℝ) (weights row : List ℝ),
        c.weights[a]? = some ((bias :: weights).map Exact.real) ∧
        c.rowOf v = row.map Exact.real ∧ weights.length = row.length ∧
        SplitsSuccess (c.predict (some v)) c.pooled a
          (Real.sigmoid (bias + (List.zipWith (· * ·) weights row).sum))) ∧
      c.predict none = c.pooled ∧
      ∀ v : FeatureVector Exact, v.isEmpty = true → c.predict (some v) = c.pooled := by
  refine ⟨fun v hv a ha => ?_, rfl, fun v hv => ?_⟩
  · obtain ⟨bias, weights, row, hweights, hrow, hlength⟩ := exists_model hcheck v ha
    refine ⟨bias, weights, row, hweights, hrow, hlength, ?_⟩
    have htable := Prediction.isTable_of_check (check_eq_ok hcheck).1 rfl hthree
    obtain ⟨u, x, y, -, hx, hy, -, hpooled⟩ := htable.rows a ha
    have hsigmoid : sigmoid (linear ((bias :: weights).map Exact.real) (c.rowOf v)) =
        .real (Real.sigmoid (bias + (List.zipWith (· * ·) weights row).sum)) := by
      rw [hrow, linear_real, sigmoid_real]
    have hthree' : (c.predict (some v)).noutcomes = 3 := by
      rw [c.predict_of_features hv]
      exact hthree
    exact splitsSuccess_of_row hthree' hthree (Real.sigmoid_nonneg _) (Real.sigmoid_le_one _)
      hx hy (row_predict hcheck hthree hv hweights hsigmoid hpooled) hpooled
  · rw [predict, hv, if_pos rfl]

/-- One feature and two actions; none of the tasks that ran the second one was solved. -/
noncomputable def twoActions : Classifier Exact where
  names := ["x"]
  means := [.real 1]
  scales := [.real 0.5]
  weights := [[.real 0, .real 1], [.real 1.5, .real 1]]
  pooled := ⟨2, 3, [.real 0.5, .real 0.125, .real 0.375, .real 1, .real 0, .real 0]⟩

theorem twoActions_check : twoActions.check = .ok () := by
  have hrows : ∀ a, a < 2 → Prediction.isDistribution (twoActions.pooled.row a) = true := by
    intro a ha
    have hsimplex : IsSimplex (twoActions.pooled.row a) := by
      rcases Nat.le_one_iff_eq_zero_or_eq_one.mp (Nat.le_of_lt_succ ha) with rfl | rfl
      · have hrow : twoActions.pooled.row 0 = [0.5, 0.125, 0.375].map Exact.real := rfl
        rw [hrow, isSimplex_map_real_iff]
        norm_num
      · have hrow : twoActions.pooled.row 1 = [1, 0, 0].map Exact.real := rfl
        rw [hrow, isSimplex_map_real_iff]
        norm_num
    exact isDistribution_of_isSimplex hsimplex
  have hfind : (List.range twoActions.pooled.nactions).find?
      (fun a => !Prediction.isDistribution (twoActions.pooled.row a)) = none := by
    rw [List.find?_eq_none]
    intro a ha
    rw [hrows a (List.mem_range.mp ha)]
    exact Bool.false_ne_true
  have hpooled : twoActions.pooled.check = .ok () := by
    rw [Prediction.check, if_neg (by decide), hfind]
  have hsized : twoActions.isSized = true := rfl
  have hfinite : twoActions.isFinite = true := by
    have hscale : (0 : ℝ) < 0.5 := by norm_num
    simp [twoActions, isFinite, isPositiveFinite, hscale]
  rw [check, hpooled, hsized, hfinite]
  rfl

/-- At one and a half the feature stands one deviation above its mean. -/
theorem predict_splits_success_twoActions :
    twoActions.check = .ok () ∧ twoActions.noutcomes = 3 ∧
      SplitsSuccess (twoActions.predict (some ⟨["x"], [.real 1.5]⟩)) twoActions.pooled 0
        (Real.sigmoid 1) ∧
      SplitsSuccess (twoActions.predict (some ⟨["x"], [.real 1.5]⟩)) twoActions.pooled 1
        (Real.sigmoid 2.5) := by
  have hrows := (predict_splits_success twoActions_check rfl).1 ⟨["x"], [.real 1.5]⟩ rfl
  have hrow : twoActions.rowOf ⟨["x"], [.real 1.5]⟩ = [1].map Exact.real := by
    have hone : ((1.5 : ℝ) - 1) / 0.5 = 1 := by norm_num
    have hscale : (0.5 : ℝ) ≠ 0 := by norm_num
    simp [rowOf, twoActions, standardize, valueOf, FeatureVector.get?, List.idxOf?_cons,
      Exact.real_div _ hscale, hone]
  have hinj : Function.Injective (List.map Exact.real) :=
    List.map_injective_iff.mpr fun _ _ => Exact.real.inj
  have hsplit : ∀ (a : ℕ) (b w : ℝ), a < 2 →
      twoActions.weights[a]? = some ([b, w].map Exact.real) →
        SplitsSuccess (twoActions.predict (some ⟨["x"], [.real 1.5]⟩)) twoActions.pooled a
          (Real.sigmoid (b + w)) := by
    intro a b w ha hparameters
    obtain ⟨bias, weights, row, hweights, hfeatures, -, hsplit⟩ := hrows a ha
    obtain ⟨rfl, rfl⟩ := List.cons.inj (hinj (Option.some.inj (hweights.symm.trans hparameters)))
    obtain rfl := hinj (hfeatures.symm.trans hrow)
    simpa using hsplit
  refine ⟨twoActions_check, rfl, ?_, ?_⟩
  · simpa using hsplit 0 0 1 two_pos rfl
  · have hsum : (1.5 : ℝ) + 1 = 2.5 := by norm_num
    exact hsum ▸ hsplit 1 1.5 1 one_lt_two rfl

end SolverPortfolio.Classifier

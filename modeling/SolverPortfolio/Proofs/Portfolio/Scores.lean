import SolverPortfolio.Proofs.Portfolio.Rates

/-!
# Scores are nonnegative

The scores a model of a checked portfolio works out for an action are three nonnegative
numbers, in exact arithmetic. A mixture adds up distributions with nonnegative weights,
and its posterior weights are exponentials or the weights it stores, whatever likelihoods
the gamma function leads to. A classifier splits a probability, since its logistic model
is only ever applied to numbers. Random scores are fractions.
-/

namespace SolverPortfolio

open Scalar Rounded

/-! ## Logarithms -/

namespace LogSpace

/-- A sum of exponentials is only a number if each of them is. -/
theorem real_or_negInf {logs : List Exact} (h : isFinite (logSumExp logs) = true) :
    ∀ w ∈ logs, (∃ x : ℝ, w = .real x) ∨ w = .negInf := by
  intro w hw
  simp only [logSumExp] at h
  split at h
  · cases h
  · obtain ⟨htop, hln⟩ := isFinite_of_add h
    obtain ⟨top, htop⟩ := Exact.eq_real_of_isFinite htop
    have hsum : isFinite (sum (logs.map fun v => Analytic.exp (v - largest logs))) = true := by
      cases hs : sum (logs.map fun v => Analytic.exp (v - largest logs)) with
      | real x => rfl
      | posInf => rw [hs] at hln; cases hln
      | negInf => rw [hs] at hln; cases hln
      | nan => rw [hs] at hln; cases hln
    have hexp := isFinite_of_sum hsum _ (List.mem_map_of_mem hw)
    rw [htop] at hexp
    cases w with
    | real x => exact Or.inl ⟨x, rfl⟩
    | negInf => exact Or.inr rfl
    | posInf => cases hexp
    | nan => cases hexp

theorem isNonneg_of_mem_normalizeLogs (logs : List Exact) :
    ∀ v ∈ normalizeLogs logs, v.IsNonneg := by
  intro v hv
  simp only [normalizeLogs] at hv
  split at hv
  · rename_i hfinite
    obtain ⟨w, hw, rfl⟩ := List.mem_map.mp hv
    obtain ⟨total, htotal⟩ := Exact.eq_real_of_isFinite hfinite
    rw [htotal]
    rcases real_or_negInf hfinite w hw with ⟨x, rfl⟩ | rfl
    · rw [Exact.real_sub]
      exact ⟨Real.exp (x - total), (Real.exp_pos _).le, rfl⟩
    · exact ⟨0, le_rfl, rfl⟩
  · rw [uniform] at hv
    obtain rfl := (List.mem_replicate.mp hv).2
    have hpos : (0 : ℝ) < (Nat.max logs.length 1 : ℕ) := by
      exact_mod_cast Nat.lt_of_lt_of_le one_pos (Nat.le_max_right _ 1)
    refine ⟨1 / (Nat.max logs.length 1 : ℕ), by positivity, ?_⟩
    rw [uniformShare, Exact.one_eq, Exact.ofNat_eq, Exact.real_div _ hpos.ne']

end LogSpace

/-! ## Mixtures -/

namespace Mixture

theorem isNonneg_of_isSimplex {values : List Exact} (h : isSimplex values = true) :
    ∀ v ∈ values, v.IsNonneg := by
  intro v hv
  exact Exact.isNonneg_iff.mp (List.all_eq_true.mp (Bool.and_eq_true_iff.mp h).1 v hv)

/-- The distribution of the next outcome: the parameters themselves, or their share with
the outcomes so far. -/
theorem isScores_predictive {family : Family} {parameters : List Exact} {row : List UInt32}
    (hp : isRow family parameters = true) (hlen : parameters.length = OutcomeKind.count)
    (hrow : row.length = OutcomeKind.count) : IsScores (predictive family parameters row) := by
  cases family with
  | multinomial => exact isScores_of_forall hlen (isNonneg_of_isSimplex hp)
  | dcm =>
      have hpos : ∀ v ∈ parameters, ∃ x : ℝ, 0 < x ∧ v = .real x := fun v hv =>
        Exact.eq_real_of_isPositiveFinite (List.all_eq_true.mp hp v hv)
      obtain ⟨a, b, c, rfl⟩ := List.length_eq_three.mp hlen
      obtain ⟨x, hx, rfl⟩ := hpos a (by simp)
      obtain ⟨y, hy, rfl⟩ := hpos b (by simp)
      obtain ⟨z, hz, rfl⟩ := hpos c (by simp)
      obtain ⟨k, l, n, rfl⟩ := List.length_eq_three.mp hrow
      have hcount : ∀ d : UInt32, (ofCount d : Exact) = .real d.toNat := fun _ => rfl
      have htotal : rowTotal (α := Exact) [k, l, n] = .real (k.toNat + l.toNat + n.toNat) := by
        simp only [rowTotal, List.map_cons, List.map_nil, hcount, Exact.sum_triple]
      have hnorm : (0 : ℝ) < x + y + z + (k.toNat + l.toNat + n.toNat) := by positivity
      refine ⟨(x + k.toNat) / (x + y + z + (k.toNat + l.toNat + n.toNat)),
        (y + l.toNat) / (x + y + z + (k.toNat + l.toNat + n.toNat)),
        (z + n.toNat) / (x + y + z + (k.toNat + l.toNat + n.toNat)), by positivity, by positivity,
        by positivity, ?_⟩
      simp only [predictive, Exact.sum_triple, htotal, hcount, Exact.real_add,
        List.zipWith_cons_cons, List.zipWith_nil_right, Exact.real_div _ hnorm.ne']

theorem isScores_addScaled {scores distribution : List Exact} {weight : Exact}
    (hs : IsScores scores) (hw : weight.IsNonneg) (hd : IsScores distribution) :
    IsScores (addScaled scores weight distribution) := by
  obtain ⟨x, y, z, hx, hy, hz, rfl⟩ := hs
  obtain ⟨w, hw, rfl⟩ := hw
  obtain ⟨p, q, r, hp, hq, hr, rfl⟩ := hd
  exact ⟨x + w * p, y + w * q, z + w * r, by positivity, by positivity, by positivity, rfl⟩

theorem isNonneg_of_mem_posterior [GammaFunctions Exact] {m : Mixture Exact} (hm : m.Checked)
    (c : Counts) : ∀ w ∈ m.posterior c, w.IsNonneg := by
  rw [posterior]
  split
  · exact isNonneg_of_isSimplex hm.weights
  · exact LogSpace.isNonneg_of_mem_normalizeLogs _

theorem isScores_actionScores {m : Mixture Exact} (hm : m.Checked) {n : ℕ}
    (hsized : (Model.mixture m).IsSized n) {c : Counts} (hc : c.Tallies n) {posterior : List Exact}
    (hposterior : ∀ w ∈ posterior, w.IsNonneg) {a : ℕ} (ha : a < n) :
    IsScores (m.actionScores c posterior a) := by
  -- Along the fold the scores stay three nonnegative numbers.
  have hfold : ∀ (xs : List (Exact × List Exact)) (scores : List Exact),
      (∀ x ∈ xs, x.1.IsNonneg ∧ x.2 ∈ m.components) → IsScores scores →
      IsScores (xs.foldl (fun scores x => Mixture.addScaled scores x.1
        (predictive m.family (m.parameters x.2 a) (c.row a))) scores) := by
    intro xs
    induction xs with
    | nil =>
        intro scores _ hscores
        exact hscores
    | cons x xs ih =>
        intro scores hxs hscores
        obtain ⟨hweight, hmem⟩ := hxs x (List.mem_cons_self ..)
        refine ih _ (fun y hy => hxs y (List.mem_cons_of_mem _ hy)) ?_
        exact isScores_addScaled hscores hweight (isScores_predictive
          (hm.rows x.2 hmem a (hsized.1.symm ▸ ha)) (length_parameters hsized hmem ha)
          (hc.length_row ha))
  refine hfold _ _ (fun x hx => ?_) ?_
  · obtain ⟨hleft, hright⟩ := List.of_mem_zip (List.mem_filter.mp hx).1
    exact ⟨hposterior _ hleft, hright⟩
  · rw [hsized.2.1]
    exact ⟨0, 0, 0, le_rfl, le_rfl, le_rfl, by simp [OutcomeKind.count]⟩

theorem isTable_predict [GammaFunctions Exact] {m : Mixture Exact} (hm : m.Checked) {n : ℕ}
    (hsized : (Model.mixture m).IsSized n) {c : Counts} (hc : c.Tallies n) :
    (m.predict c).IsTable n := by
  rw [predict, hsized.1, hsized.2.1]
  refine Prediction.isTable_ofScores (by simp) fun r hr => ?_
  obtain ⟨a, ha, rfl⟩ := List.mem_map.mp hr
  exact isScores_actionScores hm hsized hc (isNonneg_of_mem_posterior hm c) (List.mem_range.mp ha)

end Mixture

/-! ## Sums of numbers -/

namespace Exact

theorem isFinite_zipWith {β γ : Type} {f : β → γ → Exact} {P : β → Prop} {Q : γ → Prop}
    (hf : ∀ x y, P x → Q y → Scalar.isFinite (f x y) = true) :
    ∀ {xs : List β} {ys : List γ}, (∀ x ∈ xs, P x) → (∀ y ∈ ys, Q y) →
      ∀ v ∈ List.zipWith f xs ys, Scalar.isFinite v = true
  | [], _, _, _, _, hv => by simp at hv
  | _ :: _, [], _, _, _, hv => by simp at hv
  | x :: xs, y :: ys, hx, hy, v, hv => by
      rcases List.mem_cons.mp hv with rfl | hv
      · exact hf x y (hx x (List.mem_cons_self ..)) (hy y (List.mem_cons_self ..))
      · exact isFinite_zipWith hf (fun x h => hx x (List.mem_cons_of_mem _ h))
          (fun y h => hy y (List.mem_cons_of_mem _ h)) v hv

theorem isFinite_foldl {xs : List Exact} {start : Exact}
    (hxs : ∀ x ∈ xs, Scalar.isFinite x = true) (hstart : Scalar.isFinite start = true) :
    Scalar.isFinite (xs.foldl (· + ·) start) = true := by
  induction xs generalizing start with
  | nil => exact hstart
  | cons x xs ih =>
      obtain ⟨s, rfl⟩ := eq_real_of_isFinite hstart
      obtain ⟨t, rfl⟩ := eq_real_of_isFinite (hxs x (List.mem_cons_self ..))
      exact ih (fun y hy => hxs y (List.mem_cons_of_mem _ hy)) rfl

theorem isFinite_sum {xs : List Exact} (hxs : ∀ x ∈ xs, Scalar.isFinite x = true) :
    Scalar.isFinite (Scalar.sum xs) = true :=
  isFinite_foldl hxs (by rw [zero_eq]; rfl)

end Exact

/-! ## Classifiers -/

namespace Classifier

variable {k : Classifier Exact}

/-- Standardised features are numbers, whatever values a task comes with. -/
theorem isFinite_of_mem_rowOf (hk : k.isFinite = true) (features : FeatureVector Exact) :
    ∀ v ∈ k.rowOf features, Scalar.isFinite v = true := by
  simp only [Classifier.isFinite, Bool.and_eq_true_iff, List.all_eq_true] at hk
  obtain ⟨⟨hmeans, hscales⟩, _⟩ := hk
  have hvalues : ∀ v ∈ List.zipWith (valueOf features) k.names k.means,
      Scalar.isFinite v = true := by
    refine Exact.isFinite_zipWith (P := fun _ => True) (fun name mean _ hmean => ?_)
      (fun _ _ => trivial) hmeans
    rw [valueOf]
    split
    · split
      · assumption
      · exact hmean
    · exact hmean
  refine Exact.isFinite_zipWith (fun x s hx hs => ?_)
    (Exact.isFinite_zipWith (fun x m hx hm => ?_) hvalues hmeans) hscales
  · obtain ⟨x, rfl⟩ := Exact.eq_real_of_isFinite hx
    obtain ⟨s, hpos, rfl⟩ := Exact.eq_real_of_isPositiveFinite hs
    rw [Exact.real_div x hpos.ne']
    rfl
  · obtain ⟨x, rfl⟩ := Exact.eq_real_of_isFinite hx
    obtain ⟨m, rfl⟩ := Exact.eq_real_of_isFinite hm
    rfl

theorem isFinite_linear {weights row : List Exact} (hw : ∀ w ∈ weights, Scalar.isFinite w = true)
    (hrow : ∀ v ∈ row, Scalar.isFinite v = true) :
    Scalar.isFinite (linear weights row) = true := by
  have hbias : Scalar.isFinite (weights.headD 0) = true := by
    cases weights with
    | nil => rfl
    | cons w ws => exact hw w (List.mem_cons_self ..)
  have hsum : Scalar.isFinite (sum (List.zipWith (· * ·) weights.tail row)) = true := by
    refine Exact.isFinite_sum (Exact.isFinite_zipWith (fun x y hx hy => ?_)
      (fun w h => hw w (List.mem_of_mem_tail h)) hrow)
    obtain ⟨x, rfl⟩ := Exact.eq_real_of_isFinite hx
    obtain ⟨y, rfl⟩ := Exact.eq_real_of_isFinite hy
    rfl
  rw [linear]
  obtain ⟨b, hb⟩ := Exact.eq_real_of_isFinite hbias
  obtain ⟨s, hs⟩ := Exact.eq_real_of_isFinite hsum
  rw [hb, hs]
  rfl

theorem isProbability_sigmoid {x : Exact} (hx : Scalar.isFinite x = true) :
    IsProbability (sigmoid x) := by
  obtain ⟨x, rfl⟩ := Exact.eq_real_of_isFinite hx
  have hexp : ∀ y : ℝ, Analytic.exp (Exact.real y) = .real (Real.exp y) := fun _ => rfl
  have hpos : ∀ y : ℝ, 0 < 1 + Real.exp y := fun y => by positivity
  rw [sigmoid]
  split
  · refine ⟨1 / (1 + Real.exp (-x)), by positivity, ?_, ?_⟩
    · rw [div_le_one (hpos _)]
      linarith [Real.exp_pos (-x)]
    · rw [Exact.real_neg, hexp, Exact.one_eq, Exact.real_add, Exact.real_div _ (hpos _).ne']
      rfl
  · refine ⟨Real.exp x / (1 + Real.exp x), by positivity, ?_, ?_⟩
    · rw [div_le_one (hpos _)]
      linarith
    · rw [hexp, Exact.one_eq, Exact.real_add, Exact.real_div _ (hpos _).ne']
      rfl

/-- The chances of the three outcomes of a task that is solved with probability `s`, where `x` and
`y` are the pooled chances of a positive and of a negative answer. -/
noncomputable def splitRow (s x y : ℝ) : List ℝ :=
  if 0 < x + y then [1 - s, s * x / (x + y), s * y / (x + y)] else [1 - s, s, 0]

theorem actionScores_real (s u x y : ℝ) :
    actionScores [.real u, .real x, .real y] (.real s) = (splitRow s x y).map Exact.real := by
  have hmass : solvedMass [Exact.real u, .real x, .real y] = .real (x + y) := by
    show Scalar.sum [Exact.real x, .real y] = _
    simp [Scalar.sum]
  rw [splitRow]
  split
  · rename_i hpos
    simp [actionScores, hmass, splitScore, OutcomeKind.index, List.zipIdx, hpos,
      Exact.real_div _ hpos.ne']
  · rename_i hpos
    simp [actionScores, hmass, splitScore, OutcomeKind.index, List.zipIdx, hpos]

theorem length_splitRow (s x y : ℝ) : (splitRow s x y).length = OutcomeKind.count := by
  rw [splitRow]
  split <;> rfl

theorem nonneg_of_mem_splitRow {s x y : ℝ} (hs : 0 ≤ s) (hs' : s ≤ 1) (hx : 0 ≤ x) (hy : 0 ≤ y) :
    ∀ p ∈ splitRow s x y, 0 ≤ p := by
  have hunsolved : 0 ≤ 1 - s := sub_nonneg.mpr hs'
  rw [splitRow]
  split
  · simp only [List.forall_mem_cons, List.not_mem_nil, false_imp_iff, implies_true, and_true]
    exact ⟨hunsolved, by positivity, by positivity⟩
  · simp only [List.forall_mem_cons, List.not_mem_nil, false_imp_iff, implies_true, and_true]
    exact ⟨hunsolved, hs, le_rfl⟩

theorem isScores_actionScores {pooled : List Exact} (hp : IsScores pooled) {success : Exact}
    (hs : IsProbability success) : IsScores (actionScores pooled success) := by
  obtain ⟨u, x, y, _, hx, hy, rfl⟩ := hp
  obtain ⟨s, hs0, hs1, hs⟩ := hs
  obtain rfl : success = .real s := hs
  rw [actionScores_real]
  refine isScores_of_forall (by rw [List.length_map, length_splitRow]) fun v hv => ?_
  obtain ⟨p, hp, rfl⟩ := List.mem_map.mp hv
  exact ⟨p, nonneg_of_mem_splitRow hs0 hs1 hx hy p hp, rfl⟩

theorem isTable_predict (hk : k.isFinite = true) {n : ℕ} (hsized : (Model.classifier k).IsSized n)
    (hpooled : k.pooled.IsTable n) (features : Option (FeatureVector Exact)) :
    (k.predict features).IsTable n := by
  unfold predict
  split
  · exact hpooled
  · split
    · exact hpooled
    · rename_i v _
      rw [predictRow, nactions, noutcomes, hpooled.nactions, hpooled.noutcomes]
      refine Prediction.isTable_ofScores (by simp [hsized.2.1]) fun r hr => ?_
      obtain ⟨⟨weights, a⟩, hmem, rfl⟩ := List.mem_map.mp hr
      obtain ⟨hlt, hget⟩ := List.mem_zipIdx' hmem
      have hweights : weights ∈ k.weights := hget ▸ List.getElem_mem hlt
      have hnumbers : ∀ x ∈ weights, Scalar.isFinite x = true := by
        have hall := (Bool.and_eq_true_iff.mp hk).2
        exact List.all_eq_true.mp (List.all_eq_true.mp hall weights hweights)
      exact isScores_actionScores (hpooled.rows a (hsized.2.1 ▸ hlt)).isScores
        (isProbability_sigmoid (isFinite_linear hnumbers (isFinite_of_mem_rowOf hk v)))

end Classifier

/-! ## Random scores -/

namespace Randomness.Stream

theorem isNonneg_fraction (u : UInt64) : (fraction u : Exact).IsNonneg := by
  have hpos : (0 : ℝ) < (Nat.pow 2 52 : ℕ) := by norm_num
  refine ⟨(u >>> 12).toNat / (Nat.pow 2 52 : ℕ), by positivity, ?_⟩
  rw [fraction, Exact.ofNat_eq, Exact.ofNat_eq, Exact.real_div _ hpos.ne']

theorem isNonneg_of_mem_take (m : ℕ) (s : Stream) :
    ∀ v ∈ (take (α := Exact) m s).1, v.IsNonneg := by
  induction m generalizing s with
  | zero => exact nofun
  | succ m ih =>
      intro v hv
      rcases List.mem_cons.mp hv with rfl | hv
      · exact isNonneg_fraction s.next.1
      · exact ih s.next.2 v hv

theorem isNonneg_of_mem_takeRows (m n : ℕ) (s : Stream) :
    ∀ r ∈ (takeRows (α := Exact) m n s).1, ∀ v ∈ r, v.IsNonneg := by
  induction n generalizing s with
  | zero => exact nofun
  | succ n ih =>
      intro r hr
      rcases List.mem_cons.mp hr with rfl | hr
      · exact isNonneg_of_mem_take m s
      · exact ih (take (α := Exact) m s).2 r hr

end Randomness.Stream

theorem Model.isTable_randomTable (seed : UInt64) (n : ℕ) (c : Counts) :
    (randomTable (α := Exact) seed n OutcomeKind.count c).IsTable n := by
  obtain ⟨hlen, hrows⟩ := Randomness.Stream.length_takeRows (α := Exact) OutcomeKind.count n
    (.ofSeed (historySeed seed c))
  exact Prediction.isTable_ofScores hlen fun r hr =>
    isScores_of_forall (hrows r hr) (Randomness.Stream.isNonneg_of_mem_takeRows _ _ _ r hr)

/-! ## Predicted tables -/

namespace Portfolio

variable [GammaFunctions Exact]

/-- Whatever the task, the features and the history, a table that is predicted has a
distribution for every action. -/
theorem isTable_of_predict {p : Portfolio Exact} (h : p.check = .ok ()) {task : String}
    {features : Option (FeatureVector Exact)} {c : Counts} (hc : c.Tallies p.world.nactions)
    {t : Prediction Exact} (ht : p.model.predict task features c = .ok t) :
    t.IsTable p.world.nactions := by
  obtain ⟨_, ⟨_, hshapes, _⟩, _⟩ := check_eq_ok h
  have hshape := hasShape h
  have hsized := isSized h
  obtain ⟨w, model, s⟩ := p
  cases model with
  | multinomial q =>
      obtain ⟨_, _, rfl⟩ := Decision.map_eq_ok ht
      obtain ⟨_, hq, _⟩ := Decision.map_eq_ok hshapes
      exact Prediction.isTable_of_check hq hshape.1 hshape.2
  | mixture m =>
      obtain ⟨rfl, -⟩ := Model.of_predict_mixture ht
      obtain ⟨_, hm, _⟩ := Decision.map_eq_ok hshapes
      exact Mixture.isTable_predict (Mixture.checked_of_check hm) hsized hc
  | classifier k =>
      obtain ⟨_, _, rfl⟩ := Decision.map_eq_ok ht
      obtain ⟨_, hk, _⟩ := Decision.map_eq_ok hshapes
      obtain ⟨hpooled, _, hfinite⟩ := Classifier.check_eq_ok hk
      exact Classifier.isTable_predict hfinite hsized
        (Prediction.isTable_of_check hpooled hshape.1 hshape.2) features
  | oracle tables =>
      simp only [Model.predict] at ht
      split at ht
      · rename_i t' hlookup
        obtain rfl := Except.ok.inj ht
        have hmem : (task, t') ∈ tables := mem_of_lookup hlookup
        exact Prediction.isTable_of_check (check_of_mem_oracle hshapes hmem) (hshape _ hmem).1
          (hshape _ hmem).2
      · cases ht
  | random seed na no =>
      obtain ⟨_, _, rfl⟩ := Decision.map_eq_ok ht
      obtain ⟨hn, ho⟩ := hsized
      rw [hn, ho]
      exact Model.isTable_randomTable seed w.nactions c

/-- Planners get probabilities, one for each action. -/
theorem isProbability_of_mem_rates {p : Portfolio Exact} (h : p.check = .ok ()) {task : String}
    {features : Option (FeatureVector Exact)} {c : Counts} {t : Prediction Exact}
    (ht : p.model.predict task features c = .ok t) : ∀ r ∈ t.successRates, IsProbability r := by
  intro r hr
  obtain ⟨i, hi, rfl⟩ := List.mem_iff_getElem.mp hr
  have := isProbability_successRate h ht i
  rwa [rateOf, List.getD_eq_getElem?_getD, List.getElem?_eq_getElem hi, Option.getD_some] at this

end Portfolio

end SolverPortfolio

import SolverPortfolio.Proofs.Counts
import SolverPortfolio.Proofs.Portfolio.Checked
import SolverPortfolio.Wire.Portfolio

/-!
# Sizes

How long the lists of a checked portfolio are: every table has a row of three entries for
each action, every component of a mixture as many parameters, and a classifier a weight
vector per action with its bias in front (`Model.IsSized`). A prediction is of the same
size whatever the history and the features are (`Portfolio.isSized_of_predict`).

Portfolios that are built or read from text are checked ones (`Portfolio.check_of_build`,
`Wire.check_of_parsePortfolio`).
-/

namespace SolverPortfolio

open LogSpace

/-! ## Rows -/

/-- Rows of one length, end to end. -/
theorem length_flatten_of_rows {β : Type} {k : Nat} :
    ∀ {rows : List (List β)}, (∀ r ∈ rows, r.length = k) → rows.flatten.length = rows.length * k
  | [], _ => (Nat.zero_mul k).symm
  | r :: rows, h => by
      rw [List.flatten_cons, List.length_append, h r (List.mem_cons_self ..),
        length_flatten_of_rows fun r hr => h r (List.mem_cons_of_mem _ hr), List.length_cons,
        Nat.succ_mul, Nat.add_comm]

/-- A row is found again at its place. -/
theorem row_flatten {β : Type} {k : Nat} :
    ∀ {rows : List (List β)} {a : Nat}, (∀ r ∈ rows, r.length = k) → (ha : a < rows.length) →
      (rows.flatten.drop (a * k)).take k = rows[a]
  | r :: rows, 0, h, _ => by
      have hr : r.length = k := h r (List.mem_cons_self ..)
      rw [Nat.zero_mul, List.drop_zero, List.flatten_cons, ← hr, List.take_left]
      rfl
  | r :: rows, a + 1, h, ha => by
      have hr : r.length = k := h r (List.mem_cons_self ..)
      rw [List.flatten_cons, Nat.succ_mul, Nat.add_comm, ← hr, List.drop_length_add_append, hr]
      exact row_flatten (fun r hr => h r (List.mem_cons_of_mem _ hr))
        (Nat.lt_of_succ_lt_succ ha)

variable {α : Type}

/-! ## Tables -/

/-- A row of three entries for each of `n` actions. -/
structure Prediction.IsSized (t : Prediction α) (n : Nat) : Prop where
  nactions : t.nactions = n
  noutcomes : t.noutcomes = OutcomeKind.count
  length : t.probabilities.length = n * OutcomeKind.count

/-- Every list the model stores has the length that `n` actions ask for. -/
def Model.IsSized (n : Nat) : Model α → Prop
  | .multinomial p => p.IsSized n
  | .mixture m =>
    m.nactions = n ∧ m.noutcomes = OutcomeKind.count ∧ m.weights.length = m.components.length ∧
      ∀ c ∈ m.components, c.length = n * OutcomeKind.count
  | .classifier k =>
    k.pooled.IsSized n ∧ k.weights.length = n ∧ ∀ w ∈ k.weights, w.length = k.names.length + 1
  | .oracle tables => ∀ t ∈ tables, t.2.IsSized n
  | .random _ na no => na = n ∧ no = OutcomeKind.count

theorem Prediction.IsSized.length_row {t : Prediction α} {n : Nat} (h : t.IsSized n) {a : Nat}
    (ha : a < n) : (t.row a).length = OutcomeKind.count := by
  rw [row, List.length_take, List.length_drop, h.noutcomes, h.length]
  simp only [OutcomeKind.count]
  omega

theorem Counts.Tallies.length_row {c : Counts} {n : Nat} (h : c.Tallies n) {a : Nat} (ha : a < n) :
    (c.row a).length = OutcomeKind.count := by
  rw [row, List.length_take, List.length_drop, h.noutcomes, h.length]
  simp only [OutcomeKind.count]
  omega

theorem Mixture.length_parameters {m : Mixture α} {n : Nat} (hm : (Model.mixture m).IsSized n)
    {c : List α} (hc : c ∈ m.components) {a : Nat} (ha : a < n) :
    (m.parameters c a).length = OutcomeKind.count := by
  obtain ⟨_, ho, _, hlen⟩ := hm
  rw [parameters, List.length_take, List.length_drop, ho, hlen c hc]
  simp only [OutcomeKind.count]
  omega

variable [Analytic α]

@[simp] theorem LogSpace.length_normalizeScores (scores : List α) :
    (normalizeScores scores).length = scores.length := by
  simp only [normalizeScores]
  split
  · exact List.length_map ..
  · exact List.length_replicate

namespace Prediction

theorem length_of_check {t : Prediction α} (h : t.check = .ok ()) :
    t.probabilities.length = t.nactions * t.noutcomes := by
  unfold check at h
  split at h
  · cases h
  · rename_i hsize
    simp only [Bool.or_eq_true, bne_iff_ne, ne_eq, not_or, Decidable.not_not] at hsize
    exact hsize.2

theorem isSized_of_check {t : Prediction α} {n : Nat} (h : t.check = .ok ())
    (hn : t.nactions = n) (ho : t.noutcomes = OutcomeKind.count) : t.IsSized n :=
  ⟨hn, ho, by rw [length_of_check h, hn, ho]⟩

theorem isSized_ofScores {n : Nat} {rows : List (List α)} (hn : rows.length = n)
    (hrows : ∀ r ∈ rows, r.length = OutcomeKind.count) :
    (ofScores n OutcomeKind.count rows).IsSized n := by
  refine ⟨rfl, rfl, ?_⟩
  have hscaled : ∀ r ∈ rows.map normalizeScores, r.length = OutcomeKind.count := by
    intro r hr
    obtain ⟨scores, hscores, rfl⟩ := List.mem_map.mp hr
    rw [length_normalizeScores, hrows scores hscores]
  rw [ofScores, length_flatten_of_rows hscaled, List.length_map, hn]

/-- A row of a scaled table is a scaled row. -/
theorem row_ofScores {n k : Nat} {rows : List (List α)} {a : Nat} (ha : a < rows.length)
    (hrows : ∀ r ∈ rows, r.length = k) :
    (ofScores n k rows).row a = normalizeScores rows[a] := by
  have hscaled : ∀ r ∈ rows.map normalizeScores, r.length = k := by
    intro r hr
    obtain ⟨scores, hscores, rfl⟩ := List.mem_map.mp hr
    rw [length_normalizeScores, hrows scores hscores]
  rw [row, ofScores, row_flatten hscaled (by rwa [List.length_map]), List.getElem_map]

end Prediction

/-! ## Checked models -/

namespace Mixture

theorem componentFault?_eq_none {m : Mixture α} :
    ∀ {cs : List (List α)} {k : Nat}, m.firstFault? k cs = none →
      ∀ c ∈ cs, ∃ j, m.componentFault? j c = none
  | [], _, _, _, hc => (List.not_mem_nil hc).elim
  | c :: cs, k, h, c', hc' => by
      rw [firstFault?] at h
      cases hfault : m.componentFault? k c with
      | some fault =>
          rw [hfault] at h
          cases h
      | none =>
          rw [hfault] at h
          rcases List.mem_cons.mp hc' with rfl | hc'
          · exact ⟨k, hfault⟩
          · exact componentFault?_eq_none h c' hc'

/-- What the check of a mixture guarantees. -/
structure Checked (m : Mixture α) : Prop where
  weights : isSimplex m.weights = true
  ncomponents : m.weights.length = m.components.length
  nparameters : ∀ c ∈ m.components, c.length = m.nactions * m.noutcomes
  rows : ∀ c ∈ m.components, ∀ a < m.nactions, isRow m.family (m.parameters c a) = true

theorem checked_of_check {m : Mixture α} (h : m.check = .ok ()) : m.Checked := by
  unfold check at h
  cases hfault : m.fault? with
  | some fault =>
      rw [hfault] at h
      cases h
  | none =>
      unfold fault? at hfault
      split at hfault
      · cases hfault
      · rename_i hcount
        split at hfault
        · cases hfault
        · rename_i hweights
          simp only [Bool.or_eq_true, not_or] at hcount
          refine ⟨by simpa using hweights, by simpa using hcount.2, fun c hc => ?_,
            fun c hc a ha => ?_⟩
          · obtain ⟨j, hj⟩ := componentFault?_eq_none hfault c hc
            unfold componentFault? at hj
            split at hj
            · cases hj
            · rename_i hlen
              simpa using hlen
          · obtain ⟨j, hj⟩ := componentFault?_eq_none hfault c hc
            unfold componentFault? at hj
            split at hj
            · cases hj
            · have hrow := List.find?_eq_none.mp (Option.map_eq_none_iff.mp hj) a
                (List.mem_range.mpr ha)
              simpa using hrow

/-- A mixture that has components is accepted for nothing but this. -/
theorem Checked.check_eq_ok {m : Mixture α} (h : m.Checked) (hne : m.weights ≠ []) :
    m.check = .ok () := by
  have hcomponents : ∀ (k : Nat) (cs : List (List α)), (∀ c ∈ cs, c ∈ m.components) →
      m.firstFault? k cs = none := by
    intro k cs hcs
    induction cs generalizing k with
    | nil => rfl
    | cons c cs ih =>
        rw [List.forall_mem_cons] at hcs
        have hrows : (List.range m.nactions).find? (fun a => !isRow m.family (m.parameters c a)) =
            none :=
          List.find?_eq_none.mpr fun a ha => by rw [h.rows c hcs.1 a (List.mem_range.mp ha)]; simp
        have hfault : m.componentFault? k c = none := by
          rw [componentFault?, h.nparameters c hcs.1, hrows]
          simp
        rw [firstFault?, hfault]
        exact ih (k + 1) hcs.2
  have hcount : (m.weights.isEmpty || m.weights.length != m.components.length) = false := by
    rw [h.ncomponents, bne_self_eq_false, Bool.or_false, List.isEmpty_eq_false_iff]
    exact hne
  have hfault : m.fault? = none := by
    rw [fault?, hcount, h.weights]
    exact hcomponents 0 m.components fun _ hc => hc
  rw [check, hfault]

end Mixture

theorem Classifier.check_eq_ok {k : Classifier α} (h : k.check = .ok ()) :
    k.pooled.check = .ok () ∧ k.isSized = true ∧ k.isFinite = true := by
  obtain ⟨_, hpooled, h⟩ := Decision.bind_eq_ok h
  refine ⟨hpooled, ?_⟩
  cases hsized : k.isSized with
  | false => rw [hsized] at h; cases h
  | true =>
      cases hfinite : k.isFinite with
      | false => rw [hsized, hfinite] at h; cases h
      | true => exact ⟨rfl, rfl⟩

namespace Portfolio

theorem isSized_of_modelShapes {model : Model α} {shapes : List (Nat × Nat)} {n : Nat}
    (h : modelShapes model = .ok shapes) (hshape : model.HasShape n OutcomeKind.count) :
    model.IsSized n := by
  cases model with
  | multinomial p =>
      obtain ⟨_, hp, _⟩ := Decision.map_eq_ok h
      exact Prediction.isSized_of_check hp hshape.1 hshape.2
  | mixture m =>
      obtain ⟨_, hm, _⟩ := Decision.map_eq_ok h
      have hchecked := Mixture.checked_of_check hm
      obtain ⟨hn, ho⟩ := hshape
      exact ⟨hn, ho, hchecked.ncomponents, fun c hc => by rw [hchecked.nparameters c hc, hn, ho]⟩
  | classifier k =>
      obtain ⟨_, hk, _⟩ := Decision.map_eq_ok h
      obtain ⟨hpooled, hsized, _⟩ := Classifier.check_eq_ok hk
      simp only [Classifier.isSized, Bool.and_eq_true, beq_iff_eq, List.all_eq_true] at hsized
      exact ⟨Prediction.isSized_of_check hpooled hshape.1 hshape.2,
        hsized.1.2.trans hshape.1, hsized.2⟩
  | oracle tables =>
      intro t ht
      exact Prediction.isSized_of_check (check_of_mem_oracle h ht) (hshape t ht).1 (hshape t ht).2
  | random seed na no => exact hshape

theorem isSized {p : Portfolio α} (h : p.check = .ok ()) : p.model.IsSized p.world.nactions := by
  obtain ⟨_, ⟨_, hshapes, _⟩, _⟩ := check_eq_ok h
  exact isSized_of_modelShapes hshapes (hasShape h)

end Portfolio

/-! ## Where checked portfolios come from -/

theorem Portfolio.check_of_build {world : World α} {model : Model α} {planner : PlannerSettings α}
    {p : Portfolio α} (h : build world model planner = .ok p) : p.check = .ok () := by
  obtain ⟨_, hcheck, rfl⟩ := Decision.map_eq_ok h
  exact hcheck

theorem Wire.check_of_parsePortfolio {text : String} {p : Portfolio Float}
    (h : parsePortfolio text = .ok p) : p.check = .ok () := by
  unfold parsePortfolio at h
  split at h
  · cases h
  · unfold loadPortfolio at h
    split at h
    · cases h
    · obtain ⟨_, hcheck, rfl⟩ := Decision.map_eq_ok h
      exact hcheck

/-! ## Predictions -/

namespace Mixture

theorem length_predictive {k : Nat} (family : Family) {parameters : List α} {row : List UInt32}
    (hp : parameters.length = k) (hr : row.length = k) :
    (predictive family parameters row).length = k := by
  cases family with
  | multinomial => exact hp
  | dcm => rw [predictive, List.length_zipWith, hp, hr, Nat.min_self]

theorem length_actionScores {m : Mixture α} {n : Nat} (hm : (Model.mixture m).IsSized n)
    {c : Counts} (hc : c.Tallies n) (posterior : List α) {a : Nat} (ha : a < n) :
    (m.actionScores c posterior a).length = OutcomeKind.count := by
  have hfold : ∀ (xs : List (α × List α)) (scores : List α), (∀ x ∈ xs, x.2 ∈ m.components) →
      scores.length = OutcomeKind.count →
      (xs.foldl (fun scores x => addScaled scores x.1
        (predictive m.family (m.parameters x.2 a) (c.row a))) scores).length =
          OutcomeKind.count := by
    intro xs
    induction xs with
    | nil => exact fun _ _ h => h
    | cons x xs ih =>
        intro scores hxs hlen
        refine ih _ (fun y hy => hxs y (List.mem_cons_of_mem _ hy)) ?_
        show (addScaled scores x.1 _).length = _
        rw [addScaled, List.length_zipWith, hlen, length_predictive m.family
          (length_parameters hm (hxs x (List.mem_cons_self ..)) ha) (hc.length_row ha),
          Nat.min_self]
  refine hfold _ _ (fun x hx => ?_) (by rw [List.length_replicate, hm.2.1])
  exact (List.of_mem_zip (List.mem_filter.mp hx).1).2

end Mixture

theorem Classifier.length_of_mem_rows {k : Classifier α} {n : Nat}
    (hk : (Model.classifier k).IsSized n) (row : List α) :
    ∀ r ∈ k.weights.zipIdx.map fun (weights, a) =>
        actionScores (k.pooled.row a) (sigmoid (linear weights row)),
      r.length = OutcomeKind.count := by
  intro r hr
  obtain ⟨⟨w, a⟩, hmem, rfl⟩ := List.mem_map.mp hr
  have ha : a < n := hk.2.1 ▸ (List.mem_zipIdx' hmem).1
  show (actionScores (k.pooled.row a) _).length = _
  rw [actionScores, List.length_map, List.length_zipIdx, hk.1.length_row ha]

namespace Randomness.Stream

theorem length_take (m : Nat) (s : Stream) : (take (α := α) m s).1.length = m := by
  induction m generalizing s with
  | zero => rfl
  | succ m ih => exact congrArg Nat.succ (ih s.next.2)

theorem length_takeRows (m n : Nat) (s : Stream) :
    (takeRows (α := α) m n s).1.length = n ∧
      ∀ r ∈ (takeRows (α := α) m n s).1, r.length = m := by
  induction n generalizing s with
  | zero => exact ⟨rfl, nofun⟩
  | succ n ih =>
      obtain ⟨hlen, hrows⟩ := ih (take (α := α) m s).2
      refine ⟨congrArg Nat.succ hlen, fun r hr => ?_⟩
      rcases List.mem_cons.mp hr with rfl | hr
      · exact length_take m s
      · exact hrows r hr

end Randomness.Stream

theorem Model.isSized_randomTable (seed : UInt64) (n : Nat) (c : Counts) :
    (randomTable (α := α) seed n OutcomeKind.count c).IsSized n := by
  obtain ⟨hlen, hrows⟩ := Randomness.Stream.length_takeRows (α := α) OutcomeKind.count n
    (.ofSeed (historySeed seed c))
  exact Prediction.isSized_ofScores hlen hrows

variable [GammaFunctions α]

/-- What a model predicts is as large as what it stores. -/
theorem Model.isSized_of_predict {model : Model α} {n : Nat} (hm : model.IsSized n)
    {c : Counts} (hc : c.Tallies n) {task : String} {features : Option (FeatureVector α)}
    {t : Prediction α} (ht : model.predict task features c = .ok t) : t.IsSized n := by
  cases model with
  | multinomial p =>
      obtain ⟨_, _, rfl⟩ := Decision.map_eq_ok ht
      exact hm
  | mixture m =>
      obtain ⟨rfl, -⟩ := of_predict_mixture ht
      rw [Mixture.predict, hm.1, hm.2.1]
      refine Prediction.isSized_ofScores (by rw [List.length_map, List.length_range]) fun r hr => ?_
      obtain ⟨a, ha, rfl⟩ := List.mem_map.mp hr
      exact Mixture.length_actionScores hm hc _ (List.mem_range.mp ha)
  | classifier k =>
      obtain ⟨_, _, rfl⟩ := Decision.map_eq_ok ht
      unfold Classifier.predict
      split
      · exact hm.1
      · split
        · exact hm.1
        · rw [Classifier.predictRow, Classifier.nactions, Classifier.noutcomes, hm.1.nactions,
            hm.1.noutcomes]
          exact Prediction.isSized_ofScores
            (by rw [List.length_map, List.length_zipIdx, hm.2.1])
            (Classifier.length_of_mem_rows hm _)
  | oracle tables =>
      simp only [predict] at ht
      split at ht
      · rename_i t' hlookup
        obtain rfl := Except.ok.inj ht
        exact hm (task, t') (mem_of_lookup hlookup)
      · cases ht
  | random seed na no =>
      obtain ⟨_, _, rfl⟩ := Decision.map_eq_ok ht
      obtain ⟨rfl, rfl⟩ := hm
      exact isSized_randomTable seed na c

end SolverPortfolio

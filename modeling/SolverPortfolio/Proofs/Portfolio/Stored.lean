import SolverPortfolio.Proofs.Portfolio.Oracle
import SolverPortfolio.Training

/-!
# What there is to store of a portfolio

The sizes and the numbers a portfolio consists of, and what of them can be stored. The numbers a
check looks at are finite (`Portfolio.isFinite_of_mem_scalars`); the one that no check looks at is
the training log likelihood of a mixture. `Portfolio.stored` is the portfolio without it where it
is not finite, and this is the whole portfolio exactly if there is nothing to leave out
(`Portfolio.stored_eq_iff`).

The tables of an oracle are stored by task. A trained oracle lists them in that order
(`Model.isSorted_of_fitModel`).
-/

namespace SolverPortfolio

open Scalar Rounded

variable {α : Type}

/-! ## Sizes and numbers -/

def Prediction.sizes (p : Prediction α) : List Nat := [p.nactions, p.noutcomes]

namespace Model

def sizes : Model α → List Nat
  | .multinomial p => p.sizes
  | .mixture m => [m.nactions, m.noutcomes]
  | .classifier c => c.pooled.sizes
  | .oracle tables => tables.flatMap fun t => t.2.sizes
  | .random _ nactions noutcomes => [nactions, noutcomes]

/-- The training log likelihood. -/
def score? : Model α → Option α
  | .mixture m => m.trainingLogLikelihood
  | _ => none

/-- The parameters, with the training log likelihood at the end. -/
def scalars : Model α → List α
  | .multinomial p => p.probabilities
  | .mixture m => m.weights ++ m.components.flatten ++ m.trainingLogLikelihood.toList
  | .classifier c => c.means ++ c.scales ++ c.weights.flatten ++ c.pooled.probabilities
  | .oracle tables => tables.flatMap fun t => t.2.probabilities
  | .random _ _ _ => []

/-- The tables of an oracle are sorted by task. -/
def IsSorted : Model α → Prop
  | .oracle tables => SortedByName tables
  | _ => True

/-- The model without a training log likelihood that is not finite. -/
def stored [Scalar α] : Model α → Model α
  | .mixture m =>
    .mixture { m with trainingLogLikelihood := m.trainingLogLikelihood.filter isFinite }
  | model => model

end Model

namespace Portfolio

def sizes (p : Portfolio α) : List Nat :=
  p.world.ladder.size :: p.planner.horizon :: p.model.sizes

def scalars (p : Portfolio α) : List α :=
  p.world.ladder.step :: p.planner.discount :: p.model.scalars

def stored [Scalar α] (p : Portfolio α) : Portfolio α := { p with model := p.model.stored }

end Portfolio

section stored

variable [Scalar α]

@[simp] theorem Model.sizes_stored (model : Model α) : model.stored.sizes = model.sizes := by
  cases model <;> rfl

theorem Model.isSorted_stored {model : Model α} (h : model.IsSorted) : model.stored.IsSorted := by
  cases model with
  | oracle tables => exact h
  | multinomial _ | mixture _ | classifier _ | random _ _ _ => trivial

theorem Model.mem_scalars_of_stored {model : Model α} :
    ∀ x ∈ model.stored.scalars, x ∈ model.scalars := by
  cases model with
  | mixture m =>
      intro x hx
      rcases List.mem_append.mp hx with hx | hx
      · exact List.mem_append_left _ hx
      · have hscore := Option.mem_filter_iff.mp (Option.mem_toList.mp hx)
        exact List.mem_append_right _ (Option.mem_toList.mpr hscore.1)
  | multinomial _ | classifier _ | oracle _ | random _ _ _ => exact fun _ hx => hx

theorem Model.stored_eq_iff {model : Model α} :
    model.stored = model ↔ ∀ x ∈ model.score?, isFinite x = true := by
  cases model with
  | mixture m =>
      obtain ⟨family, nactions, noutcomes, weights, components, score⟩ := m
      simp only [stored, score?, mixture.injEq, Mixture.mk.injEq, true_and]
      cases score with
      | none => simp
      | some x => simp [Option.filter_some]
  | multinomial _ | classifier _ | oracle _ | random _ _ _ =>
      exact ⟨fun _ => nofun, fun _ => rfl⟩

@[simp] theorem Portfolio.sizes_stored (p : Portfolio α) : p.stored.sizes = p.sizes := by
  rw [sizes, stored, Model.sizes_stored]
  rfl

theorem Portfolio.mem_scalars_of_stored {p : Portfolio α} :
    ∀ x ∈ p.stored.scalars, x ∈ p.scalars := by
  intro x hx
  rcases List.mem_cons.mp hx with rfl | hx
  · exact List.mem_cons_self
  · refine List.mem_cons_of_mem _ ?_
    rcases List.mem_cons.mp hx with rfl | hx
    · exact List.mem_cons_self
    · exact List.mem_cons_of_mem _ (Model.mem_scalars_of_stored x hx)

theorem Portfolio.stored_eq_iff {p : Portfolio α} :
    p.stored = p ↔ ∀ x ∈ p.model.score?, isFinite x = true := by
  rw [← Model.stored_eq_iff]
  constructor
  · exact fun h => congrArg Portfolio.model h
  · intro h
    rw [stored, h]

end stored

/-! ## Checks -/

/-- An entry of a table stands in one of its rows. -/
theorem exists_mem_row {k : Nat} {x : α} : ∀ {n : Nat} {xs : List α}, xs.length = n * k → x ∈ xs →
    ∃ a < n, x ∈ (xs.drop (a * k)).take k
  | 0, xs, hlen, hx => by
      rw [Nat.zero_mul, List.length_eq_zero_iff] at hlen
      subst hlen
      cases hx
  | n + 1, xs, hlen, hx => by
      rw [← List.take_append_drop k xs, List.mem_append] at hx
      rcases hx with hx | hx
      · refine ⟨0, Nat.succ_pos n, ?_⟩
        rwa [Nat.zero_mul, List.drop_zero]
      · have hlen' : (xs.drop k).length = n * k := by
          rw [List.length_drop, hlen, Nat.succ_mul, Nat.add_sub_cancel]
        obtain ⟨a, ha, hmem⟩ := exists_mem_row hlen' hx
        refine ⟨a + 1, Nat.succ_lt_succ ha, ?_⟩
        rwa [List.drop_drop, Nat.add_comm, ← Nat.succ_mul] at hmem

section checks

variable [Analytic α]

theorem Mixture.check_score (m : Mixture α) (score : Option α) :
    { m with trainingLogLikelihood := score }.check = m.check := by
  have hfault : ∀ (k : Nat) (cs : List (List α)),
      { m with trainingLogLikelihood := score }.firstFault? k cs = m.firstFault? k cs := by
    intro k cs
    induction cs generalizing k with
    | nil => rfl
    | cons c cs ih =>
        rw [firstFault?, firstFault?, ih]
        rfl
  rw [check, check, fault?, fault?, hfault]

/-- A check does not look at the training log likelihood. -/
theorem Portfolio.check_stored (p : Portfolio α) : p.stored.check = p.check := by
  have hshapes : modelShapes p.model.stored = modelShapes p.model := by
    cases p.model with
    | mixture m =>
        show (Mixture.check _).map _ = m.check.map _
        rw [Mixture.check_score]
    | multinomial _ | classifier _ | oracle _ | random _ _ _ => rfl
  rw [check, check, stored, hshapes]

theorem Prediction.isFinite_of_check {p : Prediction α} (h : p.check = .ok ()) :
    ∀ x ∈ p.probabilities, isFinite x = true := by
  intro x hx
  obtain ⟨a, ha, hmem⟩ := exists_mem_row (length_of_check h) hx
  have hrow := isDistribution_of_check h a ha
  rw [isDistribution, Bool.and_eq_true, List.all_eq_true] at hrow
  exact (Bool.and_eq_true_iff.mp (hrow.1 x hmem)).1

theorem Mixture.isFinite_of_isRow {family : Family} {row : List α} (h : isRow family row = true) :
    ∀ x ∈ row, isFinite x = true := by
  intro x hx
  cases family with
  | multinomial =>
      rw [isRow, isSimplex, Bool.and_eq_true, List.all_eq_true] at h
      exact (Bool.and_eq_true_iff.mp (h.1 x hx)).1
  | dcm =>
      rw [isRow, isPositive, List.all_eq_true] at h
      exact (Bool.and_eq_true_iff.mp (h x hx)).1

theorem Mixture.Checked.isFinite {m : Mixture α} (h : m.Checked) :
    ∀ x ∈ m.weights ++ m.components.flatten, isFinite x = true := by
  have hweights : isRow .multinomial m.weights = true := h.weights
  intro x hx
  rcases List.mem_append.mp hx with hx | hx
  · exact isFinite_of_isRow hweights x hx
  · obtain ⟨c, hc, hxc⟩ := List.mem_flatten.mp hx
    obtain ⟨a, ha, hmem⟩ := exists_mem_row (h.nparameters c hc) hxc
    exact isFinite_of_isRow (h.rows c hc a ha) x hmem

theorem Classifier.isFinite_of_check {k : Classifier α} (h : k.check = .ok ()) :
    ∀ x ∈ k.means ++ k.scales ++ k.weights.flatten ++ k.pooled.probabilities,
      Scalar.isFinite x = true := by
  obtain ⟨hpooled, -, hfinite⟩ := check_eq_ok h
  simp only [isFinite, Bool.and_eq_true, List.all_eq_true] at hfinite
  obtain ⟨⟨hmeans, hscales⟩, hweights⟩ := hfinite
  intro x hx
  simp only [List.mem_append] at hx
  rcases hx with ((hx | hx) | hx) | hx
  · exact hmeans x hx
  · exact (Bool.and_eq_true_iff.mp (hscales x hx)).1
  · obtain ⟨w, hw, hxw⟩ := List.mem_flatten.mp hx
    exact hweights w hw x hxw
  · exact Prediction.isFinite_of_check hpooled x hx

theorem Model.isFinite_of_modelShapes {model : Model α} {shapes : List (Nat × Nat)}
    (h : Portfolio.modelShapes model = .ok shapes) :
    ∀ x ∈ model.stored.scalars, isFinite x = true := by
  cases model with
  | multinomial p =>
      obtain ⟨_, hp, -⟩ := Decision.map_eq_ok h
      exact Prediction.isFinite_of_check hp
  | mixture m =>
      obtain ⟨_, hm, -⟩ := Decision.map_eq_ok h
      intro x hx
      rcases List.mem_append.mp hx with hx | hx
      · exact (Mixture.checked_of_check hm).isFinite x hx
      · exact (Option.mem_filter_iff.mp (Option.mem_toList.mp hx)).2
  | classifier k =>
      obtain ⟨_, hk, -⟩ := Decision.map_eq_ok h
      exact Classifier.isFinite_of_check hk
  | oracle tables =>
      intro x hx
      obtain ⟨t, ht, hxt⟩ := List.mem_flatMap.mp hx
      exact Prediction.isFinite_of_check (Portfolio.check_of_mem_oracle h ht) x hxt
  | random seed na no => exact nofun

theorem isFinite_of_isDiscount [Rounded α] {x : α} (h : isDiscount x = true) :
    isFinite x = true := by
  rw [isDiscount, Bool.and_eq_true, decide_eq_true_iff, decide_eq_true_iff, le_iff, lt_iff,
    value_zero, value_one] at h
  obtain ⟨y, hy, -⟩ := Exact.eq_real_of_between h.1 ⟨h.2.1, h.2.2.1, h.2.2.2.le⟩
  exact isFinite_iff.mpr ⟨y, hy⟩

/-- All that a check looks at is finite. -/
theorem Portfolio.isFinite_of_mem_scalars [Rounded α] {p : Portfolio α} (h : p.check = .ok ()) :
    ∀ x ∈ p.stored.scalars, isFinite x = true := by
  obtain ⟨hworld, ⟨_, hshapes, -⟩, hdiscount⟩ := check_eq_ok h
  intro x hx
  rcases List.mem_cons.mp hx with rfl | hx
  · exact (Bool.and_eq_true_iff.mp (World.step_isPositiveFinite hworld)).1
  · rcases List.mem_cons.mp hx with rfl | hx
    · exact isFinite_of_isDiscount hdiscount
    · exact Model.isFinite_of_modelShapes hshapes x hx

omit [Analytic α] in
theorem Model.eq_of_mem_sizes {model : Model α} {nactions noutcomes : Nat}
    (h : model.HasShape nactions noutcomes) : ∀ k ∈ model.sizes, k = nactions ∨ k = noutcomes := by
  have hpair : ∀ {a o : Nat}, a = nactions ∧ o = noutcomes →
      ∀ k ∈ [a, o], k = nactions ∨ k = noutcomes := by
    rintro _ _ ⟨rfl, rfl⟩ k hk
    simpa using hk
  cases model with
  | multinomial p => exact hpair h
  | mixture m => exact hpair h
  | classifier c => exact hpair h
  | oracle tables =>
      intro k hk
      obtain ⟨t, ht, hk⟩ := List.mem_flatMap.mp hk
      exact hpair (h t ht) k hk
  | random _ _ _ => exact hpair h

/-- The sizes in a checked portfolio are bounded by those of its world and the horizon. -/
theorem Portfolio.sizes_lt {p : Portfolio α} (h : p.check = .ok ()) {n : Nat}
    (hactions : p.world.nactions < n) (houtcomes : OutcomeKind.count < n)
    (hhorizon : p.planner.horizon < n) : ∀ k ∈ p.sizes, k < n := by
  have hladder : p.world.ladder.size ≤ p.world.nactions :=
    Nat.le_mul_of_pos_left _ (World.nsolvers_pos (world_check h))
  intro k hk
  rcases List.mem_cons.mp hk with rfl | hk
  · omega
  · rcases List.mem_cons.mp hk with rfl | hk
    · exact hhorizon
    · rcases Model.eq_of_mem_sizes (hasShape h) k hk with rfl | rfl
      · exact hactions
      · exact houtcomes

end checks

/-! ## Training -/

section training

variable [Analytic α] [GammaFunctions α]

theorem Model.isSorted_of_fitModel {s : EstimatorSettings α} {e : Randomness.Entropy}
    {w : World α} {t : TrainingSet α} {model : Model α}
    (h : Settings.fitModel s e w t = .ok model) : model.IsSorted := by
  unfold Settings.fitModel at h
  split at h
  · obtain ⟨_, -, rfl⟩ := Decision.map_eq_ok h
    trivial
  · obtain ⟨_, -, rfl⟩ := Decision.map_eq_ok h
    trivial
  · obtain ⟨_, -, rfl⟩ := Decision.map_eq_ok h
    trivial
  · obtain rfl := eq_of_ofRuns h
    exact sortedByName_sortedNames _ _
  · obtain rfl := Except.ok.inj h
    trivial

omit [Analytic α] [GammaFunctions α] in
theorem TrainingError.mapError_eq_ok {β : Type} {r : Decision α β} {b : β}
    (h : r.mapError TrainingError.decision = .ok b) : r = .ok b := by
  cases r with
  | error e => cases h
  | ok b' => exact congrArg Except.ok (Except.ok.inj h)

/-- A trained portfolio is built from a fitted model. -/
theorem Settings.exists_build_of_train {s : Settings α} {e : Randomness.Entropy}
    {source : Option (FeatureSource α)}
    {solvers : List String} {store : RunStore α} {p : Portfolio α}
    (h : s.train e source solvers store = .ok p) :
    ∃ w t model, fitModel s.estimator e w t = .ok model ∧
      Portfolio.build w model s.planner = .ok p := by
  obtain ⟨w, -, h⟩ := Decision.bind_eq_ok h
  obtain ⟨t, -, h⟩ := Decision.bind_eq_ok h
  obtain ⟨model, hmodel, hbuild⟩ := Decision.bind_eq_ok (TrainingError.mapError_eq_ok h)
  exact ⟨w, t, model, hmodel, hbuild⟩

end training

end SolverPortfolio

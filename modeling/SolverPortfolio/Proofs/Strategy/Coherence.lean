import SolverPortfolio.Proofs.Planner
import SolverPortfolio.Proofs.Portfolio.Checked
import SolverPortfolio.Strategy

/-!
# Coherent caches

A modeling session keeps a prediction and a posterior between calls. They are caches:
`Modeling.Coherent` says that whatever is kept is what the model would answer for the
session's task, features and history as they are now.

Coherence is broken by recording an outcome and by nothing else, and refreshing
restores it (`refresh_of_knows`). A refresh can only fail on a task that an oracle does
not know, and then it writes nothing that was not there (`refresh_of_not_knows`); so
does the making of a plan (`buildPlan_of_knows`, `buildPlan_of_not_knows`).

A history whose rows a mixture cannot add up stops the refresh
(`refresh_of_not_canRead`). A coherent session has none, so only recording an outcome leads to
one.
-/

namespace SolverPortfolio.Modeling

variable {α : Type}

/-- The model of the session has something to say about its task. -/
def Knows (m : Modeling α) : Prop := m.portfolio.model.Knows m.taskId

/-- Two states of one session, with the same outcomes seen. -/
structure SameView (m m' : Modeling α) : Prop where
  portfolio : m'.portfolio = m.portfolio
  taskId : m'.taskId = m.taskId
  features : m'.features = m.features
  history : m'.history = m.history

theorem SameView.refl (m : Modeling α) : SameView m m := ⟨rfl, rfl, rfl, rfl⟩

theorem SameView.knows {m m' : Modeling α} (h : SameView m m') (hk : m.Knows) : m'.Knows := by
  simpa only [Knows, h.portfolio, h.taskId] using hk

variable [Analytic α]

/-- The portfolio is checked and the history has its shape. -/
structure Sound (m : Modeling α) : Prop where
  checked : m.portfolio.check = .ok ()
  shape : m.history.HasShape m.portfolio.world.nactions m.portfolio.world.noutcomes

/-- The session with one more in a cell of its history. -/
def bump (m : Modeling α) (i d : Nat) : Modeling α := { m with history := m.history.bump i d }

theorem Sound.bump {m : Modeling α} (h : m.Sound) (i d : Nat) : (m.bump i d).Sound :=
  ⟨h.checked, h.shape.bump i d⟩

theorem rates_of_prediction {m : Modeling α} {t : Prediction α} (h : m.prediction = some t) :
    m.rates = t.successRates := by
  rw [rates, h]
  rfl

variable [GammaFunctions α]

/-- What the model predicts for the session as it is now. -/
def predicted (m : Modeling α) : Decision α (Prediction α) :=
  m.portfolio.model.predict m.taskId m.features m.history

/-- The model gets through the history of the session. -/
def canRead (m : Modeling α) : Bool := m.portfolio.model.canRead m.history

structure Coherent (m : Modeling α) : Prop extends Sound m where
  readable : m.canRead = true
  prediction : ∀ t, m.prediction = some t → m.predicted = .ok t
  posterior : ∀ v, m.posterior = some v → m.portfolio.model.posterior m.history = .ok (some v)
  planned : m.planned = true → m.Knows

/-! ## What a sound session can be told -/

theorem Sound.predicted_of_knows {m : Modeling α} (h : m.Sound) (hk : m.Knows)
    (hread : m.canRead = true) :
    ∃ t, m.predicted = .ok t ∧ t.nactions = m.portfolio.world.nactions :=
  Model.predict_of_knows (Portfolio.hasShape h.checked) hk m.features h.shape hread

theorem knows_of_predicted {m : Modeling α} {t : Prediction α} (h : m.predicted = .ok t) :
    m.Knows := by
  by_cases hk : m.Knows
  · exact hk
  · have := (Model.predict_of_not_knows hk m.features m.history).1
    rw [predicted, this] at h
    cases h

theorem Coherent.posterior_eq_none {m : Modeling α} (h : m.Coherent) (hk : ¬m.Knows) :
    m.posterior = none := by
  cases hp : m.posterior with
  | none => rfl
  | some v =>
      have := h.posterior v hp
      rw [(Model.predict_of_not_knows hk m.features m.history).2] at this
      cases Except.ok.inj this

theorem Coherent.prediction_eq_none {m : Modeling α} (h : m.Coherent) (hk : ¬m.Knows) :
    m.prediction = none := by
  cases hp : m.prediction with
  | none => rfl
  | some t => exact absurd (knows_of_predicted (h.prediction t hp)) hk

theorem coherent_start {p : Portfolio α} (h : p.check = .ok ()) (taskId : String) :
    (start p taskId).Coherent where
  checked := h
  shape := ⟨rfl, rfl⟩
  readable := p.model.canRead_fresh p.world.nactions
  prediction := fun _ ht => by cases ht
  posterior := fun _ hv => by cases hv
  planned := fun hp => by cases hp

theorem Coherent.withFeatures {m : Modeling α} (h : m.Coherent)
    (features : Option (FeatureVector α)) : (m.withFeatures features).Coherent where
  checked := h.checked
  shape := h.shape
  readable := h.readable
  prediction := fun _ ht => by cases ht
  posterior := h.posterior
  planned := h.planned

/-! ## Refreshing -/

theorem refresh_of_knows {m : Modeling α} (h : m.Sound) (hk : m.Knows)
    (hread : m.canRead = true) :
    ∃ t m', m.predicted = .ok t ∧ m.refresh = (m', .ok ()) ∧ SameView m m' ∧
      m'.Coherent ∧ m'.prediction = some t := by
  obtain ⟨t, ht, _⟩ := h.predicted_of_knows hk hread
  obtain ⟨v, hv⟩ := Model.posterior_of_canRead hread
  have ht' : m.portfolio.model.predict m.taskId m.features m.history = .ok t := ht
  refine ⟨t, { m with posterior := v, prediction := some t }, ht,
    by simp only [refresh, hv, ht'], ⟨rfl, rfl, rfl, rfl⟩, ?_, rfl⟩
  exact
    { checked := h.checked
      shape := h.shape
      readable := hread
      prediction := fun t' heq => Option.some.inj heq ▸ ht
      posterior := fun u hu => by rw [← hu]; exact hv
      planned := fun _ => hk }

/-- A refusal is noticed after the posterior is written; but a model that refuses has
no posterior, so what is written is what was there. -/
theorem refresh_of_not_knows {m : Modeling α} (h : m.Coherent) (hk : ¬m.Knows) :
    m.refresh = (m, .error (.invalidModel (.unknownTask m.taskId))) := by
  obtain ⟨hpred, hpost⟩ := Model.predict_of_not_knows hk m.features m.history
  have hsame : { m with posterior := none } = m := by
    rw [← h.posterior_eq_none hk]
  simp only [refresh, hpred, hpost, hsame]

/-- The posterior comes first, and stops the refresh with nothing written. -/
theorem refresh_of_not_canRead {m : Modeling α} (hread : m.canRead = false) :
    m.refresh = (m, .error .overflow) := by
  have hpost : m.portfolio.model.posterior m.history = .error .overflow :=
    Model.posterior_of_not_canRead hread
  simp only [refresh, hpost]

/-! ## Making a plan -/

theorem ensurePrediction_of_knows {m : Modeling α} (h : m.Coherent) (hk : m.Knows) :
    ∃ t m', m.predicted = .ok t ∧ m.ensurePrediction = (m', .ok ()) ∧ SameView m m' ∧
      m'.Coherent ∧ m'.prediction = some t := by
  unfold ensurePrediction
  cases hp : m.prediction with
  | none => exact refresh_of_knows h.toSound hk h.readable
  | some t => exact ⟨t, m, h.prediction t hp, rfl, .refl m, h, hp⟩

theorem ensurePrediction_of_not_knows {m : Modeling α} (h : m.Coherent) (hk : ¬m.Knows) :
    m.ensurePrediction = (m, .error (.invalidModel (.unknownTask m.taskId))) := by
  rw [ensurePrediction, if_pos (by rw [h.prediction_eq_none hk]; rfl), refresh_of_not_knows h hk]

/-- The rates are there, so what becomes of the plan is up to the planner: it stops if it has no
tables for the budget, and makes a plan otherwise. -/
theorem buildPlan_of_knows {m : Modeling α} (h : m.Coherent) (hk : m.Knows) {remaining : α}
    (hr : Scalar.IsBudget remaining) :
    ∃ t m', m.predicted = .ok t ∧
      m.buildPlan remaining =
        (m', m.planner.plan m.portfolio.world t.successRates remaining) ∧
      SameView m m' ∧ m'.Coherent ∧
      (m.planner.hasTables m.portfolio.world remaining = true ∧
          (∃ steps, m.planner.plan m.portfolio.world t.successRates remaining = .ok steps) ∨
        m.planner.hasTables m.portfolio.world remaining = false ∧
          m.planner.plan m.portfolio.world t.successRates remaining = .error .overflow) := by
  obtain ⟨t, m', ht, heq, hview, hco, hpred⟩ := ensurePrediction_of_knows h hk
  obtain ⟨t', ht', hn⟩ := h.predicted_of_knows hk h.readable
  obtain rfl : t = t' := Except.ok.inj (ht.symm.trans ht')
  have hlen : t.successRates.length = m.portfolio.world.nactions := by
    rw [Prediction.successRates, List.length_map, List.length_range, hn]
  refine ⟨t, { m' with planned := true }, ht, ?_,
    ⟨hview.portfolio, hview.taskId, hview.features, hview.history⟩, ?_,
    m.planner.plan_cases hr hlen⟩
  · simp only [buildPlan, heq]
    rw [planner, hview.portfolio, rates_of_prediction hpred]
    rfl
  · exact
      { checked := hco.checked
        shape := hco.shape
        readable := hco.readable
        prediction := hco.prediction
        posterior := hco.posterior
        planned := fun _ => hview.knows hk }

theorem buildPlan_of_not_knows {m : Modeling α} (h : m.Coherent) (hk : ¬m.Knows)
    (remaining : α) :
    m.buildPlan remaining = (m, .error (.invalidModel (.unknownTask m.taskId))) := by
  simp only [buildPlan, ensurePrediction_of_not_knows h hk]

end SolverPortfolio.Modeling

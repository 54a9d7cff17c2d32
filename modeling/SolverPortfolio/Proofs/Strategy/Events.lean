import SolverPortfolio.Proofs.Strategy.Protocol

/-!
# Events of a session

What a session is for: a strategy that plans against a model decides by one portfolio and
for one task (`Serves`), whatever it is asked.

Between its requests a session may be given new features at any time, so its runs are
sequences of events (`Event`, `play`). New features drop the prediction and nothing else,
which keeps the invariant (`inv_step`); a property that events keep where the invariant
holds is one of every run (`play_induction`).
-/

namespace SolverPortfolio

/-- A request, or new features. -/
inductive Event (α : Type) where
  | request (r : Request α)
  | features (given : Option (FeatureVector α))

namespace Strategy

variable {α : Type}

/-! ## What a session is for -/

/-- The strategy decides by this portfolio, for this task and its features. -/
def Serves (p : Portfolio α) (taskId : String) (features : Option (FeatureVector α))
    (s : Strategy α) : Prop :=
  ∃ m, s.policy = .modeling m ∧ m.portfolio = p ∧ m.taskId = taskId ∧ m.features = features

variable {p : Portfolio α} {taskId : String} {features : Option (FeatureVector α)}

theorem withFeatures_eq {s : Strategy α} {m : Modeling α} (hm : s.policy = .modeling m)
    (given : Option (FeatureVector α)) :
    s.withFeatures given = { s with policy := .modeling (m.withFeatures given) } := by
  rw [withFeatures, hm]

/-- Only the policy of a modeling strategy is touched. -/
theorem withFeatures_cases (s : Strategy α) (given : Option (FeatureVector α)) :
    (∃ m, s.policy = .modeling m ∧
      s.withFeatures given = { s with policy := .modeling (m.withFeatures given) }) ∨
    ((∀ m, s.policy ≠ .modeling m) ∧ s.withFeatures given = s) := by
  cases hp : s.policy with
  | modeling m => exact Or.inl ⟨m, rfl, withFeatures_eq hp given⟩
  | sequence => exact Or.inr ⟨nofun, by rw [withFeatures, hp]⟩
  | fixed a => exact Or.inr ⟨nofun, by rw [withFeatures, hp]⟩

theorem Serves.withFeatures {s : Strategy α} (h : s.Serves p taskId features)
    (given : Option (FeatureVector α)) : (s.withFeatures given).Serves p taskId given := by
  obtain ⟨m, hm, hp, ht, _⟩ := h
  rw [withFeatures_eq hm]
  exact ⟨_, rfl, hp, ht, rfl⟩

theorem Serves.counted {s : Strategy α} (h : s.Serves p taskId features) (index : Option Nat)
    (kind : OutcomeKind) :
    Serves p taskId features { s with policy := s.policy.counted index kind } := by
  obtain ⟨m, hm, rfl, rfl, rfl⟩ := h
  exact ⟨_, congrArg (Policy.counted index kind) hm, m.counted_view index kind⟩

variable [Analytic α] [GammaFunctions α]

theorem Serves.of_kept {s : Strategy α} (h : s.Serves p taskId features) {policy : Policy α}
    (hkept : s.policy.Kept policy) :
    ∃ m, policy = .modeling m ∧ m.portfolio = p ∧ m.taskId = taskId ∧ m.features = features := by
  obtain ⟨m, hm, hp, ht, hf⟩ := h
  rw [hm] at hkept
  cases hkept with
  | modeling view _ _ =>
      exact ⟨_, rfl, view.portfolio.trans hp, view.taskId.trans ht, view.features.trans hf⟩

theorem Serves.after {s : Strategy α} (h : s.Serves p taskId features) (hinv : s.Inv) :
    ∀ r : Request α, (s.after r).Serves p taskId features
  | .select remaining => by
      rw [Strategy.after]
      rcases select_cases hinv remaining with ⟨_, _, heq⟩ | ⟨_, _, _, _, hchosen, heq⟩ |
        ⟨_, _, hchosen, heq⟩
      · rw [heq]
        exact h
      · rw [heq]
        exact h.of_kept hchosen.kept
      · rw [heq]
        exact h.of_kept hchosen.kept
  | .observe action outcome => by
      rw [Strategy.after]
      rcases observe_cases hinv action outcome with ⟨_, _, heq⟩ | ⟨_, index, _, _, _, hkept, heq⟩
      · rw [heq]
        exact h
      · rw [heq]
        exact (h.counted index outcome.kind).of_kept hkept

theorem Serves.run {s : Strategy α} (h : s.Serves p taskId features) (hinv : s.Inv)
    (requests : List (Request α)) : (s.run requests).Serves p taskId features := by
  induction requests generalizing s with
  | nil => exact h
  | cons r rs ih => exact ih (h.after hinv r) (inv_after hinv r)

/-! ## Runs with new features -/

def step (s : Strategy α) : Event α → Strategy α
  | .request r => s.after r
  | .features given => s.withFeatures given

def play (s : Strategy α) (events : List (Event α)) : Strategy α := events.foldl step s

/-- The features a session goes by in the end. -/
def currentFeatures (features : Option (FeatureVector α)) :
    List (Event α) → Option (FeatureVector α)
  | [] => features
  | .request _ :: events => currentFeatures features events
  | .features given :: events => currentFeatures given events

theorem inv_withFeatures {s : Strategy α} (h : s.Inv) (given : Option (FeatureVector α)) :
    (s.withFeatures given).Inv := by
  rcases withFeatures_cases s given with ⟨m, hm, heq⟩ | ⟨_, heq⟩
  · rw [heq]
    exact
      { pending_isSome := h.pending_isSome
        queue_nil := h.queue_nil
        coherent := fun m' hm' => by
          obtain rfl := Policy.modeling.inj hm'
          exact (h.coherent m hm).withFeatures given
        knows := fun m' hm' hw => by
          obtain rfl := Policy.modeling.inj hm'
          exact h.knows m hm hw }
  · rw [heq]
    exact h

theorem inv_step {s : Strategy α} (h : s.Inv) : ∀ e : Event α, (s.step e).Inv
  | .request r => inv_after h r
  | .features given => inv_withFeatures h given

/-- What every event keeps, as long as the invariant holds, holds along every run. -/
theorem play_induction {P : Strategy α → Prop}
    (hstep : ∀ s : Strategy α, s.Inv → P s → ∀ e, P (s.step e)) {s : Strategy α} (hinv : s.Inv)
    (hs : P s) (events : List (Event α)) : (s.play events).Inv ∧ P (s.play events) := by
  induction events generalizing s with
  | nil => exact ⟨hinv, hs⟩
  | cons e events ih => exact ih (inv_step hinv e) (hstep s hinv hs e)

theorem Serves.play {s : Strategy α} (h : s.Serves p taskId features) (hinv : s.Inv)
    (events : List (Event α)) :
    (s.play events).Serves p taskId (currentFeatures features events) := by
  induction events generalizing s features with
  | nil => exact h
  | cons e events ih =>
      cases e with
      | request r => exact ih (h.after hinv r) (inv_after hinv r)
      | features given => exact ih (h.withFeatures given) (inv_withFeatures hinv given)

end Strategy

end SolverPortfolio

import Mathlib.Data.List.Forall2
import SolverPortfolio.Portfolio
import SolverPortfolio.Proofs.Counts
import SolverPortfolio.Proofs.World

/-!
# What a checked portfolio guarantees

The Prop layer over the checks of models and portfolios. A portfolio that passes has
a checked world, and every table its model stores or announces has the
world's shape (`Model.HasShape`).

With a history of the world's shape a prediction has a row per action of the world
(`Model.predict_of_knows`); it can only be refused by an oracle that has no runs for
the task (`Model.predict_of_not_knows`). Whether it is refused does not depend on the
history, so a session that was once predicted for stays so. A mixture adds up the rows of the
history, and stops at one that does not add up (`Model.canRead`, `Model.predict_of_not_canRead`).
-/

namespace SolverPortfolio

/-! ## Results of a check -/

/-- What a list of computations gives, place by place. -/
theorem Decision.forall₂_of_mapM {ε β γ : Type} {f : β → Except ε γ} :
    ∀ {xs : List β} {ys : List γ}, xs.mapM f = .ok ys →
      List.Forall₂ (fun x y => f x = .ok y) xs ys
  | [], _, h => by
      obtain rfl := Except.ok.inj h
      exact .nil
  | x :: xs, ys, h => by
      rw [List.mapM_cons] at h
      obtain ⟨y, hy, h⟩ := bind_eq_ok h
      obtain ⟨ys', hys, h⟩ := bind_eq_ok h
      obtain rfl := Except.ok.inj h
      exact .cons hy (forall₂_of_mapM hys)

theorem Decision.mapM_eq_ok {ε β γ : Type} {f : β → Except ε γ} {xs : List β} {ys : List γ}
    (h : xs.mapM f = .ok ys) : ∀ x ∈ xs, ∃ y ∈ ys, f x = .ok y := by
  have hplaces := forall₂_of_mapM h
  clear h
  induction hplaces with
  | nil => exact fun _ hx => (List.not_mem_nil hx).elim
  | cons hy _ ih =>
      intro x hx
      rcases List.mem_cons.mp hx with rfl | hx
      · exact ⟨_, List.mem_cons_self .., hy⟩
      · obtain ⟨y', hmem, hy'⟩ := ih x hx
        exact ⟨y', List.mem_cons_of_mem _ hmem, hy'⟩

theorem mem_of_lookup {β γ : Type} [BEq β] [LawfulBEq β] {b : β} {c : γ}
    {entries : List (β × γ)} (h : entries.lookup b = some c) : (b, c) ∈ entries := by
  obtain ⟨l₁, l₂, hl, _⟩ := List.lookup_eq_some_iff.mp h
  rw [hl]
  exact List.mem_append_right l₁ (List.mem_cons_self ..)

/-! ## Shapes of models -/

/-- Every table of the model is `nactions` by `noutcomes`. -/
def Model.HasShape {α : Type} (nactions noutcomes : Nat) : Model α → Prop
  | .multinomial p => p.nactions = nactions ∧ p.noutcomes = noutcomes
  | .mixture m => m.nactions = nactions ∧ m.noutcomes = noutcomes
  | .classifier c => c.pooled.nactions = nactions ∧ c.pooled.noutcomes = noutcomes
  | .oracle tables => ∀ t ∈ tables, t.2.nactions = nactions ∧ t.2.noutcomes = noutcomes
  | .random _ na no => na = nactions ∧ no = noutcomes

namespace Portfolio

variable {α : Type}

theorem of_checkShapes {w : World α} {shapes : List (Nat × Nat)}
    (h : checkShapes w shapes = .ok ()) :
    ∀ s ∈ shapes, s.1 = w.nactions ∧ s.2 = w.noutcomes := by
  unfold checkShapes at h
  split at h
  · cases h
  · rename_i hnone
    intro s hs
    have := List.find?_eq_none.mp hnone s hs
    simpa [Prod.ext_iff] using this

variable [Analytic α]

theorem check_of_mem_oracle {tables : List (String × Prediction α)} {shapes : List (Nat × Nat)}
    (h : modelShapes (.oracle tables) = .ok shapes) {t : String × Prediction α}
    (ht : t ∈ tables) : t.2.check = .ok () := by
  obtain ⟨_, _, heq⟩ := Decision.mapM_eq_ok h t ht
  obtain ⟨_, hcheck, _⟩ := Decision.map_eq_ok heq
  exact hcheck

theorem hasShape_of_modelShapes {model : Model α} {shapes : List (Nat × Nat)} {na no : Nat}
    (h : modelShapes model = .ok shapes) (hs : ∀ s ∈ shapes, s.1 = na ∧ s.2 = no) :
    model.HasShape na no := by
  cases model with
  | multinomial p =>
      obtain ⟨_, _, rfl⟩ := Decision.map_eq_ok h
      exact hs _ (List.mem_singleton.mpr rfl)
  | mixture m =>
      obtain ⟨_, _, rfl⟩ := Decision.map_eq_ok h
      exact hs _ (List.mem_singleton.mpr rfl)
  | classifier c =>
      obtain ⟨_, _, rfl⟩ := Decision.map_eq_ok h
      exact hs _ (List.mem_singleton.mpr rfl)
  | oracle tables =>
      intro t ht
      obtain ⟨s, hmem, heq⟩ := Decision.mapM_eq_ok h t ht
      obtain ⟨_, _, rfl⟩ := Decision.map_eq_ok heq
      exact hs _ hmem
  | random seed _ _ =>
      obtain rfl := Except.ok.inj h
      exact hs _ (List.mem_singleton.mpr rfl)

theorem check_eq_ok {p : Portfolio α} (h : p.check = .ok ()) :
    p.world.check = .ok () ∧
      (∃ shapes, modelShapes p.model = .ok shapes ∧ checkShapes p.world shapes = .ok ()) ∧
      isDiscount p.planner.discount = true := by
  obtain ⟨_, hw, h⟩ := Decision.bind_eq_ok h
  obtain ⟨shapes, hshapes, h⟩ := Decision.bind_eq_ok h
  obtain ⟨_, hcheck, h⟩ := Decision.bind_eq_ok h
  refine ⟨hw, ⟨shapes, hshapes, hcheck⟩, ?_⟩
  split at h
  · cases h
  · rename_i hd
    simpa using hd

theorem world_check {p : Portfolio α} (h : p.check = .ok ()) : p.world.check = .ok () :=
  (check_eq_ok h).1

theorem hasShape {p : Portfolio α} (h : p.check = .ok ()) :
    p.model.HasShape p.world.nactions p.world.noutcomes := by
  obtain ⟨_, ⟨shapes, hshapes, hcheck⟩, _⟩ := check_eq_ok h
  exact hasShape_of_modelShapes hshapes (of_checkShapes hcheck)

end Portfolio

/-! ## Predictions -/

/-- The history is a count array of the given shape. -/
def Counts.HasShape (c : Counts) (nactions noutcomes : Nat) : Prop :=
  c.nactions = nactions ∧ c.noutcomes = noutcomes

theorem Counts.HasShape.bump {c : Counts} {na no : Nat} (h : c.HasShape na no) (i d : Nat) :
    (c.bump i d).HasShape na no := h

namespace Model

variable {α : Type}

/-- The model has something to say about the task. -/
def Knows (model : Model α) (task : String) : Prop :=
  match model with
  | .oracle tables => (tables.lookup task).isSome
  | _ => True

theorem guarded_eq_ok {c : Counts} {na no : Nat} {t : Prediction α} (h : c.HasShape na no) :
    guarded c na no t = .ok t := by
  have hif : c.nactions = na ∧ c.noutcomes = no := h
  rw [guarded, Counts.checkShape, if_pos hif]
  rfl

variable [Analytic α] [GammaFunctions α]

/-- The model gets through the history: only a mixture adds up its rows. -/
def canRead (model : Model α) (history : Counts) : Bool :=
  match model with
  | .mixture m => m.canRead history
  | _ => true

/-- Before the first outcome there is nothing to add up. -/
theorem canRead_fresh (model : Model α) (nactions : Nat) :
    model.canRead (Counts.fresh nactions) = true := by
  cases model with
  | mixture m => exact Bool.or_eq_true_iff.mpr (Or.inl (Counts.isZero_fresh nactions))
  | multinomial _ => rfl
  | classifier _ => rfl
  | oracle _ => rfl
  | random _ _ _ => rfl

theorem posterior_of_canRead {model : Model α} {c : Counts} (h : model.canRead c = true) :
    ∃ v, model.posterior c = .ok v := by
  cases model with
  | mixture m =>
      have hm : m.canRead c = true := h
      rw [posterior, hm]
      exact ⟨_, rfl⟩
  | multinomial _ => exact ⟨none, rfl⟩
  | classifier _ => exact ⟨none, rfl⟩
  | oracle _ => exact ⟨none, rfl⟩
  | random _ _ _ => exact ⟨none, rfl⟩

theorem posterior_of_not_canRead {model : Model α} {c : Counts} (h : model.canRead c = false) :
    model.posterior c = .error .overflow := by
  cases model with
  | mixture m =>
      have hm : m.canRead c = false := h
      rw [posterior, hm]
      rfl
  | multinomial _ => cases h
  | classifier _ => cases h
  | oracle _ => cases h
  | random _ _ _ => cases h

/-- Only a history that adds up is predicted for. -/
theorem of_predict_mixture {m : Mixture α} {task : String} {features : Option (FeatureVector α)}
    {c : Counts} {t : Prediction α} (h : (mixture m).predict task features c = .ok t) :
    t = m.predict c ∧ m.canRead c = true := by
  obtain ⟨table, htable, h⟩ := Decision.bind_eq_ok h
  obtain ⟨_, -, rfl⟩ := Decision.map_eq_ok htable
  obtain ⟨_, hread, h⟩ := Decision.bind_eq_ok h
  exact ⟨(Except.ok.inj h).symm, Decision.of_provided hread⟩

/-- A known task is predicted for, with a row per action. -/
theorem predict_of_knows {model : Model α} {na no : Nat} (hm : model.HasShape na no)
    {task : String} (hk : model.Knows task) (features : Option (FeatureVector α)) {c : Counts}
    (hc : c.HasShape na no) (hread : model.canRead c = true) :
    ∃ t, model.predict task features c = .ok t ∧ t.nactions = na := by
  cases model with
  | multinomial p =>
      obtain ⟨rfl, rfl⟩ := hm
      exact ⟨p, guarded_eq_ok hc, rfl⟩
  | mixture m =>
      obtain ⟨rfl, rfl⟩ := hm
      have hm : m.canRead c = true := hread
      refine ⟨m.predict c, ?_, rfl⟩
      rw [predict, guarded_eq_ok hc, hm]
      rfl
  | classifier k =>
      obtain ⟨rfl, rfl⟩ := hm
      refine ⟨k.predict features, guarded_eq_ok hc, ?_⟩
      unfold Classifier.predict
      split
      · rfl
      · split <;> rfl
  | oracle tables =>
      obtain ⟨t, ht⟩ := Option.isSome_iff_exists.mp hk
      refine ⟨t, ?_, (hm (task, t) (mem_of_lookup ht)).1⟩
      simp only [predict, ht]
  | random seed _ _ =>
      obtain ⟨rfl, rfl⟩ := hm
      exact ⟨_, guarded_eq_ok hc, rfl⟩

/-- A history that does not add up is predicted for no more than it has a posterior. -/
theorem predict_of_not_canRead {model : Model α} {na no : Nat} (hm : model.HasShape na no)
    (task : String) (features : Option (FeatureVector α)) {c : Counts} (hc : c.HasShape na no)
    (hread : model.canRead c = false) : model.predict task features c = .error .overflow := by
  cases model with
  | mixture m =>
      obtain ⟨rfl, rfl⟩ := hm
      have hm : m.canRead c = false := hread
      rw [predict, guarded_eq_ok hc, hm]
      rfl
  | multinomial _ => cases hread
  | classifier _ => cases hread
  | oracle _ => cases hread
  | random _ _ _ => cases hread

/-- A task an oracle does not know is refused, whatever the history. -/
theorem predict_of_not_knows {model : Model α} {task : String} (hk : ¬model.Knows task)
    (features : Option (FeatureVector α)) (c : Counts) :
    model.predict task features c = .error (.invalidModel (.unknownTask task)) ∧
      model.posterior c = .ok none := by
  cases model with
  | oracle tables =>
      have hnone : tables.lookup task = none := Option.not_isSome_iff_eq_none.mp hk
      refine ⟨?_, rfl⟩
      simp only [predict, hnone]
  | multinomial _ => exact absurd trivial hk
  | mixture _ => exact absurd trivial hk
  | classifier _ => exact absurd trivial hk
  | random _ _ _ => exact absurd trivial hk

end Model

end SolverPortfolio

import SolverPortfolio.Proofs.Scalar.RoundedDouble
import SolverPortfolio.Proofs.Wire.Portfolio

/-!
# Saved portfolios

A portfolio is built, trained or read from a text (`Portfolio.Obtained`), and in each case its
sizes fit in a word and its tables stand by task (`Portfolio.Obtained.sizes`). So what is read
from the text it is saved as is the portfolio, up to the one number that has no text: a training
log likelihood that is not finite (`Wire.parsePortfolio_portfolioText`).
-/

namespace SolverPortfolio

open Document Json Scalar

namespace Wire

/-! ## What a reader accepts -/

section accepted

variable {δ : Type} [Document δ]

theorem lt_of_readIndex {d : δ} {n : Nat} (h : readIndex? d = some n) : n < wordBound := by
  obtain ⟨k, -, hk⟩ := Option.bind_eq_some_iff.mp h
  split at hk
  · obtain rfl := Option.some.inj hk
    omega
  · cases hk

omit [Document δ] in
theorem exists_of_required {α : Type} {f : Fields δ} {name : String} {read : δ → Option α} {a : α}
    (h : f.required name read = some a) : ∃ v, read v = some a := by
  unfold Fields.required at h
  split at h
  · exact ⟨_, h⟩
  · cases h

omit [Document δ] in
theorem exists_of_defaulted {α : Type} {f : Fields δ} {name : String} {fallback : α}
    {read : δ → Option α} {a : α} (h : f.defaulted name fallback read = some a) :
    fallback = a ∨ ∃ v, read v = some a := by
  unfold Fields.defaulted at h
  split at h
  · exact Or.inr ⟨_, h⟩
  · exact Or.inl (Option.some.inj h)
  · cases h

theorem lt_of_required {f : Fields δ} {name : String} {n : Nat}
    (h : f.required name readIndex? = some n) : n < wordBound := by
  obtain ⟨_, hv⟩ := exists_of_required h
  exact lt_of_readIndex hv

theorem sizes_of_readPrediction {d : δ} {p : Prediction Float} (h : readPrediction? d = some p) :
    ∀ n ∈ p.sizes, n < wordBound := by
  simp only [readPrediction?, Option.bind_eq_bind, Option.bind_eq_some_iff] at h
  obtain ⟨_, -, _, hactions, _, houtcomes, _, -, heq⟩ := h
  obtain rfl := Option.some.inj heq
  simp [Prediction.sizes, lt_of_required hactions, lt_of_required houtcomes]

theorem sizes_of_readMixture {d : δ} {m : Mixture Float} (h : readMixture? d = some m) :
    ∀ n ∈ (Model.mixture m).sizes, n < wordBound := by
  simp only [readMixture?, Option.bind_eq_bind, Option.bind_eq_some_iff] at h
  obtain ⟨_, -, _, -, _, hactions, _, houtcomes, _, -, _, -, _, -, heq⟩ := h
  obtain rfl := Option.some.inj heq
  simp [Model.sizes, lt_of_required hactions, lt_of_required houtcomes]

theorem sizes_of_readClassifier {d : δ} {c : Classifier Float} (h : readClassifier? d = some c) :
    ∀ n ∈ c.pooled.sizes, n < wordBound := by
  simp only [readClassifier?, Option.bind_eq_bind, Option.bind_eq_some_iff] at h
  obtain ⟨_, -, _, -, _, -, _, -, _, -, _, hpooled, heq⟩ := h
  obtain rfl := Option.some.inj heq
  obtain ⟨_, hpooled⟩ := exists_of_required hpooled
  exact sizes_of_readPrediction hpooled

theorem exists_of_mapM {α β : Type} {f : α → Option β} : ∀ {xs : List α} {ys : List β},
    xs.mapM f = some ys → ∀ y ∈ ys, ∃ x ∈ xs, f x = some y
  | [], ys, h, y, hy => by
      obtain rfl : [] = ys := Option.some.inj h
      cases hy
  | x :: xs, ys, h, y, hy => by
      simp only [List.mapM_cons, Option.bind_eq_bind, Option.bind_eq_some_iff] at h
      obtain ⟨z, hz, zs, hzs, heq⟩ := h
      obtain rfl : z :: zs = ys := Option.some.inj heq
      rcases List.mem_cons.mp hy with rfl | hy
      · exact ⟨x, List.mem_cons_self, hz⟩
      · obtain ⟨x', hx', hf⟩ := exists_of_mapM hzs y hy
        exact ⟨x', List.mem_cons_of_mem _ hx', hf⟩

theorem sorted_of_readTables {d : δ} {tables : List (String × Prediction Float)}
    (h : readTables? d = some tables) :
    SortedByName tables ∧ ∀ t ∈ tables, ∀ n ∈ t.2.sizes, n < wordBound := by
  simp only [readTables?, Option.bind_eq_bind, Option.bind_eq_some_iff] at h
  obtain ⟨entries, -, read, hread, heq⟩ := h
  obtain rfl := Option.some.inj heq
  refine ⟨sortedByName_foldl .nil read, fun t ht => ?_⟩
  rcases mem_of_mem_foldl t ht with ht | ht
  · cases ht
  · obtain ⟨e, -, he⟩ := exists_of_mapM hread t ht
    obtain ⟨p, hp, heq⟩ := Option.bind_eq_some_iff.mp he
    obtain rfl := Option.some.inj heq
    exact sizes_of_readPrediction hp

theorem sizes_of_readModelOf {kind : String} {d : δ} {model : Model Float}
    (h : readModelOf? kind d = some model) :
    (∀ n ∈ model.sizes, n < wordBound) ∧ model.IsSorted := by
  unfold readModelOf? at h
  simp only [Option.bind_eq_bind] at h
  split_ifs at h
  all_goals simp only [Option.bind_eq_some_iff] at h
  · obtain ⟨_, -, _, hp, heq⟩ := h
    obtain rfl := Option.some.inj heq
    obtain ⟨_, hp⟩ := exists_of_required hp
    exact ⟨sizes_of_readPrediction hp, trivial⟩
  · obtain ⟨_, -, _, hm, heq⟩ := h
    obtain rfl := Option.some.inj heq
    obtain ⟨_, hm⟩ := exists_of_required hm
    exact ⟨sizes_of_readMixture hm, trivial⟩
  · obtain ⟨_, -, _, hc, heq⟩ := h
    obtain rfl := Option.some.inj heq
    obtain ⟨_, hc⟩ := exists_of_required hc
    exact ⟨sizes_of_readClassifier hc, trivial⟩
  · obtain ⟨_, -, _, htables, heq⟩ := h
    obtain rfl := Option.some.inj heq
    obtain ⟨_, htables⟩ := exists_of_required htables
    obtain ⟨hsorted, hsizes⟩ := sorted_of_readTables htables
    refine ⟨fun n hn => ?_, hsorted⟩
    obtain ⟨t, ht, hn⟩ := List.mem_flatMap.mp hn
    exact hsizes t ht n hn
  · obtain ⟨_, -, _, -, _, hactions, _, houtcomes, heq⟩ := h
    obtain rfl := Option.some.inj heq
    refine ⟨?_, trivial⟩
    simp [Model.sizes, lt_of_required hactions, lt_of_required houtcomes]

end accepted

/-- Sizes that are read fit in a word, and the tables of an oracle come out sorted. -/
theorem sizes_of_parsePortfolio {text : String} {p : Portfolio Float}
    (h : parsePortfolio text = .ok p) : (∀ n ∈ p.sizes, n < wordBound) ∧ p.model.IsSorted := by
  have hread : ∃ j, readPortfolio? j = some p := by
    unfold parsePortfolio at h
    split at h
    · cases h
    · unfold loadPortfolio at h
      split at h
      · cases h
      · rename_i hp
        obtain ⟨_, -, rfl⟩ := Decision.map_eq_ok h
        exact ⟨_, hp⟩
  obtain ⟨j, hj⟩ := hread
  simp only [readPortfolio?, Option.bind_eq_bind, Option.bind_eq_some_iff] at hj
  obtain ⟨_, -, w, hw, model, hmodel, s, hs, heq⟩ := hj
  obtain rfl := Option.some.inj heq
  obtain ⟨_, hw⟩ := exists_of_required hw
  obtain ⟨_, hmodel⟩ := exists_of_required hmodel
  obtain ⟨_, hs⟩ := exists_of_required hs
  have hladder : w.ladder.size < wordBound := by
    simp only [readWorld?, Option.bind_eq_bind, Option.bind_eq_some_iff] at hw
    obtain ⟨_, -, _, -, l, hl, heq⟩ := hw
    obtain rfl := Option.some.inj heq
    obtain ⟨_, hl⟩ := exists_of_required hl
    simp only [readLadder?, Option.bind_eq_bind, Option.bind_eq_some_iff] at hl
    obtain ⟨_, -, _, -, _, hsize, heq⟩ := hl
    obtain rfl := Option.some.inj heq
    exact lt_of_required hsize
  have hhorizon : s.horizon < wordBound := by
    simp only [readPlanner?, Option.bind_eq_bind, Option.bind_eq_some_iff] at hs
    obtain ⟨_, -, _, -, _, -, _, -, _, hhorizon, heq⟩ := hs
    obtain rfl := Option.some.inj heq
    rcases exists_of_defaulted hhorizon with rfl | ⟨_, hv⟩
    · show (PlannerSettings.default (α := Float)).horizon < _
      decide
    · exact lt_of_readIndex hv
  obtain ⟨⟨_, _⟩, -, hmodel⟩ := Option.bind_eq_some_iff.mp hmodel
  obtain ⟨hsizes, hsorted⟩ := sizes_of_readModelOf hmodel
  refine ⟨?_, hsorted⟩
  intro n hn
  rcases List.mem_cons.mp hn with rfl | hn
  · exact hladder
  · rcases List.mem_cons.mp hn with rfl | hn
    · exact hhorizon
    · exact hsizes n hn

end Wire

/-! ## Saving and reading -/

/-- How a portfolio comes about: it is built from parts, trained, or read. The sizes of parts are
words and so is the number of actions, and a table of an oracle is looked up by its task. -/
inductive Portfolio.Obtained (p : Portfolio Float) : Prop where
  | built {w : World Float} {model : Model Float} {s : PlannerSettings Float}
      (h : build w model s = .ok p) (hsizes : ∀ n ∈ p.sizes, n < wordBound)
      (hsorted : p.model.IsSorted)
  | trained {s : Settings Float} {e : Randomness.Entropy} {source : Option (FeatureSource Float)}
      {solvers : List String} {store : RunStore Float} (h : s.train e source solvers store = .ok p)
      (hactions : p.world.nactions < wordBound) (hhorizon : p.planner.horizon < wordBound)
  | parsed {text : String} (h : Wire.parsePortfolio text = .ok p)

theorem Portfolio.Obtained.check {p : Portfolio Float} (h : p.Obtained) : p.check = .ok () := by
  cases h with
  | built h _ _ => exact check_of_build h
  | trained h _ _ =>
      obtain ⟨_, _, _, -, hbuild⟩ := Settings.exists_build_of_train h
      exact check_of_build hbuild
  | parsed h => exact Wire.check_of_parsePortfolio h

theorem Portfolio.Obtained.sizes {p : Portfolio Float} (h : p.Obtained) :
    (∀ n ∈ p.sizes, n < wordBound) ∧ p.model.IsSorted := by
  have hcheck := h.check
  cases h with
  | built _ hsizes hsorted => exact ⟨hsizes, hsorted⟩
  | trained h hactions hhorizon =>
      obtain ⟨_, _, _, hmodel, hbuild⟩ := Settings.exists_build_of_train h
      obtain ⟨_, -, rfl⟩ := Decision.map_eq_ok hbuild
      exact ⟨sizes_lt hcheck hactions (by decide) hhorizon, Model.isSorted_of_fitModel hmodel⟩
  | parsed h => exact Wire.sizes_of_parsePortfolio h

namespace Wire

/-- Nothing is written for a training log likelihood that is not finite. -/
theorem writePortfolio_stored (p : Portfolio Float) :
    writePortfolio p.stored = writePortfolio p := by
  have hmodel : writeModel p.model.stored = writeModel p.model := by
    cases p.model with
    | mixture m =>
        have hscore : option double (m.trainingLogLikelihood.filter isFinite) =
            option double m.trainingLogLikelihood := by
          cases hm : m.trainingLogLikelihood with
          | none => rfl
          | some x =>
              rw [Option.filter_some]
              split
              · rfl
              · rename_i hx
                exact (double_of_not_finite (Bool.eq_false_iff.mpr hx)).symm
        rw [Model.stored, writeModel, writeModel, writeMixture, writeMixture, hscore]
    | multinomial _ | classifier _ | oracle _ | random _ _ _ => rfl
  rw [writePortfolio, writePortfolio, Portfolio.stored, hmodel]

/-- **A portfolio is read from the text it is saved as.** If its finite doubles are read back one
by one, then reading succeeds, the result is saved as the same text, and it is the portfolio itself
exactly if there is no training log likelihood or a finite one. -/
theorem parsePortfolio_portfolioText {p : Portfolio Float} (hp : p.Obtained)
    (hdoubles : ∀ x ∈ p.scalars, isFinite x = true → ReadsBack x) :
    parsePortfolio (portfolioText p) = .ok p.stored ∧
      portfolioText p.stored = portfolioText p ∧
        (p.stored = p ↔ ∀ x ∈ p.model.score?, isFinite x = true) := by
  obtain ⟨hsizes, hsorted⟩ := hp.sizes
  -- The text is that of the part that can be stored, of which the reader gives back all.
  have htext : portfolioText p.stored = portfolioText p := by
    rw [portfolioText, writePortfolio_stored, portfolioText]
  have hstorable : p.stored.IsStorable := by
    refine ⟨?_, ?_, Model.isSorted_stored hsorted⟩
    · rwa [Portfolio.sizes_stored]
    · intro x hx
      exact hdoubles x (Portfolio.mem_scalars_of_stored x hx)
        (Portfolio.isFinite_of_mem_scalars hp.check x hx)
  refine ⟨?_, htext, Portfolio.stored_eq_iff⟩
  rw [← htext, parsePortfolio_eq hstorable, Portfolio.check_stored, hp.check]
  rfl

/-- A mixture that found its training set impossible, over one action. -/
def hopeless : Portfolio Float where
  world := ⟨["a"], ⟨10, 1⟩⟩
  model := .mixture ⟨.dcm, 1, 3, [1], [[0.5, 0.5, 0.25]], some (-infinity)⟩
  planner := ⟨.bellman, false, 0.25, 2⟩

theorem parsePortfolio_portfolioText_hopeless :
    hopeless.Obtained ∧ (∀ x ∈ hopeless.scalars, isFinite x = true → ReadsBack x) ∧
      parsePortfolio (portfolioText hopeless) = .ok hopeless.stored ∧
        portfolioText hopeless.stored = portfolioText hopeless ∧ hopeless.stored ≠ hopeless := by
  have hbuild : Portfolio.build hopeless.world hopeless.model hopeless.planner = .ok hopeless :=
    rfl
  have hobtained : hopeless.Obtained := .built hbuild (by decide) trivial
  have hdoubles : ∀ x ∈ hopeless.scalars, isFinite x = true → ReadsBack x := by
    have hbits : ∀ x ∈ hopeless.scalars, isFinite x = true →
        (toDouble? (double x)).map Float.toBits = some x.toBits := by decide +kernel
    exact fun x hx hfinite => readsBack_of_toBits (hbits x hx hfinite)
  obtain ⟨hparse, htext, hiff⟩ := parsePortfolio_portfolioText hobtained hdoubles
  refine ⟨hobtained, hdoubles, hparse, htext, fun heq => ?_⟩
  have hfinite : isFinite (-infinity : Float) = true := hiff.mp heq _ rfl
  exact absurd hfinite (by decide)

end Wire

end SolverPortfolio

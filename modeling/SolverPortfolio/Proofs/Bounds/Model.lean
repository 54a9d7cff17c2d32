import SolverPortfolio.Proofs.Bounds.Access
import SolverPortfolio.Proofs.Counts

/-!
# Models stay within bounds

The checked counterparts of prediction and posterior, for every kind of model, and that
they have the results they should for a model of the right size and a history with a cell
per action and outcome.

A component of a mixture is looked up by the number of its weight, and its parameters by
the action; a distribution is added to a row of scores of its length. A classifier looks up
the bias of an action, its row in the pooled table and the solved entries of that row.
-/

namespace SolverPortfolio

open Scalar Analytic

variable {α : Type}

/-! ## Parameters and shapes -/

namespace Mixture

def parameters? (m : Mixture α) (k action : Nat) : Option (List α) := do
  let component ← m.components[k]?
  slice? component (action * m.noutcomes) m.noutcomes

variable {m : Mixture α} {n : Nat}

theorem component_mem {k : Nat} (hk : k < m.components.length) : m.component k ∈ m.components := by
  rw [component, List.getD_eq_getElem?_getD, List.getElem?_eq_getElem hk, Option.getD_some]
  exact List.getElem_mem hk

theorem parameters?_eq_some (hm : (Model.mixture m).IsSized n) {k a : Nat}
    (hk : k < m.components.length) (ha : a < n) :
    m.parameters? k a = some (m.parameters (m.component k) a) := by
  obtain ⟨_, ho, _, hlen⟩ := hm
  have hcomponent : (m.component k).length = n * m.noutcomes := by
    rw [hlen _ (component_mem hk), ho]
  rw [parameters?, getElem?_eq_some_getD hk []]
  exact slice?_row hcomponent ha

end Mixture

namespace Model

/-- The table is only worked out for a history of the model's shape. -/
def guarded? (history : Counts) (nactions noutcomes : Nat)
    (table : Option (Decision α (Prediction α))) : Option (Decision α (Prediction α)) :=
  match Decision.ofShape (history.checkShape nactions noutcomes) with
  | .ok () => table
  | .error e => some (.error e)

theorem guarded?_some (c : Counts) (na no : Nat) (t : Prediction α) :
    guarded? c na no (some (.ok t)) = some (guarded c na no t) := by
  rw [guarded?, guarded]
  cases (Decision.ofShape (c.checkShape na no) : Decision α Unit) <;> rfl

end Model

variable [Analytic α]

/-! ## Mixtures -/

namespace Mixture

/-- A distribution is only added to a row of its length. -/
def addScaled? (scores : List α) (weight : α) (distribution : List α) : Option (List α) :=
  if distribution.length = scores.length then some (addScaled scores weight distribution)
  else none

def actionScores? (m : Mixture α) (history : Counts) (posterior : List α) (action : Nat) :
    Option (List α) := do
  let row ← history.row? action
  (posterior.zipIdx.filter fun x => !(x.1 == 0)).foldlM
    (fun scores x => do
      let parameters ← m.parameters? x.2 action
      addScaled? scores x.1 (predictive m.family parameters row))
    (List.replicate m.noutcomes 0)

section

variable [GammaFunctions α]

/-- What an action adds to the log likelihood, if it was run at all. -/
def actionLogLikelihood? (m : Mixture α) (k : Nat) (c : Counts) (action : Nat) :
    Option (Option α) := do
  if (← c.totalAt? action) != some 0 then
    let parameters ← m.parameters? k action
    let row ← c.row? action
    return some (actionLogLikelihood m.family parameters row)
  else return none

/-- Within bounds there may still be a total that is not a word. -/
def logLikelihoodAt? (m : Mixture α) (k : Nat) (c : Counts) : Option (Option α) := do
  let totals ← (List.range m.nactions).mapM c.totalAt?
  let terms ← (List.range m.nactions).mapM (m.actionLogLikelihood? k c)
  return if totals.all Option.isSome then some (sum (terms.filterMap id)) else none

def posterior? (m : Mixture α) (history : Counts) : Option (Option (List α)) :=
  if history.isZero then some (some m.weights)
  else do
    let logs ← m.weights.zipIdx.mapM fun x => do
      return (← m.logLikelihoodAt? x.2 history).map (ln x.1 + ·)
    return (logs.mapM id).map LogSpace.normalizeLogs

def predict? (m : Mixture α) (history : Counts) : Option (Decision α (Prediction α)) := do
  match ← m.posterior? history with
  | none => return .error .overflow
  | some posterior =>
    let rows ← (List.range m.nactions).mapM (m.actionScores? history posterior)
    return .ok (.ofScores m.nactions m.noutcomes rows)

end

variable {m : Mixture α} {n : Nat} {c : Counts}

theorem actionScores?_eq_some (hm : (Model.mixture m).IsSized n) (hc : c.Tallies n)
    {posterior : List α} (hp : posterior.length = m.components.length) {a : Nat} (ha : a < n) :
    m.actionScores? c posterior a = some (m.actionScores c posterior a) := by
  -- Every row of scores along the fold has an entry per outcome.
  have hfold : ∀ (xs : List (α × Nat)) (scores : List α), (∀ x ∈ xs, x.2 < m.components.length) →
      scores.length = OutcomeKind.count →
      xs.foldlM (fun scores x => do
          let parameters ← m.parameters? x.2 a
          addScaled? scores x.1 (predictive m.family parameters (c.row a))) scores =
        some (xs.foldl (fun scores x => addScaled scores x.1
          (predictive m.family (m.parameters (m.component x.2) a) (c.row a))) scores) := by
    intro xs
    induction xs with
    | nil =>
        intro scores _ _
        rfl
    | cons x xs ih =>
        intro scores hxs hlen
        have hk := hxs x (List.mem_cons_self ..)
        have hlen' : (predictive m.family (m.parameters (m.component x.2) a) (c.row a)).length =
            OutcomeKind.count :=
          length_predictive m.family (length_parameters hm (component_mem hk) ha) (hc.length_row ha)
        rw [List.foldlM_cons, List.foldl_cons, parameters?_eq_some hm hk ha]
        simp only [Option.bind_eq_bind, Option.bind_some]
        rw [addScaled?, if_pos (hlen'.trans hlen.symm), Option.bind_some]
        refine ih _ (fun y hy => hxs y (List.mem_cons_of_mem _ hy)) ?_
        rw [addScaled, List.length_zipWith, hlen, hlen', Nat.min_self]
  rw [actionScores?, hc.row? ha, actionScores, zip_eq_map_zipIdx [] hp, List.filter_map,
    List.foldl_map]
  refine hfold _ _ (fun x hx => ?_) (by rw [List.length_replicate, hm.2.1])
  exact hp ▸ (List.mem_zipIdx' (List.mem_filter.mp hx).1).1

variable [GammaFunctions α]

theorem logLikelihoodAt?_eq_some (hm : (Model.mixture m).IsSized n) (hc : c.Tallies n) {k : Nat}
    (hk : k < m.components.length) :
    m.logLikelihoodAt? k c = some (m.logLikelihood? (m.component k) c) := by
  have htotals : (List.range m.nactions).mapM c.totalAt? =
      some ((List.range m.nactions).map c.total?) :=
    mapM_eq_some fun a ha => hc.totalAt? (hm.1 ▸ List.mem_range.mp ha)
  have hterms : (List.range m.nactions).mapM (m.actionLogLikelihood? k c) =
      some ((List.range m.nactions).map fun a => if c.total a != 0 then
        some (actionLogLikelihood m.family (m.parameters (m.component k) a) (c.row a))
      else none) := by
    refine mapM_eq_some fun a ha => ?_
    have ha' : a < n := hm.1 ▸ List.mem_range.mp ha
    rw [actionLogLikelihood?, hc.totalAt? ha', hc.row? ha', parameters?_eq_some hm hk ha']
    simp only [Option.bind_eq_bind, Option.bind_some, Counts.total?_bne]
    split <;> rfl
  rw [logLikelihoodAt?, htotals, hterms, logLikelihood?, logLikelihood, Counts.observed,
    Counts.hasTotals]
  simp only [Option.bind_eq_bind, Option.bind_some, filterMap_some_if, List.all_map]
  rfl

/-- The logarithms are there together or not at all. -/
theorem mapM_jointLogs (hm : (Model.mixture m).IsSized n) (c : Counts) :
    (m.weights.zipIdx.map fun x =>
        (m.logLikelihood? (m.component x.2) c).map (ln x.1 + ·)).mapM id =
      if m.components.all fun component => (m.logLikelihood? component c).isSome then
        some (m.jointLogs c)
      else none := by
  have hjoint : m.jointLogs c =
      m.weights.zipIdx.map fun x => ln x.1 + m.logLikelihood (m.component x.2) c := by
    rw [jointLogs, ← List.map_uncurry_zip_eq_zipWith, zip_eq_map_zipIdx [] hm.2.2.1, List.map_map]
    rfl
  rw [List.mapM_map, Function.id_comp, hjoint]
  by_cases htotals : c.hasTotals m.nactions = true
  · have hsome : ∀ component, m.logLikelihood? component c = some (m.logLikelihood component c) :=
      fun component => if_pos htotals
    rw [if_pos (List.all_eq_true.mpr fun component _ => by rw [hsome]; rfl)]
    exact mapM_eq_some fun x _ => by rw [hsome]; rfl
  · have hnone : ∀ component, m.logLikelihood? component c = none :=
      fun component => if_neg htotals
    simp only [hnone]
    have hlength := hm.2.2.1
    cases hcomponents : m.components with
    | nil =>
        rw [hcomponents, List.length_nil, List.length_eq_zero_iff] at hlength
        rw [hlength]
        rfl
    | cons component components =>
        cases hweights : m.weights with
        | nil =>
            rw [hcomponents, hweights] at hlength
            cases hlength
        | cons w ws => rfl

theorem posterior?_eq_some (hm : (Model.mixture m).IsSized n) (hc : c.Tallies n) :
    m.posterior? c = some (if m.canRead c then some (m.posterior c) else none) := by
  rw [posterior?, canRead, posterior]
  cases hzero : c.isZero with
  | true => rfl
  | false =>
      have hlogs : (m.weights.zipIdx.mapM fun x => do
            return (← m.logLikelihoodAt? x.2 c).map (ln x.1 + ·)) =
          some (m.weights.zipIdx.map fun x =>
            (m.logLikelihood? (m.component x.2) c).map (ln x.1 + ·)) := by
        refine mapM_eq_some fun x hx => ?_
        have hk : x.2 < m.components.length := hm.2.2.1 ▸ (List.mem_zipIdx' hx).1
        rw [logLikelihoodAt?_eq_some hm hc hk]
        rfl
      rw [hlogs]
      simp only [Option.bind_eq_bind, Option.bind_some, mapM_jointLogs hm, Bool.false_or,
        Bool.false_eq_true, if_false]
      split <;> rfl

theorem length_posterior (hm : (Model.mixture m).IsSized n) (c : Counts) :
    (m.posterior c).length = m.components.length := by
  have hjoint : (m.jointLogs c).length = m.components.length := by
    rw [jointLogs, List.length_zipWith, hm.2.2.1, Nat.min_self]
  rw [posterior]
  split
  · exact hm.2.2.1
  · rw [LogSpace.normalizeLogs]
    split
    · rw [List.length_map, hjoint]
    · rw [LogSpace.uniform, List.length_replicate, hjoint]

theorem predict?_eq_some (hm : (Model.mixture m).IsSized n) (hc : c.Tallies n) :
    m.predict? c = some ((Decision.provided (m.canRead c)).map fun _ => m.predict c) := by
  have hrows : (List.range m.nactions).mapM (m.actionScores? c (m.posterior c)) =
      some ((List.range m.nactions).map (m.actionScores c (m.posterior c))) :=
    mapM_eq_some fun a ha =>
      actionScores?_eq_some hm hc (length_posterior hm c) (hm.1 ▸ List.mem_range.mp ha)
  rw [predict?, posterior?_eq_some hm hc]
  cases m.canRead c with
  | false => rfl
  | true =>
      simp only [if_true, Option.bind_eq_bind, Option.bind_some, hrows]
      rfl

end Mixture

/-! ## Classifiers -/

namespace Classifier

def linear? (weights row : List α) : Option α := do
  let bias ← weights[0]?
  return bias + sum (List.zipWith (· * ·) weights.tail row)

def solvedMass? (noutcomes : Nat) (pooled : List α) : Option α := do
  let solved ← ((List.range noutcomes).filter (· != OutcomeKind.unsolved.index)).mapM (pooled[·]?)
  return sum solved

def actionScores? (c : Classifier α) (weights row : List α) (action : Nat) :
    Option (List α) := do
  let x ← linear? weights row
  let pooled ← c.pooled.row? action
  let mass ← solvedMass? c.noutcomes pooled
  return pooled.zipIdx.map fun (p, d) => splitScore (sigmoid x) mass d p

def predict? (c : Classifier α) (features : Option (FeatureVector α)) :
    Option (Prediction α) :=
  match features with
  | none => some c.pooled
  | some v =>
    if v.isEmpty then some c.pooled
    else do
      let rows ← c.weights.zipIdx.mapM fun (weights, a) => c.actionScores? weights (c.rowOf v) a
      return .ofScores c.nactions c.noutcomes rows

theorem linear?_eq_some {weights : List α} (h : weights ≠ []) (row : List α) :
    linear? weights row = some (linear weights row) := by
  cases weights with
  | nil => exact absurd rfl h
  | cons bias weights => rfl

theorem solvedMass?_eq_some {pooled : List α} {n : Nat} (h : pooled.length = n) :
    solvedMass? n pooled = some (solvedMass pooled) := by
  subst h
  have hsolved : ((List.range pooled.length).filter (· != OutcomeKind.unsolved.index)).mapM
      (pooled[·]?) = some (((List.range pooled.length).filter
        (· != OutcomeKind.unsolved.index)).map (pooled.getD · 0)) :=
    mapM_eq_some fun d hd =>
      getElem?_eq_some_getD (List.mem_range.mp (List.mem_filter.mp hd).1) 0
  rw [solvedMass?, hsolved, solvedMass, zipIdx_eq_map_range pooled 0, List.filter_map,
    List.map_map]
  rfl

variable {k : Classifier α} {n : Nat}

theorem actionScores?_eq_some (hk : (Model.classifier k).IsSized n) {weights : List α}
    (hw : weights ∈ k.weights) (row : List α) {a : Nat} (ha : a < n) :
    k.actionScores? weights row a =
      some (actionScores (k.pooled.row a) (sigmoid (linear weights row))) := by
  have hne : weights ≠ [] := by
    intro hnil
    have := hk.2.2 weights hw
    rw [hnil] at this
    cases this
  rw [actionScores?, linear?_eq_some hne, hk.1.row? ha]
  simp only [Option.bind_eq_bind, Option.bind_some]
  rw [solvedMass?_eq_some (by rw [hk.1.length_row ha, noutcomes, hk.1.noutcomes])]
  rfl

theorem predict?_eq_some (hk : (Model.classifier k).IsSized n)
    (features : Option (FeatureVector α)) : k.predict? features = some (k.predict features) := by
  cases features with
  | none => rfl
  | some v =>
      rw [predict?, predict]
      by_cases hv : v.isEmpty = true
      · simp only [hv, if_true]
      · simp only [hv, Bool.false_eq_true, if_false]
        rw [mapM_eq_some (g := fun x =>
          actionScores (k.pooled.row x.2) (sigmoid (linear x.1 (k.rowOf v)))) fun x hx => ?_]
        · rfl
        · obtain ⟨hlt, hget⟩ := List.mem_zipIdx' hx
          exact actionScores?_eq_some hk (hget ▸ List.getElem_mem hlt) _ (hk.2.1 ▸ hlt)

end Classifier

/-! ## Models -/

namespace Model

def randomTable? (seed : UInt64) (nactions noutcomes : Nat) (history : Counts) :
    Option (Prediction α) := do
  let rows ← history.rows?
  let hash := rows.flatten.foldl (fun h c => (h ^^^ c.toUInt64) * 0x100000001b3)
    (seed ^^^ 0xcbf29ce484222325)
  let noise := (Randomness.Stream.ofSeed hash).takeRows noutcomes nactions
  return .ofScores nactions noutcomes noise.1

variable [GammaFunctions α]

def posterior? (model : Model α) (history : Counts) : Option (Decision α (Option (List α))) :=
  match model with
  | .mixture m => (m.posterior? history).map fun p => (Decision.inWords p).map some
  | _ => some (.ok none)

def predict? (model : Model α) (task : String) (features : Option (FeatureVector α))
    (history : Counts) : Option (Decision α (Prediction α)) :=
  match model with
  | .multinomial p => guarded? history p.nactions p.noutcomes (some (.ok p))
  | .mixture m => guarded? history m.nactions m.noutcomes (m.predict? history)
  | .classifier c => guarded? history c.nactions c.noutcomes ((c.predict? features).map .ok)
  | .oracle tables =>
    match tables.lookup task with
    | some p => some (.ok p)
    | none => some (.error (.invalidModel (.unknownTask task)))
  | .random seed nactions noutcomes =>
    guarded? history nactions noutcomes ((randomTable? seed nactions noutcomes history).map .ok)

variable {model : Model α} {n : Nat} {c : Counts}

theorem posterior?_eq_some (hm : model.IsSized n) (hc : c.Tallies n) :
    model.posterior? c = some (model.posterior c) := by
  cases model with
  | mixture m =>
      rw [posterior?, Mixture.posterior?_eq_some hm hc, posterior]
      cases m.canRead c <;> rfl
  | multinomial _ => rfl
  | classifier _ => rfl
  | oracle _ => rfl
  | random _ _ _ => rfl

theorem predict?_eq_some (hm : model.IsSized n) (hc : c.Tallies n) (task : String)
    (features : Option (FeatureVector α)) :
    model.predict? task features c = some (model.predict task features c) := by
  cases model with
  | multinomial p => exact guarded?_some c p.nactions p.noutcomes p
  | mixture m =>
      rw [predict?, Mixture.predict?_eq_some hm hc, predict, guarded?, guarded]
      cases (Decision.ofShape (c.checkShape m.nactions m.noutcomes) : Decision α Unit) with
      | error e => rfl
      | ok _ => cases m.canRead c <;> rfl
  | classifier k =>
      rw [predict?, Classifier.predict?_eq_some hm]
      exact guarded?_some ..
  | oracle tables =>
      rw [predict?, predict]
      cases tables.lookup task <;> rfl
  | random seed na no =>
      rw [predict?, randomTable?, hc.rows?]
      exact guarded?_some ..

end Model

end SolverPortfolio

import SolverPortfolio.Proofs.Json.Documents
import SolverPortfolio.Proofs.Portfolio.Stored
import SolverPortfolio.Wire.Portfolio

/-!
# Portfolios read from what was written for them

Every writer has a reader, and the reader undoes the writer wherever the sizes fit in a word, the
doubles are read back and the tables of an oracle stand by task (`Portfolio.IsStorable`). A lemma
of either kind is stated once per record: what is written can be saved (`isSavable_write…`), and
what was written is read (`read…_write…`). A model is held until its kind is known, so the readers
are looked at under any view of the tree.

Together with the text of the tree this makes reading a text the check of the portfolio it was
written for (`Wire.parsePortfolio_eq`).
-/

namespace SolverPortfolio

open Document Json Scalar

/-! ## What can be saved -/

/-- Sizes that fit in a word, numbers that are read back, and tables by task. -/
structure Model.IsStorable (model : Model Float) : Prop where
  sizes : ∀ n ∈ model.sizes, n < wordBound
  scalars : ∀ x ∈ model.scalars, ReadsBack x
  sorted : model.IsSorted

structure Portfolio.IsStorable (p : Portfolio Float) : Prop where
  sizes : ∀ n ∈ p.sizes, n < wordBound
  scalars : ∀ x ∈ p.scalars, ReadsBack x
  sorted : p.model.IsSorted

theorem Portfolio.IsStorable.model {p : Portfolio Float} (h : p.IsStorable) :
    p.model.IsStorable where
  sizes n hn := h.sizes n (List.mem_cons_of_mem _ (List.mem_cons_of_mem _ hn))
  scalars x hx := h.scalars x (List.mem_cons_of_mem _ (List.mem_cons_of_mem _ hx))
  sorted := h.sorted

namespace Wire

/-! ## Written trees -/

theorem isSavable_doubles {xs : List Float} (h : ∀ x ∈ xs, ReadsBack x) (n : Nat) :
    IsSavable (n + 1) (list double xs) :=
  isSavable_list fun x hx => isSavable_double (h x hx) n

theorem isSavable_rows {rows : List (List Float)} (h : ∀ x ∈ rows.flatten, ReadsBack x) (n : Nat) :
    IsSavable (n + 2) (list (list double) rows) :=
  isSavable_list fun row hrow => isSavable_doubles
    (fun x hx => h x (List.mem_flatten.mpr ⟨row, hrow, hx⟩)) n

theorem isSavable_strings (xs : List String) (n : Nat) : IsSavable (n + 1) (strings xs) :=
  isSavable_list fun x _ => isSavable_string n x

theorem isSavable_writePrediction {p : Prediction Float} (hsizes : ∀ n ∈ p.sizes, n < wordBound)
    (hdoubles : ∀ x ∈ p.probabilities, ReadsBack x) (n : Nat) :
    IsSavable (n + 2) (writePrediction p) := by
  have hactions := isSavable_nat (hsizes p.nactions (by simp [Prediction.sizes])) (n + 1)
  have houtcomes := isSavable_nat (hsizes p.noutcomes (by simp [Prediction.sizes])) (n + 1)
  have hprobabilities := isSavable_doubles hdoubles n
  refine isSavable_object ?_
  simp [hactions, houtcomes, hprobabilities]

theorem isSavable_writeMixture {m : Mixture Float}
    (hsizes : ∀ n ∈ (Model.mixture m).sizes, n < wordBound)
    (hdoubles : ∀ x ∈ (Model.mixture m).scalars, ReadsBack x) (n : Nat) :
    IsSavable (n + 3) (writeMixture m) := by
  simp only [Model.scalars, List.mem_append, or_imp, forall_and, Option.mem_toList] at hdoubles
  obtain ⟨⟨hweights, hcomponents⟩, hscore⟩ := hdoubles
  have hfamily := isSavable_string (n + 2) (familyName m.family)
  have hactions := isSavable_nat (hsizes m.nactions (by simp [Model.sizes])) (n + 2)
  have houtcomes := isSavable_nat (hsizes m.noutcomes (by simp [Model.sizes])) (n + 2)
  have hweights := isSavable_doubles hweights (n + 1)
  have hcomponents := isSavable_rows hcomponents n
  have hscore : IsSavable (n + 2) (option double m.trainingLogLikelihood) :=
    isSavable_option fun x hx => isSavable_double (hscore x hx) _
  refine isSavable_object ?_
  simp [hfamily, hactions, houtcomes, hweights, hcomponents, hscore]

theorem isSavable_writeClassifier {c : Classifier Float}
    (hsizes : ∀ n ∈ c.pooled.sizes, n < wordBound)
    (hdoubles : ∀ x ∈ (Model.classifier c).scalars, ReadsBack x) (n : Nat) :
    IsSavable (n + 3) (writeClassifier c) := by
  simp only [Model.scalars, List.mem_append, or_imp, forall_and] at hdoubles
  obtain ⟨⟨⟨hmeans, hscales⟩, hweights⟩, hpooled⟩ := hdoubles
  have hnames := isSavable_strings c.names (n + 1)
  have hmeans := isSavable_doubles hmeans (n + 1)
  have hscales := isSavable_doubles hscales (n + 1)
  have hweights := isSavable_rows hweights n
  have hpooled := isSavable_writePrediction hsizes hpooled n
  refine isSavable_object ?_
  simp [hnames, hmeans, hscales, hweights, hpooled]

theorem isSavable_writeTables {tables : List (String × Prediction Float)}
    (hsizes : ∀ t ∈ tables, ∀ n ∈ t.2.sizes, n < wordBound)
    (hdoubles : ∀ t ∈ tables, ∀ x ∈ t.2.probabilities, ReadsBack x) (n : Nat) :
    IsSavable (n + 3) (writeTables tables) := by
  refine isSavable_object fun f hf => ?_
  obtain ⟨t, ht, rfl⟩ := List.mem_map.mp hf
  exact isSavable_writePrediction (hsizes t ht) (hdoubles t ht) n

theorem isSavable_writeWorld {w : World Float} (hstep : ReadsBack w.ladder.step)
    (hsize : w.ladder.size < wordBound) (n : Nat) : IsSavable (n + 2) (writeWorld w) := by
  have hsolvers := isSavable_strings w.solvers n
  have hladder : IsSavable (n + 1) (writeLadder w.ladder) := by
    have hstep := isSavable_double hstep n
    have hsize := isSavable_nat hsize n
    refine isSavable_object ?_
    simp [hstep, hsize]
  refine isSavable_object ?_
  simp [hsolvers, hladder]

theorem isSavable_writePlanner {s : PlannerSettings Float} (hdiscount : ReadsBack s.discount)
    (hhorizon : s.horizon < wordBound) (n : Nat) : IsSavable (n + 1) (writePlanner s) := by
  have hkind := isSavable_string n (plannerKindName s.kind)
  have hreplan := isSavable_bool n s.replan
  have hdiscount := isSavable_double hdiscount n
  have hhorizon := isSavable_nat hhorizon n
  refine isSavable_object ?_
  simp [hkind, hreplan, hdiscount, hhorizon]

/-! ## Readers undo writers -/

section readers

variable {δ : Type} [Document δ] {view : Json → δ} (hview : IsView view)

include hview

theorem readIndex_nat {n : Nat} (h : n < wordBound) : readIndex? (view (nat n)) = some n :=
  hview.toNat_nat h (Nat.le_refl _)

theorem toList_doubles {xs : List Float} (h : ∀ x ∈ xs, ReadsBack x) :
    toList? toDouble? (view (list double xs)) = some xs :=
  hview.toList_list fun x hx => hview.toDouble_double (h x hx)

theorem toList_rows {rows : List (List Float)} (h : ∀ x ∈ rows.flatten, ReadsBack x) :
    toList? (toList? toDouble?) (view (list (list double) rows)) = some rows :=
  hview.toList_list fun row hrow =>
    toList_doubles hview fun x hx => h x (List.mem_flatten.mpr ⟨row, hrow, hx⟩)

theorem toList_strings (xs : List String) : toList? toText? (view (strings xs)) = some xs :=
  hview.toList_list fun x _ => hview.toText_string x

theorem readFamily_familyName (f : Family) :
    readFamily? (view (.string (familyName f))) = some f := by
  rw [readFamily?, hview.toNamed_string]
  cases f <;> rfl

theorem readPlannerKind_plannerKindName (k : PlannerKind) :
    readPlannerKind? (view (.string (plannerKindName k))) = some k := by
  rw [readPlannerKind?, hview.toNamed_string]
  cases k <;> rfl

theorem readPrediction_writePrediction {p : Prediction Float}
    (hsizes : ∀ n ∈ p.sizes, n < wordBound) (hdoubles : ∀ x ∈ p.probabilities, ReadsBack x) :
    readPrediction? (view (writePrediction p)) = some p := by
  have hactions := readIndex_nat hview (hsizes p.nactions (by simp [Prediction.sizes]))
  have houtcomes := readIndex_nat hview (hsizes p.noutcomes (by simp [Prediction.sizes]))
  have hprobabilities := toList_doubles hview hdoubles
  simp [readPrediction?, writePrediction, hview.fields_object, Fields.required, Fields.find?,
    hactions, houtcomes, hprobabilities]

theorem readMixture_writeMixture {m : Mixture Float}
    (hsizes : ∀ n ∈ (Model.mixture m).sizes, n < wordBound)
    (hdoubles : ∀ x ∈ (Model.mixture m).scalars, ReadsBack x) :
    readMixture? (view (writeMixture m)) = some m := by
  simp only [Model.scalars, List.mem_append, or_imp, forall_and, Option.mem_toList] at hdoubles
  obtain ⟨⟨hweights, hcomponents⟩, hscore⟩ := hdoubles
  have hfamily := readFamily_familyName hview m.family
  have hactions := readIndex_nat hview (hsizes m.nactions (by simp [Model.sizes]))
  have houtcomes := readIndex_nat hview (hsizes m.noutcomes (by simp [Model.sizes]))
  have hweights := toList_doubles hview hweights
  have hcomponents := toList_rows hview hcomponents
  have hscore : toOption? toDouble? (view (option double m.trainingLogLikelihood)) =
      some m.trainingLogLikelihood :=
    hview.toOption_option fun x hx => ⟨hview.toDouble_double (hscore x hx), (hscore x hx).isNull_eq⟩
  simp [readMixture?, writeMixture, hview.fields_object, Fields.required, Fields.defaulted,
    Fields.find?, hfamily, hactions, houtcomes, hweights, hcomponents, hscore]

theorem readClassifier_writeClassifier {c : Classifier Float}
    (hsizes : ∀ n ∈ c.pooled.sizes, n < wordBound)
    (hdoubles : ∀ x ∈ (Model.classifier c).scalars, ReadsBack x) :
    readClassifier? (view (writeClassifier c)) = some c := by
  simp only [Model.scalars, List.mem_append, or_imp, forall_and] at hdoubles
  obtain ⟨⟨⟨hmeans, hscales⟩, hweights⟩, hpooled⟩ := hdoubles
  have hnames := toList_strings hview c.names
  have hmeans := toList_doubles hview hmeans
  have hscales := toList_doubles hview hscales
  have hweights := toList_rows hview hweights
  have hpooled := readPrediction_writePrediction hview hsizes hpooled
  simp [readClassifier?, writeClassifier, hview.fields_object, Fields.required, Fields.find?,
    hnames, hmeans, hscales, hweights, hpooled]

/-- The entries come in the order they are kept in, so putting them in one after the other changes
nothing. -/
theorem readTables_writeTables {tables : List (String × Prediction Float)}
    (hsizes : ∀ t ∈ tables, ∀ n ∈ t.2.sizes, n < wordBound)
    (hdoubles : ∀ t ∈ tables, ∀ x ∈ t.2.probabilities, ReadsBack x)
    (hsorted : SortedByName tables) :
    readTables? (view (writeTables tables)) = some tables := by
  have hentries : ((tables.map fun t => (t.1, writePrediction t.2)).map
      fun f => (f.1, view f.2)).mapM (fun e => do return (e.1, ← readPrediction? e.2)) =
        some tables := by
    -- Entry by entry; the order matters only when they are put in.
    clear hsorted
    induction tables with
    | nil => rfl
    | cons t ts ih =>
        rw [List.forall_mem_cons] at hsizes hdoubles
        rw [List.map_cons, List.map_cons, List.mapM_cons, ih hsizes.2 hdoubles.2,
          readPrediction_writePrediction hview hsizes.1 hdoubles.1]
        rfl
  rw [readTables?, writeTables, hview.toEntries]
  refine (congrArg (Option.bind · _) hentries).trans ?_
  exact congrArg some (foldl_insertSorted hsorted)

theorem readPlanner_writePlanner {s : PlannerSettings Float} (hdiscount : ReadsBack s.discount)
    (hhorizon : s.horizon < wordBound) : readPlanner? (view (writePlanner s)) = some s := by
  have hkind := readPlannerKind_plannerKindName hview s.kind
  have hreplan := hview.toBool_bool s.replan
  have hdiscount := hview.toDouble_double hdiscount
  have hhorizon : readWord? (view (nat s.horizon)) = some s.horizon :=
    readIndex_nat hview hhorizon
  simp [readPlanner?, writePlanner, hview.fields_object, Fields.defaulted, Fields.find?, hkind,
    hreplan, hdiscount, hhorizon]

end readers

/-! ## Worlds, models and portfolios -/

theorem readWorld_writeWorld {w : World Float} (hstep : ReadsBack w.ladder.step)
    (hsize : w.ladder.size < wordBound) : readWorld? (writeWorld w) = some w := by
  have hview := isView_id
  have hstep : toDouble? (double w.ladder.step) = some w.ladder.step := hstep
  have hsize : readIndex? (nat w.ladder.size) = some w.ladder.size := readIndex_nat hview hsize
  have hsolvers : toList? toText? (strings w.solvers) = some w.solvers :=
    toList_strings hview w.solvers
  have hladder : readLadder? (writeLadder w.ladder) = some w.ladder := by
    simp [readLadder?, writeLadder, fields_object, Fields.required, Fields.find?, hstep, hsize]
  simp [readWorld?, writeWorld, fields_object, Fields.required, Fields.find?, hsolvers, hladder]

/-- The fields of a model besides its kind. -/
def modelFields : Model Float → List (String × Json)
  | .multinomial p => [("prediction", writePrediction p)]
  | .mixture m => [("mixture", writeMixture m)]
  | .classifier c => [("classifier", writeClassifier c)]
  | .oracle tables => [("tables", writeTables tables)]
  | .random seed nactions noutcomes =>
    [("seed", nat seed.toNat), ("nactions", nat nactions), ("noutcomes", nat noutcomes)]

theorem writeModel_eq (model : Model Float) :
    writeModel model = .object (("kind", .string model.variantName) :: modelFields model) := by
  cases model <;> rfl

theorem isSavable_modelFields {model : Model Float} (h : model.IsStorable) (n : Nat) :
    ∀ f ∈ modelFields model, IsSavable (n + 3) f.2 := by
  obtain ⟨hsizes, hdoubles, -⟩ := h
  cases model with
  | multinomial p =>
      simp only [modelFields, List.forall_mem_singleton]
      exact isSavable_writePrediction hsizes hdoubles (n + 1)
  | mixture m =>
      simp only [modelFields, List.forall_mem_singleton]
      exact isSavable_writeMixture hsizes hdoubles n
  | classifier c =>
      simp only [modelFields, List.forall_mem_singleton]
      exact isSavable_writeClassifier hsizes hdoubles n
  | oracle tables =>
      simp only [modelFields, List.forall_mem_singleton]
      exact isSavable_writeTables
        (fun t ht k hk => hsizes k (List.mem_flatMap.mpr ⟨t, ht, hk⟩))
        (fun t ht x hx => hdoubles x (List.mem_flatMap.mpr ⟨t, ht, hx⟩)) n
  | random seed na no =>
      have hseed := isSavable_nat seed.toNat_lt (n + 3)
      have hactions := isSavable_nat (hsizes na (by simp [Model.sizes])) (n + 3)
      have houtcomes := isSavable_nat (hsizes no (by simp [Model.sizes])) (n + 3)
      simp [modelFields, hseed, hactions, houtcomes]

theorem readModelOf_modelFields {model : Model Float} (h : model.IsStorable) :
    readModelOf? model.variantName (Held.mk (.object (modelFields model))) = some model := by
  have hview := isView_held
  obtain ⟨hsizes, hdoubles, hsorted⟩ := h
  cases model with
  | multinomial p =>
      have hp := readPrediction_writePrediction hview hsizes hdoubles
      simp [readModelOf?, Model.variantName, modelFields, hview.fields_object, Fields.required,
        Fields.find?, hp]
  | mixture m =>
      have hm := readMixture_writeMixture hview hsizes hdoubles
      simp [readModelOf?, Model.variantName, modelFields, hview.fields_object, Fields.required,
        Fields.find?, hm]
  | classifier c =>
      have hc := readClassifier_writeClassifier hview hsizes hdoubles
      simp [readModelOf?, Model.variantName, modelFields, hview.fields_object, Fields.required,
        Fields.find?, hc]
  | oracle tables =>
      have htables := readTables_writeTables hview
        (fun t ht k hk => hsizes k (List.mem_flatMap.mpr ⟨t, ht, hk⟩))
        (fun t ht x hx => hdoubles x (List.mem_flatMap.mpr ⟨t, ht, hx⟩)) hsorted
      simp [readModelOf?, Model.variantName, modelFields, hview.fields_object, Fields.required,
        Fields.find?, htables]
  | random seed na no =>
      have hseed : readWord? (Held.mk (nat seed.toNat)) = some seed.toNat :=
        readIndex_nat hview seed.toNat_lt
      have hactions := readIndex_nat hview (hsizes na (by simp [Model.sizes]))
      have houtcomes := readIndex_nat hview (hsizes no (by simp [Model.sizes]))
      simp [readModelOf?, Model.variantName, modelFields, hview.fields_object, Fields.required,
        Fields.find?, hseed, hactions, houtcomes]

theorem readModel_writeModel {model : Model Float} (h : model.IsStorable) :
    readModel? (writeModel model) = some model := by
  have htag : ∀ f ∈ modelFields model, f.1 ≠ "kind" := by
    cases model <;> simp [modelFields]
  have hholdable := (isSavable_object (isSavable_modelFields h 0)).holdable
  rw [readModel?, writeModel_eq, tagged_object htag hholdable]
  exact readModelOf_modelFields h

theorem readPortfolio_writePortfolio {p : Portfolio Float} (h : p.IsStorable) :
    readPortfolio? (writePortfolio p) = some p := by
  have hworld := readWorld_writeWorld (h.scalars p.world.ladder.step (by simp [Portfolio.scalars]))
    (h.sizes _ (by simp [Portfolio.sizes]))
  have hmodel := readModel_writeModel h.model
  have hplanner : readPlanner? (writePlanner p.planner) = some p.planner :=
    readPlanner_writePlanner isView_id (h.scalars p.planner.discount (by simp [Portfolio.scalars]))
      (h.sizes _ (by simp [Portfolio.sizes]))
  simp [readPortfolio?, writePortfolio, fields_object, Fields.required, Fields.find?, hworld,
    hmodel, hplanner]

theorem isSavable_writePortfolio {p : Portfolio Float} (h : p.IsStorable) (n : Nat) :
    IsSavable (n + 5) (writePortfolio p) := by
  have hworld := isSavable_writeWorld
    (h.scalars p.world.ladder.step (by simp [Portfolio.scalars]))
    (h.sizes _ (by simp [Portfolio.sizes])) (n + 2)
  have hmodel : IsSavable (n + 4) (writeModel p.model) := by
    rw [writeModel_eq]
    refine isSavable_object ?_
    rw [List.forall_mem_cons]
    exact ⟨isSavable_string _ _, isSavable_modelFields h.model n⟩
  have hplanner := isSavable_writePlanner
    (h.scalars p.planner.discount (by simp [Portfolio.scalars]))
    (h.sizes _ (by simp [Portfolio.sizes])) (n + 3)
  refine isSavable_object ?_
  simp [hworld, hmodel, hplanner]

/-- The text of a storable portfolio is read as that portfolio. -/
theorem parsePortfolio_eq {p : Portfolio Float} (h : p.IsStorable) :
    parsePortfolio (portfolioText p) = p.check.map fun _ => p := by
  have hparse : parse (portfolioText p) = some (writePortfolio p) :=
    parse_pretty (isSavable_writePortfolio h 122).writable
  rw [parsePortfolio, hparse]
  show loadPortfolio (writePortfolio p) = _
  rw [loadPortfolio, readPortfolio_writePortfolio h]

end Wire

end SolverPortfolio

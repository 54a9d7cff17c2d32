import SolverPortfolio.Proofs.Portfolio.Oracle
import SolverPortfolio.Scalar.Double
import SolverPortfolio.Training

/-!
# Training sets

What training depends on, and how the lists of a training set belong together.
-/

namespace SolverPortfolio

/-!
## What training depends on

Training reads a store through the tallies of its tasks and, for an oracle, through the runs
themselves; both only depend on the usable runs of each task, in any order
(`RunStore.Alike`), and so does whether there is room for the tallies. A task is kept if its runs
count for something, and then it has a usable run in either store, so that both keep the same tasks
(`keptTasks_congr`). What is left is one
congruence per stage: the training set, the model fitted to it, the portfolio.

The lists of a training set grow side by side. `add_eq` is what one task appends to each of
them, and `foldlM_add` what all tasks do: they pass over the same tasks.
-/

/-! ### Collecting -/

/-- For each task the two stores hold the same usable runs, in whatever order. -/
def RunStore.Alike {α : Type} [Scalar α] (w : World α) (store store' : RunStore α) : Prop :=
  ∀ task, ((store.runsForTask task).filter w.isUsable).Perm
    ((store'.runsForTask task).filter w.isUsable)

/-- It is enough that they hold the same usable runs altogether. -/
theorem RunStore.Alike.of_perm {α : Type} [Scalar α] {w : World α} {store store' : RunStore α}
    (h : (store.runs.filter w.isUsable).Perm (store'.runs.filter w.isUsable)) :
    Alike w store store' := by
  intro task
  rw [runsForTask, runsForTask, List.filter_comm, List.filter_comm (l := store'.runs)]
  exact h.filter _

namespace TrainingSet

variable {α : Type} {w : World α} {store store' : RunStore α}

theorem isSome_of_mem_usableRuns {task : String} :
    ∀ run ∈ usableRuns w store task, (w.solverIndex? run.solver).isSome = true :=
  fun _ h => (List.mem_filter.mp h).2

theorem taskId_of_mem_usableRuns {task : String} {run : RecordedRun α}
    (h : run ∈ usableRuns w store task) : run.taskId = task :=
  eq_of_beq (List.mem_filter.mp (List.mem_filter.mp h).1).2

variable [Analytic α]

theorem filter_usableRuns (task : String) :
    (usableRuns w store task).filter w.isUsable = (store.runsForTask task).filter w.isUsable := by
  rw [usableRuns, List.filter_filter]
  refine List.filter_congr fun run _ => ?_
  rw [World.isUsable, Bool.and_right_comm, Bool.and_self]

theorem tallyOf_usableRuns (task : String) :
    w.tallyOf (usableRuns w store task) = w.tallyOf (store.runsForTask task) :=
  World.tallyOf_filter (fun _ h => (Bool.and_eq_true_iff.mp h).1) _

theorem hasCounts_usableRuns (task : String) :
    w.HasCounts (usableRuns w store task) ↔ w.HasCounts (store.runsForTask task) :=
  World.hasCounts_filter (fun _ h => (Bool.and_eq_true_iff.mp h).1) _

/-- The task has something to count. -/
def isKept (w : World α) (store : RunStore α) (task : String) : Bool :=
  !((store.runsForTask task).flatMap w.readings).isEmpty

def keptTasks (w : World α) (store : RunStore α) : List String :=
  store.taskIds.filter (isKept w store)

/-- The training set with these tasks appended, and their features next to them. -/
def extend (w : World α) (store : RunStore α) (t : TrainingSet α) (tasks : List String)
    (features : List (Option (FeatureVector α))) : TrainingSet α where
  counts := t.counts ++ tasks.map fun task => w.tallyOf (store.runsForTask task)
  runs := t.runs ++ tasks.flatMap (usableRuns w store)
  features := t.features ++ features.flatMap Option.toList

/-- The training set of the kept tasks, with these features next to them. -/
def ofFeatures (w : World α) (store : RunStore α)
    (features : List (Option (FeatureVector α))) : TrainingSet α :=
  extend w store empty (keptTasks w store) features

theorem extend_nil (t : TrainingSet α) : extend w store t [] [] = t := by
  simp only [extend, List.map_nil, List.flatMap_nil, List.append_nil]

theorem extend_cons (t : TrainingSet α) (task : String) (tasks : List String)
    (v : Option (FeatureVector α)) (features : List (Option (FeatureVector α))) :
    extend w store (extend w store t [task] [v]) tasks features =
      extend w store t (task :: tasks) (v :: features) := by
  simp only [extend, List.map_cons, List.map_nil, List.flatMap_cons, List.flatMap_nil,
    List.append_nil, List.append_assoc, List.cons_append, List.nil_append]

/-- The features of a task are asked for once its runs are counted. -/
def countedFeatures (w : World α) (store : RunStore α) (source : Option (FeatureSource α))
    (task : String) : Except (TrainingError α) (Option (FeatureVector α)) :=
  if w.HasCounts (store.runsForTask task) then sourceFeatures source task
  else .error (.decision .overflow)

theorem countsFromRuns_usableRuns (task : String) :
    w.countsFromRuns (usableRuns w store task) =
      if w.HasCounts (store.runsForTask task) then .ok (w.tallyOf (store.runsForTask task))
      else .error .overflow := by
  rw [World.countsFromRuns_eq isSome_of_mem_usableRuns, tallyOf_usableRuns]
  simp only [hasCounts_usableRuns]

theorem add_eq (w : World α) (store : RunStore α) (source : Option (FeatureSource α))
    (t : TrainingSet α) (task : String) :
    add w store source t task =
      if isKept w store task then
        (countedFeatures w store source task).map fun v => extend w store t [task] [v]
      else .ok t := by
  rw [add, countsFromRuns_usableRuns, countedFeatures]
  simp only [extend, List.map_cons, List.map_nil, List.flatMap_cons, List.flatMap_nil,
    List.append_nil]
  by_cases hcounts : w.HasCounts (store.runsForTask task)
  · have hkept : isKept w store task = !(w.tallyOf (store.runsForTask task)).isZero := by
      rw [isKept, Bool.not_inj_iff, Bool.eq_iff_iff, List.isEmpty_iff, hcounts.isZero_tallyOf_iff]
    rw [if_pos hcounts, if_pos hcounts, hkept]
    simp only
    cases (w.tallyOf (store.runsForTask task)).isZero <;> rfl
  · have hkept : isKept w store task = true := by
      rw [isKept, Bool.not_eq_true', List.isEmpty_eq_false_iff]
      intro hnone
      refine hcounts ?_
      rw [World.HasCounts, hnone]
      exact Counts.fits_nil
    rw [if_neg hcounts, if_neg hcounts, hkept]
    rfl

/-- Tasks that are not kept are passed over in every list, and the first error among the
others is reported. -/
theorem foldlM_add (source : Option (FeatureSource α)) (tasks : List String)
    (t : TrainingSet α) :
    tasks.foldlM (add w store source) t =
      ((tasks.filter (isKept w store)).mapM (countedFeatures w store source)).map
        (extend w store t (tasks.filter (isKept w store))) := by
  induction tasks generalizing t with
  | nil => exact congrArg Except.ok (extend_nil t).symm
  | cons task tasks ih =>
      rw [List.foldlM_cons, add_eq, List.filter_cons]
      cases isKept w store task with
      | false => exact ih t
      | true =>
          rw [if_pos rfl, if_pos rfl, List.mapM_cons]
          cases countedFeatures w store source task with
          | error e => rfl
          | ok v =>
              refine (ih _).trans ?_
              cases (tasks.filter (isKept w store)).mapM (countedFeatures w store source) with
              | error e => rfl
              | ok features => exact congrArg Except.ok (extend_cons t task _ v features)

/-- Features are only computed for tasks that are kept and counted; the first error among them is
reported. -/
theorem collect_eq (w : World α) (store : RunStore α) (source : Option (FeatureSource α)) :
    collect w store source =
      ((keptTasks w store).mapM (countedFeatures w store source)).map (ofFeatures w store) :=
  foldlM_add source store.taskIds empty

theorem mem_keptTasks {task : String} :
    task ∈ keptTasks w store ↔ (store.runsForTask task).flatMap w.readings ≠ [] := by
  rw [keptTasks, List.mem_filter, isKept, Bool.not_eq_true', List.isEmpty_eq_false_iff,
    and_iff_right_iff_imp]
  intro hreadings
  rw [RunStore.taskIds, mem_sortedNames]
  obtain ⟨run, hrun, _⟩ := World.exists_usable_of_readings hreadings
  obtain ⟨hmem, htask⟩ := List.mem_filter.mp hrun
  exact List.mem_map.mpr ⟨run, hmem, eq_of_beq htask⟩

section runs

variable {features : List (Option (FeatureVector α))}

theorem isSome_of_mem_runs : ∀ run ∈ (ofFeatures w store features).runs,
    (w.solverIndex? run.solver).isSome = true := by
  intro run hrun
  obtain ⟨_, _, hrun⟩ := List.mem_flatMap.mp hrun
  exact isSome_of_mem_usableRuns run hrun

/-- Each kept task has a run, and all runs kept for it are its own. -/
theorem mem_taskIds_runs {task : String} :
    task ∈ (ofFeatures w store features).runs.map RecordedRun.taskId ↔
      task ∈ keptTasks w store := by
  constructor
  · intro hmem
    obtain ⟨run, hrun, rfl⟩ := List.mem_map.mp hmem
    obtain ⟨task, htask, hrun⟩ := List.mem_flatMap.mp hrun
    rwa [taskId_of_mem_usableRuns hrun]
  · intro htask
    have hkept := mem_keptTasks.mp htask
    rw [← World.flatMap_readings_filter fun _ h => (Bool.and_eq_true_iff.mp h).1] at hkept
    obtain ⟨run, hrun, _⟩ := World.exists_usable_of_readings hkept
    exact List.mem_map.mpr ⟨run, List.mem_flatMap.mpr ⟨_, htask, hrun⟩,
      taskId_of_mem_usableRuns hrun⟩

end runs

/-! ### Two stores -/

section alike

variable (h : RunStore.Alike w store store')

include h

theorem tallyOf_congr (task : String) :
    w.tallyOf (store.runsForTask task) = w.tallyOf (store'.runsForTask task) :=
  World.tallyOf_eq_of_usable (h task)

theorem keptTasks_congr : keptTasks w store = keptTasks w store' := by
  have hsorted : ∀ s : RunStore α, (keptTasks w s).Nodup ∧ (keptTasks w s).Pairwise (· ≤ ·) :=
    fun s => ⟨(nodup_sortedNames _).filter _, (pairwise_sortedNames _).filter _⟩
  refine eq_of_sorted (hsorted store).1 (hsorted store').1 (hsorted store).2 (hsorted store').2
    fun task => ?_
  have hreadings := World.flatMap_readings_perm (h task)
  rw [mem_keptTasks, mem_keptTasks, ← List.length_pos_iff, ← List.length_pos_iff,
    hreadings.length_eq]

theorem countedFeatures_congr (source : Option (FeatureSource α)) :
    countedFeatures w store source = countedFeatures w store' source := by
  funext task
  simp only [countedFeatures, World.hasCounts_iff_of_usable (h task)]

variable (features : List (Option (FeatureVector α)))

theorem counts_congr :
    (ofFeatures w store features).counts = (ofFeatures w store' features).counts := by
  simp only [ofFeatures, extend, keptTasks_congr h, tallyOf_congr h]

theorem ofRuns_congr :
    Model.ofRuns w (ofFeatures w store features).runs =
      Model.ofRuns w (ofFeatures w store' features).runs := by
  refine Model.ofRuns_congr isSome_of_mem_runs isSome_of_mem_runs (fun task => ?_) ?_
  · rw [mem_taskIds_runs, mem_taskIds_runs, keptTasks_congr h]
  · simp only [ofFeatures, extend, empty, List.nil_append, List.filter_flatMap,
      keptTasks_congr h]
    refine List.Perm.flatMap_left _ fun task _ => ?_
    rw [filter_usableRuns, filter_usableRuns]
    exact h task

end alike

end TrainingSet

/-! ### Training -/

namespace Settings

variable {α : Type} [Analytic α] [GammaFunctions α] {w : World α} {store store' : RunStore α}

/-- With a seed nothing is left to chance. -/
theorem fitModel_of_seed {s : EstimatorSettings α} (h : s.seed.isSome = true)
    (e e' : Randomness.Entropy) (w : World α) (t : TrainingSet α) :
    fitModel s e w t = fitModel s e' w t := by
  obtain ⟨seed, hseed⟩ := Option.isSome_iff_exists.mp h
  have hstream : e.streamFor s.seed = e'.streamFor s.seed := by rw [hseed]; rfl
  have hkept : e.seedFor s.seed = e'.seedFor s.seed := by rw [hseed]; rfl
  unfold fitModel Mixture.fit
  rw [hstream, hkept]

theorem trainFrom_congr (s : Settings α) {e e' : Randomness.Entropy}
    (he : e = e' ∨ s.estimator.seed.isSome = true) (h : RunStore.Alike w store store')
    (features : List (Option (FeatureVector α))) :
    s.trainFrom e w (.ofFeatures w store features) =
      s.trainFrom e' w (.ofFeatures w store' features) := by
  have hstores : ∀ e, fitModel s.estimator e w (.ofFeatures w store features) =
      fitModel s.estimator e w (.ofFeatures w store' features) := by
    intro e
    unfold fitModel
    rw [TrainingSet.counts_congr h, TrainingSet.ofRuns_congr h]
    rfl
  have hchance : fitModel s.estimator e w (.ofFeatures w store' features) =
      fitModel s.estimator e' w (.ofFeatures w store' features) := by
    rcases he with rfl | hseed
    · rfl
    · exact fitModel_of_seed hseed e e' w _
  rw [trainFrom, trainFrom, hstores, hchance]

/-- **Training depends only on the usable runs.** If two stores hold the same usable runs for
each task, in whatever order and among whatever other runs, then the trained portfolios are
equal or training fails with the same error, for every kind of model. With a seed it does not
depend on what the machine has for chance; without one, chance has to be the same. -/
theorem train_congr (s : Settings α) {e e' : Randomness.Entropy}
    (he : e = e' ∨ s.estimator.seed.isSome = true) (source : Option (FeatureSource α))
    (solvers : List String)
    (h : ∀ w, s.world solvers = .ok w → RunStore.Alike w store store') :
    s.train e source solvers store = s.train e' source solvers store' := by
  rw [train, train]
  cases hw : s.world solvers with
  | error e => rfl
  | ok w =>
      have halike := h w hw
      show (TrainingSet.collect w store source >>= fun t =>
          (s.trainFrom e w t).mapError .decision) =
        (TrainingSet.collect w store' source >>= fun t => (s.trainFrom e' w t).mapError .decision)
      rw [TrainingSet.collect_eq, TrainingSet.collect_eq, TrainingSet.keptTasks_congr halike,
        TrainingSet.countedFeatures_congr halike]
      cases (TrainingSet.keptTasks w store').mapM (TrainingSet.countedFeatures w store' source) with
      | error e => rfl
      | ok features => exact congrArg (Except.mapError _) (trainFrom_congr s he halike features)

/-- Two rungs of ten seconds each, in doubles, and a seed. -/
def twoRungs : Settings Float :=
  { Settings.default with
    budget := ⟨10, 2, 1⟩
    estimator := { EstimatorSettings.default with seed := some 7 } }

/-- What the machine has for chance. -/
def someEntropy (seed : UInt64) : Randomness.Entropy := ⟨.ofSeed seed, seed⟩

/-- Three runs of two tasks. -/
def ordered : RunStore Float :=
  ⟨[⟨"t", "a", 20, 5, .positive none⟩, ⟨"u", "b", 10, 10, .unsolved⟩,
    ⟨"t", "b", 20, 12, .negative⟩]⟩

/-- The same runs the other way round, with a run of another solver and one that was given
less than the first rung among them. -/
def shuffled : RunStore Float :=
  ⟨[⟨"t", "b", 20, 12, .negative⟩, ⟨"t", "c", 20, 1, .positive none⟩,
    ⟨"u", "b", 10, 10, .unsolved⟩, ⟨"u", "a", 5, 5, .unsolved⟩,
    ⟨"t", "a", 20, 5, .positive none⟩]⟩

theorem train_congr_shuffled :
    (∀ w, twoRungs.world ["a", "b"] = .ok w → RunStore.Alike w ordered shuffled) ∧
      twoRungs.train (someEntropy 1) none ["a", "b"] ordered =
        twoRungs.train (someEntropy 2) none ["a", "b"] shuffled := by
  have halike : ∀ w, twoRungs.world ["a", "b"] = .ok w → RunStore.Alike w ordered shuffled := by
    intro w hw
    obtain rfl : ⟨["a", "b"], ⟨10, 2⟩⟩ = w := Except.ok.inj hw
    refine RunStore.Alike.of_perm ?_
    show ordered.runs.Perm ordered.runs.reverse
    exact (List.reverse_perm _).symm
  exact ⟨halike, train_congr twoRungs (Or.inr rfl) none _ halike⟩

end Settings

end SolverPortfolio

namespace SolverPortfolio.TrainingSet

/-!
## Training data stays aligned

The lists of a training set are grown in one loop that passes over tasks and can fail half way,
and what trains on them reads them place by place. They pass over the same tasks
(`TrainingSet.collect_eq`): place by place, the counts and the features that were collected
belong to the kept tasks in their order, and the runs are those of the kept tasks one task after
the other. With a source of features each kept task has exactly one vector
(`forall₂_of_some`), without one there are none (`eq_nil_of_none`). `collect_aligned` is the
headline.
-/

variable {α : Type} [Analytic α] {w : World α} {store : RunStore α}

section features

variable {tasks : List String} {features : List (Option (FeatureVector α))}

omit [Analytic α] in
theorem eq_nil_of_none
    (h : List.Forall₂ (fun task v => sourceFeatures (α := α) none task = .ok v) tasks features) :
    features.flatMap Option.toList = [] := by
  induction h with
  | nil => rfl
  | cons hv _ ih =>
      obtain rfl := Except.ok.inj hv
      exact ih

omit [Analytic α] in
theorem forall₂_of_some {f : FeatureSource α}
    (h : List.Forall₂ (fun task v => sourceFeatures (some f) task = .ok v) tasks features) :
    List.Forall₂ (fun task v => f task = .ok v) tasks (features.flatMap Option.toList) := by
  induction h with
  | nil => exact .nil
  | @cons task v _ _ hv _ ih =>
      cases hf : f task with
      | error e =>
          simp only [sourceFeatures, hf] at hv
          cases hv
      | ok x =>
          simp only [sourceFeatures, hf] at hv
          obtain rfl := Except.ok.inj hv
          exact .cons hf ih

end features

theorem of_countedFeatures {source : Option (FeatureSource α)} {task : String}
    {v : Option (FeatureVector α)} (h : countedFeatures w store source task = .ok v) :
    w.HasCounts (store.runsForTask task) ∧ sourceFeatures source task = .ok v := by
  rw [countedFeatures] at h
  split at h
  · exact ⟨‹_›, h⟩
  · cases h

/-- A collected training set is that of the kept tasks, all of which could be counted. -/
theorem exists_of_collect {source : Option (FeatureSource α)} {t : TrainingSet α}
    (h : collect w store source = .ok t) :
    ∃ features, t = ofFeatures w store features ∧
      (∀ task ∈ keptTasks w store, w.HasCounts (store.runsForTask task)) ∧
      List.Forall₂ (fun task v => sourceFeatures source task = .ok v) (keptTasks w store)
        features := by
  rw [collect_eq] at h
  obtain ⟨features, hfeatures, rfl⟩ := Decision.map_eq_ok h
  refine ⟨features, rfl, fun task htask => ?_, ?_⟩
  · obtain ⟨_, _, hv⟩ := Decision.mapM_eq_ok hfeatures task htask
    exact (of_countedFeatures hv).1
  · exact (Decision.forall₂_of_mapM hfeatures).imp fun _ _ hv => (of_countedFeatures hv).2

/-- **Training data stays aligned.** There is one list of tasks, in ascending order and exactly
those whose usable runs count something, that everything collected follows: the `i`-th count
array is that of the usable runs of the `i`-th task, the runs are those of the tasks one task
after the other, and with a source of features there are as many vectors as count arrays, the
`i`-th the answer of the source for the `i`-th task; without one there are none. -/
theorem collect_aligned {source : Option (FeatureSource α)} {t : TrainingSet α}
    (h : collect w store source = .ok t) :
    ∃ tasks : List String, tasks.Pairwise (· < ·) ∧
      (∀ task, task ∈ tasks ↔
        ∃ c, w.countsFromRuns (usableRuns w store task) = .ok c ∧ c.isZero = false) ∧
      List.Forall₂ (fun task c => w.countsFromRuns (usableRuns w store task) = .ok c)
        tasks t.counts ∧
      t.runs = tasks.flatMap (usableRuns w store) ∧
      (∀ f, source = some f → t.features.length = t.counts.length ∧
        List.Forall₂ (fun task v => f task = .ok v) tasks t.features) ∧
      (source = none → t.features = []) := by
  obtain ⟨features, rfl, hcounts, hfeatures⟩ := exists_of_collect h
  refine ⟨keptTasks w store, ?_, fun task => ?_, ?_, rfl, ?_, ?_⟩
  · exact (pairwise_lt_sortedNames _).filter _
  · rw [countsFromRuns_usableRuns]
    constructor
    · intro htask
      have hfits := hcounts task htask
      rw [mem_keptTasks, Ne, ← hfits.isZero_tallyOf_iff, Bool.not_eq_true] at htask
      exact ⟨_, if_pos hfits, htask⟩
    · rintro ⟨c, hc, hzero⟩
      split at hc
      · rename_i hfits
        obtain rfl := Except.ok.inj hc
        rw [mem_keptTasks, Ne, ← hfits.isZero_tallyOf_iff, hzero]
        exact Bool.false_ne_true
      · cases hc
  · show List.Forall₂ _ _ ((keptTasks w store).map _)
    rw [List.forall₂_map_right_iff, List.forall₂_same]
    exact fun task htask =>
      (countsFromRuns_usableRuns task).trans (if_pos (hcounts task htask))
  · rintro f rfl
    have hsource := forall₂_of_some hfeatures
    refine ⟨?_, hsource⟩
    exact hsource.length_eq.symm.trans (List.length_map _).symm
  · rintro rfl
    exact eq_nil_of_none hfeatures

/-- A source that tells one number of every task. -/
def sized : FeatureSource Float := fun task => .ok ⟨["size"], [if task = "t" then 3 else 5]⟩

/-- Two tasks, one of them with two runs, have a count array and a vector each. -/
theorem collect_aligned_ordered :
    ∃ t, collect ⟨["a", "b"], ⟨10, 2⟩⟩ Settings.ordered (some sized) = .ok t ∧
      t.features.length = 2 ∧
      ∃ tasks : List String, tasks.Pairwise (· < ·) ∧
        List.Forall₂ (fun task v => sized task = .ok v) tasks t.features := by
  obtain ⟨t, ht, hcounts⟩ :
      ∃ t, collect ⟨["a", "b"], ⟨10, 2⟩⟩ Settings.ordered (some sized) = .ok t ∧
        t.counts.length = 2 := by
    have hids : Settings.ordered.taskIds = ["t", "u"] := by cbv
    unfold collect
    rw [hids]
    exact ⟨_, rfl, rfl⟩
  obtain ⟨tasks, hsorted, _, _, _, hsome, _⟩ := collect_aligned ht
  obtain ⟨hlength, hfeatures⟩ := hsome sized rfl
  exact ⟨t, ht, hlength.trans hcounts, tasks, hsorted, hfeatures⟩

end SolverPortfolio.TrainingSet

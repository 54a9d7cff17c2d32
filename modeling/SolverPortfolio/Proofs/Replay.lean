import SolverPortfolio.Proofs.Expansion
import SolverPortfolio.Proofs.Portfolio.Oracle
import SolverPortfolio.Proofs.Scalar.RoundedDouble
import SolverPortfolio.RunStore

/-!
# Counting a run and replaying it

A recorded run is read in two ways: its outcomes are counted for training, and it is replayed
when a session asks what a run under a lower ceiling would have done. Both say that a run tells
about every ceiling up to its budget, and that it would have been solved there if it was solved
in time; but the slack on budgets is put on different sides, and replaying allows none on costs.

So the two agree about an action unless its ceiling lies at the edge of what the run tells
(`World.OnEdge`). With one run per solver an action counts at most one outcome
(`World.isSingle_tallyOf`) and there is at most one run to replay (`RunStore.lookup_eq_some_iff`),
so that one comparison of one run decides.
-/

namespace SolverPortfolio

open Scalar Rounded

/-! ## Slack -/

section slack

variable {α : Type} [Scalar α] [Rounded α]

theorem RunStore.value_leastShare :
    ∃ x : ℝ, value (leastShare : α) = .real x ∧ 0 < x ∧ x ≤ 1 := by
  obtain ⟨t, ht, ht0, ht1⟩ := Ladder.tolerance_near (α := α)
  have htpos : 0 < t := lt_of_lt_of_le (by norm_num) ht0
  norm_num at ht1
  have hvalue : value (leastShare : α) = nearest α (1 - t) := by
    show value ((1 : α) - Ladder.tolerance) = _
    rw [value_sub, value_one, ht]
    rfl
  obtain ⟨x, hx, hnear⟩ := nearest_near_mid α (x := 1 - t) (by norm_num; linarith)
    (by norm_num; linarith)
  have hle := nearest_mono (α := α) (by linarith : 1 - t ≤ 1)
  rw [hx, nearest_one, Exact.real_le] at hle
  refine ⟨x, hvalue.trans hx, ?_, hle⟩
  have hlow := (abs_le.mp hnear).1
  norm_num at hlow
  linarith

/-- Slack adds to a number that is not negative. -/
theorem le_mul_slack {x : α} (hx : .real 0 ≤ value x) : x ≤ x * World.slack := by
  obtain ⟨t, ht, ht1⟩ := World.value_slack (α := α)
  rw [le_iff, value_mul, ht]
  rcases Exact.eq_real_or_posInf hx with ⟨u, hu, hu0⟩ | hu
  · rw [hu, Exact.real_mul, ← nearest_of_value hu]
    exact nearest_mono (le_mul_of_one_le_right hu0 ht1)
  · rw [hu]
    show _ ≤ (Exact.infinite (1 * SignType.sign t)).rounded _
    rw [sign_pos (by linarith)]
    exact Exact.le_refl Exact.noConfusion

theorem mul_leastShare_le {x : α} (hx : .real 0 ≤ value x) : x * RunStore.leastShare ≤ x := by
  obtain ⟨t, ht, ht0, ht1⟩ := RunStore.value_leastShare (α := α)
  rw [le_iff, value_mul, ht]
  rcases Exact.eq_real_or_posInf hx with ⟨u, hu, hu0⟩ | hu
  · rw [hu, Exact.real_mul, ← nearest_of_value hu]
    exact nearest_mono (mul_le_of_le_one_right hu0 ht1)
  · rw [hu]
    show (Exact.infinite (1 * SignType.sign t)).rounded _ ≤ _
    rw [sign_pos ht0]
    exact Exact.le_refl Exact.noConfusion

end slack

/-! ## Single counts -/

namespace World

variable {α : Type} [Scalar α] [Rounded α] {w : World α} (hw : w.check = .ok ())
  {runs : List (RecordedRun α)}
  (hruns : (runs.map RecordedRun.solver).Nodup) {a : Nat} (ha : a < w.nactions)

include hw hruns in
/-- Runs of different solvers are read at different actions. -/
theorem nodup_flatMap_readings : (runs.flatMap w.readings).Nodup := by
  refine List.nodup_flatMap.mpr ⟨fun run _ => nodup_readings run, ?_⟩
  refine (List.pairwise_map.mp hruns).imp fun hne => ?_
  intro e he he'
  have ha := fst_lt_of_mem_readings he
  exact hne (((mem_readings hw ha).mp he).1.trans ((mem_readings hw ha).mp he').1.symm)

include hw hruns in
/-- So there is room for all of them. -/
theorem hasCounts_of_nodup : w.HasCounts runs := by
  intro e he
  rw [(nodup_flatMap_readings hw hruns).count, if_pos he]
  decide

include hw hruns in
theorem get_tallyOf (k : OutcomeKind) : (w.tallyOf runs).get a k.index =
    if ∃ run ∈ runs, (a, k) ∈ w.readings run then 1 else 0 := by
  have hlt : ∀ e ∈ runs.flatMap w.readings, e.1 < w.nactions := by
    intro e he
    obtain ⟨_, _, he⟩ := List.mem_flatMap.mp he
    exact fst_lt_of_mem_readings he
  rw [tallyOf, Counts.get_tally hlt, (nodup_flatMap_readings hw hruns).count]
  simp only [List.mem_flatMap]
  split <;> rfl

include hw hruns ha in
/-- The runs of the action's solver are one run. -/
theorem kindAt_unique {run run' : RecordedRun α} {k l : OutcomeKind} (hrun : run ∈ runs)
    (hrun' : run' ∈ runs) (h : (a, k) ∈ w.readings run) (h' : (a, l) ∈ w.readings run') :
    k = l := by
  obtain ⟨hname, _, rfl⟩ := (mem_readings hw ha).mp h
  obtain ⟨hname', _, rfl⟩ := (mem_readings hw ha).mp h'
  rw [List.inj_on_of_nodup_map hruns hrun hrun' (hname.trans hname'.symm)]

include hw hruns ha in
theorem isSingle_tallyOf {k : OutcomeKind} :
    (w.tallyOf runs).IsSingle a k ↔ ∃ run ∈ runs, (a, k) ∈ w.readings run := by
  constructor
  · intro h
    by_contra hnone
    have hcount := (get_tallyOf hw hruns k).symm.trans (h k)
    rw [if_neg hnone, if_pos rfl] at hcount
    cases hcount
  · rintro ⟨run, hrun, hk⟩ l
    rw [get_tallyOf hw hruns]
    by_cases hl : l = k
    · rw [if_pos hl, hl, if_pos ⟨run, hrun, hk⟩]
    · rw [if_neg hl, if_neg]
      rintro ⟨run', hrun', hk'⟩
      exact hl (kindAt_unique hw hruns ha hrun' hrun hk' hk)

include hw hruns ha in
theorem isUnseen_tallyOf : (w.tallyOf runs).IsUnseen a ↔
    ∀ run ∈ runs, run.solver = (w.action a).solver → w.reaches run (w.rungOf a) = false := by
  constructor
  · intro h run hrun hname
    by_contra hreach
    rw [Bool.not_eq_false] at hreach
    have hcount := (get_tallyOf hw hruns _).symm.trans (h (w.kindAt run (w.rungOf a)))
    rw [if_pos ⟨run, hrun, (mem_readings hw ha).mpr ⟨hname, hreach, rfl⟩⟩] at hcount
    cases hcount
  · intro h l
    rw [get_tallyOf hw hruns, if_neg]
    rintro ⟨run, hrun, hl⟩
    obtain ⟨hname, hreach, _⟩ := (mem_readings hw ha).mp hl
    rw [h run hrun hname] at hreach
    cases hreach

include hw hruns ha in
theorem isUnseen_or_isSingle :
    (w.tallyOf runs).IsUnseen a ∨ ∃ k, (w.tallyOf runs).IsSingle a k := by
  by_cases hread : ∃ run ∈ runs, ∃ k, (a, k) ∈ w.readings run
  · obtain ⟨run, hrun, k, hk⟩ := hread
    exact Or.inr ⟨k, (isSingle_tallyOf hw hruns ha).mpr ⟨run, hrun, hk⟩⟩
  · refine Or.inl fun k => ?_
    rw [get_tallyOf hw hruns, if_neg]
    rintro ⟨run, hrun, hk⟩
    exact hread ⟨run, hrun, k, hk⟩

end World

/-! ## Lookups -/

namespace RunStore

variable {α : Type} [Scalar α] {s : RunStore α} {task solver : String} {least : α}

/-- Of one run per solver the one that serves is found, and any that is found serves. -/
theorem lookup_eq_some_iff (h : ((s.runsForTask task).map RecordedRun.solver).Nodup)
    {run : RecordedRun α} : s.lookup task solver least = some run ↔
      run ∈ s.runsForTask task ∧ serves solver least run = true := by
  have hone : ∀ r ∈ (s.runsForTask task).filter (serves solver least),
      ∀ r' ∈ (s.runsForTask task).filter (serves solver least), r = r' := by
    intro r hr r' hr'
    obtain ⟨hmem, hserves⟩ := List.mem_filter.mp hr
    obtain ⟨hmem', hserves'⟩ := List.mem_filter.mp hr'
    have hname := eq_of_beq (Bool.and_eq_true_iff.mp hserves).1
    have hname' := eq_of_beq (Bool.and_eq_true_iff.mp hserves').1
    exact List.inj_on_of_nodup_map h hmem hmem' (hname.trans hname'.symm)
  have hnodup := (List.Nodup.of_map _ h).filter (serves solver least)
  rw [lookup, ← List.mem_filter]
  rcases hl : (s.runsForTask task).filter (serves solver least) with _ | ⟨r, _ | ⟨r', rs⟩⟩
  · simp
  · simp [lesser, eq_comm]
  · rw [hl] at hone hnodup
    have heq := hone r (List.mem_cons_self ..) r' (List.mem_cons_of_mem _ (List.mem_cons_self ..))
    exact absurd heq (List.ne_of_not_mem_cons (List.nodup_cons.mp hnodup).1)

theorem serves_iff {run : RecordedRun α} : serves solver least run = true ↔
    run.solver = solver ∧ least * leastShare ≤ run.budget := by
  rw [serves, Bool.and_eq_true, beq_iff_eq, decide_eq_true_iff]

theorem replay_eq_ok_iff (h : ((s.runsForTask task).map RecordedRun.solver).Nodup)
    (action : Action α) (r : RunResult α) : s.replay action task = .ok r ↔
      ∃ run ∈ s.runsForTask task, run.solver = action.solver ∧
        action.cost * leastShare ≤ run.budget ∧ run.under action.cost = r := by
  rw [replay]
  constructor
  · intro heq
    split at heq
    · rename_i run hrun
      obtain ⟨hmem, hserves⟩ := (lookup_eq_some_iff h).mp hrun
      obtain ⟨hname, hbudget⟩ := serves_iff.mp hserves
      exact ⟨run, hmem, hname, hbudget, Except.ok.inj heq⟩
    · cases heq
  · rintro ⟨run, hmem, hname, hbudget, rfl⟩
    rw [(lookup_eq_some_iff h).mpr ⟨hmem, serves_iff.mpr ⟨hname, hbudget⟩⟩]

theorem replay_eq_error_iff (h : ((s.runsForTask task).map RecordedRun.solver).Nodup)
    (action : Action α) :
    s.replay action task = .error (.noRecordedRun task action.solver action.cost) ↔
      ∀ run ∈ s.runsForTask task, run.solver = action.solver →
        ¬action.cost * leastShare ≤ run.budget := by
  constructor
  · intro heq run hmem hname hbudget
    rw [(replay_eq_ok_iff h action _).mpr ⟨run, hmem, hname, hbudget, rfl⟩] at heq
    cases heq
  · intro hnone
    rw [replay]
    split
    · rename_i run hrun
      obtain ⟨hmem, hserves⟩ := (lookup_eq_some_iff h).mp hrun
      obtain ⟨hname, hbudget⟩ := serves_iff.mp hserves
      exact absurd hbudget (hnone run hmem hname)
    · rfl

end RunStore

/-! ## The edge -/

section edge

variable {α : Type} [Scalar α] {w : World α}

/-- The ceiling lies at the edge of what the run tells: only one of the two tests of the run's
budget lets it through, or the run was solved after the ceiling but within the slack. -/
def World.OnEdge (w : World α) (run : RecordedRun α) (rung : Nat) : Prop :=
  ¬(w.reaches run rung = true ↔
      w.ladder.budget rung * RunStore.leastShare ≤ run.budget) ∨
    w.reaches run rung = true ∧ run.outcome.isSolved = true ∧
      ¬run.cost ≤ w.ladder.budget rung ∧ run.cost ≤ w.ladder.budget rung * World.slack

/-- Counting the runs of a task and replaying them say the same about an action. -/
structure ReplayAgrees (w : World α) (s : RunStore α) (task : String) (a : Nat) (c : Counts) :
    Prop where
  single : ∀ k, c.IsSingle a k ↔ ∃ r, s.replay (w.action a) task = .ok r ∧ r.outcome.kind = k
  unseen : c.IsUnseen a ↔ s.replay (w.action a) task =
    .error (.noRecordedRun task (w.action a).solver (w.action a).cost)

variable [Rounded α] (hw : w.check = .ok ())

include hw

/-- The two kinds a run stands for differ when it was solved in the slack. -/
theorem World.kindAt_eq_iff {run : RecordedRun α} {rung : Nat} :
    w.kindAt run rung = (run.under (w.ladder.budget rung)).outcome.kind ↔
      ¬(run.outcome.isSolved = true ∧ ¬run.cost ≤ w.ladder.budget rung ∧
        run.cost ≤ w.ladder.budget rung * slack) := by
  rw [kindAt, RecordedRun.under]
  by_cases hsolved : run.outcome.isSolved = true
  · have hkind : run.outcome.kind ≠ .unsolved := by
      intro h
      rw [Outcome.isSolved, h] at hsolved
      cases hsolved
    by_cases hcost : run.cost ≤ w.ladder.budget rung
    · have hslack : run.cost ≤ w.ladder.budget rung * slack := by
        have := le_mul_slack (budget_nonneg hw rung)
        rw [le_iff] at hcost this ⊢
        exact Exact.le_trans hcost this
      simp [hsolved, hcost, hslack]
    · by_cases hslack : run.cost ≤ w.ladder.budget rung * slack
      · simp [hsolved, hcost, hslack, Outcome.unsolved, Outcome.ofKind, hkind]
      · simp [hsolved, hcost, hslack, Outcome.unsolved, Outcome.ofKind]
  · have hkind := Outcome.kind_eq_unsolved hsolved
    by_cases hcost : run.cost ≤ w.ladder.budget rung <;>
      simp [hsolved, hcost, hkind, Outcome.unsolved, Outcome.ofKind]

/-- Clear of the edge, a run is counted where it is replayed, and as what it is replayed. -/
theorem World.not_onEdge_iff {run : RecordedRun α} {rung : Nat} : ¬w.OnEdge run rung ↔
    (w.reaches run rung = true ↔ w.ladder.budget rung * RunStore.leastShare ≤ run.budget) ∧
      (w.reaches run rung = true →
        w.kindAt run rung = (run.under (w.ladder.budget rung)).outcome.kind) := by
  rw [OnEdge, not_or, not_not, not_and, kindAt_eq_iff hw]

/-- A run that was given the whole ceiling and was not solved in the slack after it is clear of
the edge. -/
theorem World.not_onEdge_of_le {run : RecordedRun α} {rung : Nat}
    (hbudget : w.ladder.budget rung ≤ run.budget)
    (hcost : run.outcome.isSolved = true → run.cost ≤ w.ladder.budget rung ∨
      ¬run.cost ≤ w.ladder.budget rung * slack) : ¬w.OnEdge run rung := by
  have hceiling := budget_nonneg hw rung
  rw [le_iff] at hbudget
  have hreach : w.reaches run rung = true := by
    have hslack := (le_iff _ _).mp (le_mul_slack (Exact.le_trans hceiling hbudget))
    rw [reaches, Bool.not_eq_true', decide_eq_false_iff_not]
    exact not_lt_of_le ((le_iff _ _).mpr (Exact.le_trans hbudget hslack))
  have hshare : w.ladder.budget rung * RunStore.leastShare ≤ run.budget :=
    (le_iff _ _).mpr (Exact.le_trans ((le_iff _ _).mp (mul_leastShare_le hceiling)) hbudget)
  rintro (hmismatch | ⟨_, hsolved, hover, hslack⟩)
  · exact hmismatch (iff_of_true hreach hshare)
  · rcases hcost hsolved with hle | hle
    · exact hover hle
    · exact hle hslack

variable {s : RunStore α} {task : String}
  (hruns : ((s.runsForTask task).map RecordedRun.solver).Nodup) {a : Nat} (ha : a < w.nactions)

include hruns ha

theorem ReplayAgrees.not_onEdge
    (hagrees : ReplayAgrees w s task a (w.tallyOf (s.runsForTask task))) {run : RecordedRun α}
    (hrun : run ∈ s.runsForTask task) (hname : run.solver = (w.action a).solver) :
    ¬w.OnEdge run (w.rungOf a) := by
  have honly : ∀ run' ∈ s.runsForTask task, run'.solver = (w.action a).solver → run' = run :=
    fun run' hrun' hname' => List.inj_on_of_nodup_map hruns hrun' hrun (hname'.trans hname.symm)
  refine (World.not_onEdge_iff hw).mpr ⟨?_, fun hreached => ?_⟩
  · have hiff := hagrees.unseen
    rw [World.isUnseen_tallyOf hw hruns ha, RunStore.replay_eq_error_iff hruns (w.action a),
      World.cost_action] at hiff
    rw [← not_iff_not, Bool.not_eq_true]
    constructor
    · intro hnot
      refine hiff.mp (fun run' hrun' hname' => ?_) run hrun hname
      rw [honly run' hrun' hname', hnot]
    · intro hnot
      refine hiff.mpr (fun run' hrun' hname' => ?_) run hrun hname
      rw [honly run' hrun' hname']
      exact hnot
  · -- The run is counted, so it is replayed as well, and as what it was counted.
    have hcounted := (World.isSingle_tallyOf hw hruns ha).mpr
      ⟨run, hrun, (World.mem_readings hw ha).mpr ⟨hname, hreached, rfl⟩⟩
    obtain ⟨r, hr, hkind⟩ := (hagrees.single _).mp hcounted
    obtain ⟨run', hrun', hname', _, rfl⟩ := (RunStore.replay_eq_ok_iff hruns (w.action a) r).mp hr
    rw [honly run' hrun' hname'] at hkind
    exact hkind.symm

theorem replayAgrees_of_not_onEdge (hclear : ∀ run ∈ s.runsForTask task,
    run.solver = (w.action a).solver → ¬w.OnEdge run (w.rungOf a)) :
    ReplayAgrees w s task a (w.tallyOf (s.runsForTask task)) := by
  have hboth := fun run hrun hname => (World.not_onEdge_iff hw).mp (hclear run hrun hname)
  have hok := RunStore.replay_eq_ok_iff hruns (w.action a)
  refine ⟨fun k => ?_, ?_⟩
  · rw [World.isSingle_tallyOf hw hruns ha]
    constructor
    · rintro ⟨run, hrun, hread⟩
      obtain ⟨hname, hreached, rfl⟩ := (World.mem_readings hw ha).mp hread
      obtain ⟨hreach, hkind⟩ := hboth run hrun hname
      exact ⟨_, (hok _).mpr ⟨run, hrun, hname, hreach.mp hreached, rfl⟩, (hkind hreached).symm⟩
    · rintro ⟨r, hr, rfl⟩
      obtain ⟨run, hrun, hname, hshare, rfl⟩ := (hok r).mp hr
      obtain ⟨hreach, hkind⟩ := hboth run hrun hname
      exact ⟨run, hrun, (World.mem_readings hw ha).mpr
        ⟨hname, hreach.mpr hshare, hkind (hreach.mpr hshare)⟩⟩
  · rw [World.isUnseen_tallyOf hw hruns ha, RunStore.replay_eq_error_iff hruns (w.action a),
      World.cost_action]
    refine forall₃_congr fun run hrun hname => ?_
    rw [← Bool.not_eq_true, (hboth run hrun hname).1]

/-- Counting and replaying agree about an action exactly when its ceiling is not at the edge. -/
theorem replayAgrees_iff : ReplayAgrees w s task a (w.tallyOf (s.runsForTask task)) ↔
    ∀ run ∈ s.runsForTask task, run.solver = (w.action a).solver →
      ¬w.OnEdge run (w.rungOf a) :=
  ⟨fun hagrees _ hrun hname => hagrees.not_onEdge hw hruns ha hrun hname,
    replayAgrees_of_not_onEdge hw hruns ha⟩

end edge

/-! ## Oracles -/

section oracle

variable {α : Type} [Analytic α] [GammaFunctions α] [Rounded α] {w : World α}
  (hw : w.check = .ok ()) {s : RunStore α} {task : String}
  (hruns : ((s.runsForTask task).map RecordedRun.solver).Nodup) {a : Nat} (ha : a < w.nactions)

include hw hruns ha

omit [GammaFunctions α] in
/-- Where counting and replaying agree, the truth about the tally of a task is success exactly
where replaying the action solves the task. -/
theorem successRate_truthTable_iff
    (hagrees : ReplayAgrees w s task a (w.tallyOf (s.runsForTask task))) :
    value ((Model.truthTable (α := α) (w.tallyOf (s.runsForTask task))).successRate a) = .real 1 ↔
      ∃ r, s.replay (w.action a) task = .ok r ∧ r.outcome.isSolved = true := by
  have htally := Counts.tallies_tally w.nactions ((s.runsForTask task).flatMap w.readings)
  rcases World.isUnseen_or_isSingle hw hruns ha with hunseen | ⟨k, hsingle⟩
  · have hrate := Model.value_successRate_truthTable htally ha
      (Model.truthRow_of_isUnseen (α := α) htally ha hunseen)
    have herror := hagrees.unseen.mp hunseen
    refine iff_of_false (fun hone => ?_) ?_
    · exact zero_ne_one (Exact.real.inj (hrate.symm.trans hone))
    · rintro ⟨r, hr, _⟩
      rw [herror] at hr
      cases hr
  · have hrate := Model.value_successRate_truthTable htally ha
      (Model.truthRow_of_isSingle (α := α) htally ha hsingle)
    obtain ⟨r, hr, hkind⟩ := (hagrees.single k).mp hsingle
    constructor
    · intro hone
      refine ⟨r, hr, ?_⟩
      have hsolved := Exact.real.inj (hrate.symm.trans hone)
      rw [Outcome.isSolved, hkind]
      by_contra hnot
      rw [if_neg hnot] at hsolved
      exact zero_ne_one hsolved
    · rintro ⟨r', hr', hsolved⟩
      obtain rfl := Except.ok.inj (hr.symm.trans hr')
      rw [Outcome.isSolved, hkind] at hsolved
      rw [if_pos hsolved] at hrate
      exact hrate

/-- Where counting and replaying agree, an oracle is sure of success exactly where replaying
the action solves the task. -/
theorem oracle_iff_replay (hagrees : ReplayAgrees w s task a (w.tallyOf (s.runsForTask task)))
    {m : Model α} (hm : Model.ofRuns w s.runs = .ok m) (features : Option (FeatureVector α))
    (history : Counts) :
    (∃ t, m.predict task features history = .ok t ∧ value (t.successRate a) = .real 1) ↔
      ∃ r, s.replay (w.action a) task = .ok r ∧ r.outcome.isSolved = true := by
  rw [Model.predict_of_ofRuns hm]
  by_cases htask : task ∈ s.runs.map RecordedRun.taskId
  · rw [if_pos htask, ← successRate_truthTable_iff hw hruns ha hagrees]
    constructor
    · rintro ⟨t, ht, hone⟩
      obtain rfl := Except.ok.inj ht
      exact hone
    · exact fun hone => ⟨_, rfl, hone⟩
  · -- Without runs there is no table to predict from and nothing to replay.
    rw [if_neg htask]
    have herror := (RunStore.replay_eq_error_iff hruns (w.action a)).mpr
      fun run hrun _ _ => htask (List.mem_map.mpr
        ⟨run, (List.mem_filter.mp hrun).1, eq_of_beq (List.mem_filter.mp hrun).2⟩)
    refine iff_of_false ?_ ?_
    · rintro ⟨_, ht, _⟩
      cases ht
    · rintro ⟨r, hr, _⟩
      rw [herror] at hr
      cases hr

/-- **Counting and replaying agree off the edge.** With one run per solver, the runs of a task can
be counted if the world has their solvers; and an oracle be built from the runs of all tasks if it
has theirs and their tallies add up. The counts of the task then show a single outcome of a kind
for an action exactly where replaying the action gives an outcome of that kind, and none exactly
where there is no run to replay, if and only if the ceiling is not at the edge of what a run of the
solver tells. It is not if the run was given the whole ceiling and was not solved in the slack
after it. Where they agree, an oracle is sure of success exactly where replaying solves the
task. -/
theorem counting_agrees_with_replay :
    ((∃ c, w.countsFromRuns (s.runsForTask task) = .ok c) ↔
        ∀ run ∈ s.runsForTask task, (w.solverIndex? run.solver).isSome = true) ∧
      ((∃ m, Model.ofRuns w s.runs = .ok m) ↔
        (∀ run ∈ s.runs, (w.solverIndex? run.solver).isSome = true) ∧ w.HasTallies s.runs) ∧
      ∀ c, w.countsFromRuns (s.runsForTask task) = .ok c →
        (ReplayAgrees w s task a c ↔
          ∀ run ∈ s.runsForTask task, run.solver = (w.action a).solver →
            ¬w.OnEdge run (w.rungOf a)) ∧
        (∀ run : RecordedRun α, (w.action a).cost ≤ run.budget →
          (run.outcome.isSolved = true → run.cost ≤ (w.action a).cost ∨
            ¬run.cost ≤ (w.action a).cost * World.slack) → ¬w.OnEdge run (w.rungOf a)) ∧
        (ReplayAgrees w s task a c → ∀ m, Model.ofRuns w s.runs = .ok m → ∀ features history,
          (∃ t, m.predict task features history = .ok t ∧ value (t.successRate a) = .real 1) ↔
            ∃ r, s.replay (w.action a) task = .ok r ∧ r.outcome.isSolved = true) := by
  have hcounts := World.hasCounts_of_nodup hw hruns
  refine ⟨World.exists_countsFromRuns_iff.trans (and_iff_left hcounts), Model.exists_ofRuns_iff,
    fun c hc => ?_⟩
  obtain ⟨-, -, rfl⟩ := World.countsFromRuns_eq_ok_iff.mp hc
  exact ⟨replayAgrees_iff hw hruns ha, fun _ => World.not_onEdge_of_le hw,
    fun hagrees _ hm => oracle_iff_replay hw hruns ha hagrees hm⟩

end oracle

/-- One solver on one rung of ten seconds, in doubles. -/
def World.tenSeconds : World Float := ⟨["a"], ⟨10, 1⟩⟩

/-- A task that was solved in five of twenty seconds. -/
def RunStore.inTime : RunStore Float := ⟨[⟨"t", "a", 20, 5, .positive none⟩]⟩

open World RunStore in
theorem counting_agrees_with_replay_inTime :
    tenSeconds.check = .ok () ∧ ((inTime.runsForTask "t").map RecordedRun.solver).Nodup ∧
      0 < tenSeconds.nactions ∧
      ∃ c, tenSeconds.countsFromRuns (inTime.runsForTask "t") = .ok c ∧
        ReplayAgrees tenSeconds inTime "t" 0 c := by
  have hnodup : ((inTime.runsForTask "t").map RecordedRun.solver).Nodup := by decide
  have hknown : ∀ run ∈ inTime.runsForTask "t",
      (tenSeconds.solverIndex? run.solver).isSome = true := by
    intro run hrun
    obtain rfl := List.mem_singleton.mp hrun
    rfl
  obtain ⟨hcounts, _, hagrees⟩ :=
    counting_agrees_with_replay (w := tenSeconds) rfl hnodup (a := 0) (by decide)
  obtain ⟨c, hc⟩ := hcounts.mpr hknown
  obtain ⟨hiff, hclear, _⟩ := hagrees c hc
  refine ⟨rfl, hnodup, by decide, c, hc, hiff.mpr fun run hrun _ => ?_⟩
  obtain rfl := List.mem_singleton.mp hrun
  exact hclear _ (by decide +kernel) fun _ => Or.inl (by decide +kernel)

/-- A task that was solved in the slack after ten seconds. -/
def RunStore.justLate : RunStore Float := ⟨[⟨"t", "a", 20, 10.000000005, .positive none⟩]⟩

-- At the edge the two part: the run counts as solved, and replaying it solves nothing.
open World RunStore in
example : tenSeconds.countsFromRuns (justLate.runsForTask "t") = .ok ⟨1, 3, [0, 1, 0]⟩ ∧
    justLate.replay (tenSeconds.action 0) "t" = .ok ⟨10, .unsolved, .recycled⟩ := ⟨rfl, rfl⟩

end SolverPortfolio

import SolverPortfolio.Proofs.Counting
import SolverPortfolio.Proofs.Scalar.RoundedDouble

/-!
# What counting runs counts

A run of one solver is counted on several rungs, and runs of one solver on the same rungs. How
often a kind of outcome is counted for a solver on a rung is nevertheless a plain number: that of
the runs of the solver that were given enough for the ceiling and stand for the kind there
(`World.runsOn`). A run has at most one reading per action (`World.nodup_readings`), so that
counting readings is counting runs (`Counts.count_flatMap_of_nodup`); which readings it has can be
told rung by rung, since ceilings rise (`World.mem_readings_index`).

Rising ceilings also give the shape of what a single run adds. It reaches the rungs up to some
point, and from some rung on it was solved in time (`World.exists_reach_solved`).
-/

namespace SolverPortfolio

open Scalar Rounded

/-! ## Slack -/

section slack

variable {α : Type} [Scalar α] [Rounded α]

theorem World.value_slack : ∃ x : ℝ, value (slack : α) = .real x ∧ 1 ≤ x := by
  obtain ⟨t, ht, ht0, ht1⟩ := Ladder.tolerance_near (α := α)
  have htpos : 0 < t := lt_of_lt_of_le (by norm_num) ht0
  have hvalue : value (slack : α) = nearest α (1 + t) := by
    show value ((1 : α) + Ladder.tolerance) = _
    rw [value_add, value_one, ht]
    rfl
  have htwo : nearest α 2 = .real 2 := by
    have h := nearest_natCast (α := α) (n := 2) (by norm_num)
    rwa [Nat.cast_ofNat] at h
  obtain ⟨x, hx, hx1, _⟩ := nearest_between α (nearest_one α) htwo (by linarith : 1 ≤ 1 + t)
    (by norm_num at ht1; linarith)
  exact ⟨x, hvalue.trans hx, hx1⟩

/-- Slack makes no number out of what is none, and nothing else of a number. -/
theorem isNaN_mul_slack {x : α} (hx : isNaN x = false) : isNaN (x * World.slack) = false := by
  obtain ⟨t, ht, ht1⟩ := World.value_slack (α := α)
  have htpos : 0 < t := by linarith
  rw [isNaN_eq_false_iff] at hx ⊢
  rw [value_mul, ht]
  cases hv : value x with
  | real u => exact nearest_ne_nan α _
  | posInf =>
      show (Exact.infinite (1 * SignType.sign t)).rounded _ ≠ _
      rw [sign_pos htpos]
      exact Exact.noConfusion
  | negInf =>
      show (Exact.infinite (-1 * SignType.sign t)).rounded _ ≠ _
      rw [sign_pos htpos]
      exact Exact.noConfusion
  | nan => exact absurd hv hx

/-- Slack keeps the order of numbers that are not negative. -/
theorem mul_slack_mono {x y : α} (hx : .real 0 ≤ value x) (hxy : x ≤ y) :
    x * World.slack ≤ y * World.slack := by
  obtain ⟨t, ht, ht1⟩ := World.value_slack (α := α)
  rw [le_iff] at hxy ⊢
  rw [value_mul, value_mul, ht, Exact.mul_comm, Exact.mul_comm (value y)]
  exact Exact.rounded_mono (Exact.mul_le_mul_left (by linarith) hx hxy)

end slack

/-! ## Counting readings -/

/-- A property that passes down holds up to some point. -/
theorem exists_threshold {P : ℕ → Prop} (hdown : ∀ i j, i ≤ j → P j → P i) (n : ℕ) :
    ∃ m ≤ n, ∀ r < n, P r ↔ r < m := by
  induction n with
  | zero => exact ⟨0, Nat.le_refl 0, fun r hr => absurd hr (Nat.not_lt_zero r)⟩
  | succ n ih =>
      by_cases hn : P n
      · refine ⟨n + 1, Nat.le_refl _, fun r hr => ?_⟩
        exact iff_of_true (hdown r n (by omega) hn) hr
      · obtain ⟨m, hm, hiff⟩ := ih
        refine ⟨m, by omega, fun r hr => ?_⟩
        by_cases hrn : r = n
        · subst hrn
          exact iff_of_false hn (by omega)
        · exact hiff r (by omega)

theorem Outcome.kind_eq_unsolved {o : Outcome} (h : ¬o.isSolved = true) : o.kind = .unsolved := by
  rw [isSolved] at h
  cases hkind : o.kind with
  | unsolved => rfl
  | positive | negative =>
      rw [hkind] at h
      exact absurd rfl h

namespace World

section readings

variable {α : Type} [Scalar α] {w : World α}

theorem nodup_readings (run : RecordedRun α) : (w.readings run).Nodup := by
  rw [readings]
  cases w.solverIndex? run.solver with
  | none => exact List.nodup_nil
  | some s =>
      rw [Option.toList_some, List.flatMap_singleton]
      refine (List.nodup_range.sublist (List.takeWhile_sublist _)).map fun i j h => ?_
      exact Nat.add_left_cancel (Prod.mk.inj h).1

theorem fst_lt_of_mem_flatMap_readings {runs : List (RecordedRun α)} :
    ∀ e ∈ runs.flatMap w.readings, e.1 < w.nactions := fun _ he =>
  let ⟨_, _, h⟩ := List.mem_flatMap.mp he
  fst_lt_of_mem_readings h

omit [Scalar α] in
theorem isSome_solverIndex?_iff {name : String} :
    (w.solverIndex? name).isSome = true ↔ name ∈ w.solvers := by
  rw [solverIndex?, List.isSome_idxOf?]

/-- The number of runs of a solver that were given the ceiling of a rung, or fall short of it by
no more than the slack, and stand for a kind of outcome there. -/
def runsOn (w : World α) (runs : List (RecordedRun α)) (s r : ℕ) (k : OutcomeKind) : ℕ :=
  runs.countP fun run => decide (run.solver = w.solvers.getD s "" ∧
    w.ladder.budget r ≤ run.budget * slack ∧ w.kindAt run r = k)

end readings

section checked

variable {α : Type} [Scalar α] [Rounded α] {w : World α} (hw : w.check = .ok ())

include hw

theorem budget_nonneg (rung : Nat) : .real 0 ≤ value (w.ladder.budget rung) := by
  obtain ⟨step, hpos, hstep⟩ := exists_step_value hw
  exact Exact.le_trans ((Exact.real_le _ _).mpr hpos.le) (Ladder.step_le_budget hstep hpos rung)

/-- With a number for a budget, a run reaches the rungs whose ceilings are within its budget and
the slack. -/
theorem reaches_iff {run : RecordedRun α} (hrun : isNaN run.budget = false) {r : ℕ} :
    w.reaches run r = true ↔ w.ladder.budget r ≤ run.budget * slack := by
  have hslack := isNaN_eq_false_iff.mp (isNaN_mul_slack hrun)
  rw [reaches, Bool.not_eq_true', decide_eq_false_iff_not, lt_iff, le_iff]
  exact Exact.not_lt_iff hslack (budget_nonneg hw r).2.1

theorem mem_readings_index {run : RecordedRun α} {s r : ℕ} (hs : s < w.nsolvers)
    (hr : r < w.nbudgets) {k : OutcomeKind} : (w.index s r, k) ∈ w.readings run ↔
      run.solver = w.solvers.getD s "" ∧ w.reaches run r = true ∧ w.kindAt run r = k := by
  have hsolver : (w.action (w.index s r)).solver = w.solvers.getD s "" := by
    rw [action, splitIndex_index hr]
    rfl
  rw [mem_readings hw (index_lt_nactions hs hr), hsolver, rungOf_index hr]

/-- Rungs are reached up to some point, and solved in time from some rung on. -/
theorem exists_reach_solved (run : RecordedRun α) : ∃ reach ≤ w.nbudgets, ∃ solved,
    ∀ r < w.nbudgets, (w.reaches run r = true ↔ r < reach) ∧
      w.kindAt run r = if solved ≤ r then run.outcome.kind else .unsolved := by
  obtain ⟨reach, hreach, hreaches⟩ := exists_threshold (P := fun r => w.reaches run r = true)
    (fun _ _ hle => reaches_of_le hw hle) w.nbudgets
  -- Being late passes down, for a higher ceiling leaves more time.
  have hdown : ∀ i j, i ≤ j → ¬run.cost ≤ w.ladder.budget j * slack →
      ¬run.cost ≤ w.ladder.budget i * slack := by
    intro i j hle hlate hin
    have hmono := mul_slack_mono (budget_nonneg hw i) (budget_mono hw hle)
    rw [le_iff] at hin hmono hlate
    exact hlate (Exact.le_trans hin hmono)
  obtain ⟨solved, _, hlate⟩ := exists_threshold hdown w.nbudgets
  refine ⟨reach, hreach, solved, fun r hr => ⟨hreaches r hr, ?_⟩⟩
  have hsolved : run.cost ≤ w.ladder.budget r * slack ↔ solved ≤ r := by
    rw [← not_iff_not, hlate r hr, not_le]
  by_cases hkind : run.outcome.isSolved = true
  · simp [kindAt, hkind, hsolved]
  · simp [kindAt, hkind, Outcome.kind_eq_unsolved hkind]

theorem count_readings_index {runs : List (RecordedRun α)}
    (hbudgets : ∀ run ∈ runs, isNaN run.budget = false) {s r : ℕ} (hs : s < w.nsolvers)
    (hr : r < w.nbudgets) (k : OutcomeKind) :
    (runs.flatMap w.readings).count (w.index s r, k) = w.runsOn runs s r k := by
  rw [Counts.count_flatMap_of_nodup nodup_readings, runsOn]
  refine List.countP_congr fun run hrun => ?_
  rw [List.contains_iff_mem, decide_eq_true_eq, mem_readings_index hw hs hr,
    reaches_iff hw (hbudgets run hrun)]

/-- There is room for runs if no cell has more of them than a count can be. -/
theorem hasCounts_iff {runs : List (RecordedRun α)}
    (hbudgets : ∀ run ∈ runs, isNaN run.budget = false) : w.HasCounts runs ↔
      ∀ s < w.nsolvers, ∀ r < w.nbudgets, ∀ k, w.runsOn runs s r k < UInt32.size := by
  rw [HasCounts, Counts.fits_iff]
  constructor
  · intro hfits s hs r hr k
    rw [← count_readings_index hw hbudgets hs hr k]
    exact hfits (w.index s r, k)
  · rintro hruns ⟨a, k⟩
    by_cases ha : a < w.nactions
    · have hrung : (w.splitIndex a).2 < w.nbudgets := rungOf_lt (nbudgets_pos hw) a
      rw [← index_splitIndex (w := w) a, count_readings_index hw hbudgets (solver_lt ha) hrung]
      exact hruns _ (solver_lt ha) _ hrung k
    · rw [List.count_eq_zero_of_not_mem fun hmem => ha (fst_lt_of_mem_flatMap_readings _ hmem)]
      decide

/-- Fewer runs than a count can be are few enough for every cell. -/
theorem hasCounts_of_length {runs : List (RecordedRun α)}
    (hbudgets : ∀ run ∈ runs, isNaN run.budget = false) (hsize : runs.length < UInt32.size) :
    w.HasCounts runs :=
  (hasCounts_iff hw hbudgets).mpr fun _ _ _ _ _ => List.countP_le_length.trans_lt hsize

theorem toNat_get_tallyOf {runs : List (RecordedRun α)}
    (hbudgets : ∀ run ∈ runs, isNaN run.budget = false) (hroom : w.HasCounts runs) {s r : ℕ}
    (hs : s < w.nsolvers) (hr : r < w.nbudgets) (k : OutcomeKind) :
    ((w.tallyOf runs).get (w.index s r) k.index).toNat = w.runsOn runs s r k := by
  rw [tallyOf, Counts.Fits.toNat_get_tally hroom fst_lt_of_mem_flatMap_readings,
    count_readings_index hw hbudgets hs hr]

/-- What a single run adds: one outcome on each rung of its solver that it reaches, and there its
own kind from the rung on at which it was solved in time. -/
theorem get_tallyOf_singleton {run : RecordedRun α} {s : ℕ}
    (hs : w.solverIndex? run.solver = some s) : ∃ reach ≤ w.nbudgets, ∃ solved,
      ∀ s' < w.nsolvers, ∀ r < w.nbudgets, ∀ k : OutcomeKind,
        (w.tallyOf [run]).get (w.index s' r) k.index =
          if s' = s ∧ r < reach ∧ k = (if solved ≤ r then run.outcome.kind else .unsolved)
          then 1 else 0 := by
  obtain ⟨reach, hreach, solved, hrungs⟩ := exists_reach_solved hw run
  refine ⟨reach, hreach, solved, fun s' hs' r hr k => ?_⟩
  have hsolver : run.solver = w.solvers.getD s' "" ↔ s' = s := by
    rw [← solverIndex?_eq_some_iff hw run.solver hs', hs, Option.some.injEq, eq_comm]
  obtain ⟨hreaches, hkind⟩ := hrungs r hr
  rw [tallyOf, Counts.get_tally fst_lt_of_mem_flatMap_readings,
    Counts.count_flatMap_of_nodup nodup_readings]
  simp only [List.countP_singleton, List.contains_iff_mem, mem_readings_index hw hs' hr, hsolver,
    hreaches, hkind, eq_comm (a := k)]
  rw [apply_ite UInt32.ofNat]
  rfl

/-- **Counting runs is exact.** Runs can be counted unless one is of a solver outside the world,
and then such a solver is reported, or a cell would have more of them than a count can be, and
then the library stops; it takes as many runs as there are counts for that. A cell of the counts
is the number of runs of its solver that stand for its kind on its rung. Runs can be counted in
any order and part by part, and a single run is counted at most once for an action, on the rungs
up to some point, with its own kind from some rung on. -/
theorem countsFromRuns_exact {runs : List (RecordedRun α)}
    (hbudgets : ∀ run ∈ runs, isNaN run.budget = false) :
    (w.HasCounts runs ↔
        ∀ s < w.nsolvers, ∀ r < w.nbudgets, ∀ k, w.runsOn runs s r k < UInt32.size) ∧
      (runs.length < UInt32.size → w.HasCounts runs) ∧
      ((∃ e, w.countsFromRuns runs = .error e) ↔
        (∃ run ∈ runs, run.solver ∉ w.solvers) ∨ ¬w.HasCounts runs) ∧
      (∀ e, w.countsFromRuns runs = .error e →
        (∃ run ∈ runs, run.solver ∉ w.solvers ∧ e = .unknownSolver run.solver) ∨
          e = .overflow ∧ ¬w.HasCounts runs) ∧
      ((∀ run ∈ runs, run.solver ∈ w.solvers) → w.HasCounts runs →
        ∃ c, w.countsFromRuns runs = .ok c ∧ c.Tallies w.nactions ∧
          ∀ s < w.nsolvers, ∀ r < w.nbudgets, ∀ k : OutcomeKind,
            (c.get (w.index s r) k.index).toNat = w.runsOn runs s r k) ∧
      (∀ runs', runs.Perm runs' →
        ∀ c, w.countsFromRuns runs = .ok c ↔ w.countsFromRuns runs' = .ok c) ∧
      (∀ runs', w.HasCounts (runs ++ runs') → w.countsFromRuns (runs ++ runs') =
        (w.countsFromRuns runs).bind fun c => (w.countsFromRuns runs').map c.plus) ∧
      ∀ run ∈ runs, ∀ s, w.solverIndex? run.solver = some s → ∃ reach ≤ w.nbudgets, ∃ solved c,
        w.countsFromRuns [run] = .ok c ∧ ∀ s' < w.nsolvers, ∀ r < w.nbudgets, ∀ k : OutcomeKind,
          c.get (w.index s' r) k.index =
            if s' = s ∧ r < reach ∧ k = (if solved ≤ r then run.outcome.kind else .unsolved)
            then 1 else 0 := by
  have hunknown : ∀ run : RecordedRun α,
      (w.solverIndex? run.solver).isSome = false ↔ run.solver ∉ w.solvers := fun run => by
    rw [← isSome_solverIndex?_iff, Bool.not_eq_true]
  refine ⟨hasCounts_iff hw hbudgets, hasCounts_of_length hw hbudgets, ?_, fun e he => ?_,
    fun hknown hroom => ?_,
    fun runs' hp c => (collects_runs w).perm hp, fun runs' => (collects_runs w).append,
    fun run hrun s hs => ?_⟩
  · simp only [(collects_runs w).fails_iff, hunknown, HasCounts]
  · rcases (collects_runs w).eq_error he with ⟨run, hmem, hrun, rfl⟩ | hfull
    · exact Or.inl ⟨run, hmem, (hunknown run).mp hrun, rfl⟩
    · exact Or.inr hfull
  · refine ⟨_, ?_, Counts.tallies_tally _ _, fun s hs r hr k =>
      toNat_get_tallyOf hw hbudgets hroom hs hr k⟩
    rw [countsFromRuns_eq fun run h => isSome_solverIndex?_iff.mpr (hknown run h), if_pos hroom]
    rfl
  · obtain ⟨reach, hreach, solved, hcells⟩ := get_tallyOf_singleton hw hs
    have hroom : w.HasCounts [run] := hasCounts_of_length hw
      (List.forall_mem_singleton.mpr (hbudgets run hrun)) (by rw [List.length_singleton]; decide)
    refine ⟨reach, hreach, solved, _, ?_, hcells⟩
    rw [countsFromRuns_eq (List.forall_mem_singleton.mpr (by rw [hs]; rfl)), if_pos hroom]

end checked

/-- Two solvers on three rungs of ten seconds, in doubles. -/
def thirtySeconds : World Float := ⟨["a", "b"], ⟨10, 3⟩⟩

/-- A run that was solved on the way up to its budget, another one of its solver that was given
less, and one of the other solver. -/
def overlapping : List (RecordedRun Float) :=
  [⟨"t", "a", 30, 15, .positive none⟩, ⟨"t", "a", 10, 10, .unsolved⟩, ⟨"u", "b", 20, 3, .negative⟩]

theorem countsFromRuns_exact_overlapping : thirtySeconds.check = .ok () ∧
    (∀ run ∈ overlapping, isNaN run.budget = false) ∧
    ∃ c, thirtySeconds.countsFromRuns overlapping = .ok c ∧
      (c.get (thirtySeconds.index 0 0) OutcomeKind.unsolved.index).toNat = 2 ∧
      (c.get (thirtySeconds.index 0 2) OutcomeKind.positive.index).toNat = 1 := by
  have hbudgets : ∀ run ∈ overlapping, isNaN run.budget = false := by decide +kernel
  obtain ⟨_, hroom, _, _, hcells, _⟩ := countsFromRuns_exact (w := thirtySeconds) rfl hbudgets
  obtain ⟨c, hc, _, hcells⟩ := hcells (by decide) (hroom (by decide))
  have hfirst := hcells 0 (by decide) 0 (by decide) .unsolved
  have hthird := hcells 0 (by decide) 2 (by decide) .positive
  refine ⟨rfl, hbudgets, c, hc, hfirst.trans ?_, hthird.trans ?_⟩ <;> decide +kernel

end World

end SolverPortfolio

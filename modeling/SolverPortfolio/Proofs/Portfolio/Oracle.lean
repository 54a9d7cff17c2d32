import SolverPortfolio.Proofs.Counting
import SolverPortfolio.Proofs.Counts
import SolverPortfolio.Proofs.Grouping
import SolverPortfolio.Proofs.Portfolio.Rates
import SolverPortfolio.Proofs.Portfolio.Sizes

/-!
# Oracles

An oracle keeps a table for every task that has runs, the truth about the tally of its runs, if
the tallies add up (`Model.ofRuns_eq`). Where all that is counted for an action is one outcome,
the truth is a row with a one in its column and zeros elsewhere, and scaling leaves it as it is;
so the success rate is one if the outcome is a solved one and zero otherwise
(`Model.value_successRate_truthTable`).
-/

namespace SolverPortfolio

open Scalar Rounded LogSpace

/-! ## Single counts -/

namespace Counts

/-- All that is counted for the action is one outcome of this kind. -/
def IsSingle (c : Counts) (a : Nat) (k : OutcomeKind) : Prop :=
  ∀ l : OutcomeKind, c.get a l.index = if l = k then 1 else 0

/-- Nothing is counted for the action. -/
def IsUnseen (c : Counts) (a : Nat) : Prop := ∀ l : OutcomeKind, c.get a l.index = 0

theorem Tallies.row_eq {c : Counts} {n : Nat} (h : c.Tallies n) {a : Nat} (ha : a < n) :
    c.row a = OutcomeKind.all.map fun k => c.get a k.index := by
  rw [h.isSized.row_eq ha]
  rfl

end Counts

/-! ## Fitting -/

/-- Computations that can fail in one way only. -/
theorem Decision.mapM_ite {ε β γ : Type} (p : β → Prop) [DecidablePred p] (f : β → γ) (e : ε)
    (xs : List β) : (xs.mapM fun x => if p x then Except.ok (f x) else Except.error e) =
      if ∀ x ∈ xs, p x then Except.ok (xs.map f) else Except.error e := by
  induction xs with
  | nil => rfl
  | cons x xs ih =>
      rw [List.mapM_cons, ih]
      simp only [List.forall_mem_cons]
      by_cases hx : p x
      · by_cases hxs : ∀ y ∈ xs, p y
        · rw [if_pos hx, if_pos hxs, if_pos ⟨hx, hxs⟩]
          rfl
        · rw [if_pos hx, if_neg hxs, if_neg fun h => hxs (And.right h)]
          rfl
      · have hnot : ¬(p x ∧ ∀ y ∈ xs, p y) := fun h => hx h.1
        rw [if_neg hx, if_neg hnot]
        rfl

namespace World

variable {α : Type} [Analytic α]

/-- Some runs can be counted, and the counts added up. -/
def HasTally (w : World α) (runs : List (RecordedRun α)) : Prop :=
  w.HasCounts runs ∧ ∀ a < w.nactions, (w.tallyOf runs).total a < UInt32.size

/-- So can the runs of each task. -/
def HasTallies (w : World α) (runs : List (RecordedRun α)) : Prop :=
  ∀ task ∈ runs.map RecordedRun.taskId, w.HasTally (runs.filter fun run => run.taskId == task)

instance (w : World α) (runs : List (RecordedRun α)) : Decidable (w.HasTally runs) :=
  inferInstanceAs (Decidable (_ ∧ _))

instance (w : World α) (runs : List (RecordedRun α)) : Decidable (w.HasTallies runs) :=
  inferInstanceAs (Decidable (∀ task ∈ runs.map RecordedRun.taskId, _))

theorem hasTally_iff_of_usable {w : World α} {runs runs' : List (RecordedRun α)}
    (h : (runs.filter w.isUsable).Perm (runs'.filter w.isUsable)) :
    w.HasTally runs ↔ w.HasTally runs' := by
  rw [HasTally, HasTally, hasCounts_iff_of_usable h, tallyOf_eq_of_usable h]

end World

namespace Model

section fit

variable {α : Type} [Analytic α] {w : World α}

/-- What comes of the runs of a task. -/
theorem tableOf_eq {runs : List (RecordedRun α)} (task : String)
    (h : ∀ run ∈ runs, (w.solverIndex? run.solver).isSome = true) :
    (do
      let c ← w.countsFromRuns runs
      .provided (c.hasTotals c.nactions)
      return (task, truthTable c) : Decision α (String × Prediction α)) =
      if w.HasTally runs then .ok (task, truthTable (w.tallyOf runs)) else .error .overflow := by
  have hsize : (w.tallyOf runs).nactions = w.nactions := (Counts.tallies_tally _ _).nactions
  rw [World.countsFromRuns_eq h]
  by_cases hcounts : w.HasCounts runs
  · rw [if_pos hcounts]
    show (Decision.provided ((w.tallyOf runs).hasTotals (w.tallyOf runs).nactions) >>=
      fun _ => pure (task, truthTable (w.tallyOf runs))) = _
    rw [hsize]
    by_cases htotals : (w.tallyOf runs).hasTotals w.nactions = true
    · rw [htotals, if_pos ⟨hcounts, Counts.hasTotals_iff.mp htotals⟩]
      rfl
    · have hnot : ¬w.HasTally runs := fun hall => htotals (Counts.hasTotals_iff.mpr hall.2)
      rw [Bool.eq_false_iff.mpr htotals, if_neg hnot]
      rfl
  · have hnot : ¬w.HasTally runs := fun hall => hcounts hall.1
    rw [if_neg hcounts, if_neg hnot]
    rfl

/-- The table of a task is the truth about the tally of its runs. -/
theorem ofRuns_eq {runs : List (RecordedRun α)}
    (h : ∀ run ∈ runs, (w.solverIndex? run.solver).isSome = true) :
    ofRuns w runs = if w.HasTallies runs then
      .ok (.oracle ((sortedNames (runs.map RecordedRun.taskId)).map fun task =>
        (task, truthTable (w.tallyOf (runs.filter fun run => run.taskId == task)))))
    else .error .overflow := by
  have htable := fun task =>
    tableOf_eq task fun run (hrun : run ∈ runs.filter fun run => run.taskId == task) =>
      h run (List.mem_filter.mp hrun).1
  have hall : (∀ task ∈ sortedNames (runs.map RecordedRun.taskId),
      w.HasTally (runs.filter fun run => run.taskId == task)) ↔ w.HasTallies runs :=
    forall_congr' fun _ => imp_congr_left mem_sortedNames
  rw [ofRuns, groupByName, List.mapM_map]
  simp only [Function.comp_def, htable]
  rw [Decision.mapM_ite]
  by_cases htallies : w.HasTallies runs
  · rw [if_pos (hall.mpr htallies), if_pos htallies]
    rfl
  · rw [if_neg (mt hall.mp htallies), if_neg htallies]
    rfl

/-- An oracle does not look at runs that are not usable, nor at the order of the others. -/
theorem ofRuns_congr {runs runs' : List (RecordedRun α)}
    (h : ∀ run ∈ runs, (w.solverIndex? run.solver).isSome = true)
    (h' : ∀ run ∈ runs', (w.solverIndex? run.solver).isSome = true)
    (htasks : ∀ task, task ∈ runs.map RecordedRun.taskId ↔ task ∈ runs'.map RecordedRun.taskId)
    (hruns : (runs.filter w.isUsable).Perm (runs'.filter w.isUsable)) :
    ofRuns w runs = ofRuns w runs' := by
  have husable : ∀ task, ((runs.filter fun run => run.taskId == task).filter w.isUsable).Perm
      ((runs'.filter fun run => run.taskId == task).filter w.isUsable) := by
    intro task
    rw [List.filter_comm, List.filter_comm (l := runs')]
    exact hruns.filter _
  have htally := fun task => World.tallyOf_eq_of_usable (husable task)
  have htallies : w.HasTallies runs ↔ w.HasTallies runs' := by
    simp only [World.HasTallies, htasks, fun task => World.hasTally_iff_of_usable (husable task)]
  rw [ofRuns_eq h, ofRuns_eq h', sortedNames_congr htasks]
  simp only [htally, htallies]

/-- An oracle can be built if the world has the solvers of all runs and their tallies add up. -/
theorem exists_ofRuns_iff {runs : List (RecordedRun α)} : (∃ m, ofRuns w runs = .ok m) ↔
    (∀ run ∈ runs, (w.solverIndex? run.solver).isSome = true) ∧ w.HasTallies runs := by
  constructor
  · rintro ⟨m, hm⟩
    have hknown : ∀ run ∈ runs, (w.solverIndex? run.solver).isSome = true := by
      intro run hrun
      obtain ⟨tables, htables, -⟩ := Decision.bind_eq_ok hm
      have hgroup : (run.taskId, runs.filter fun run' => run'.taskId == run.taskId) ∈
          groupByName RecordedRun.taskId runs :=
        List.mem_map.mpr ⟨run.taskId, mem_sortedNames.mpr (List.mem_map_of_mem hrun), rfl⟩
      obtain ⟨_, -, htable⟩ := Decision.mapM_eq_ok htables _ hgroup
      obtain ⟨c, hc, -⟩ := Decision.bind_eq_ok htable
      exact (World.exists_countsFromRuns_iff.mp ⟨c, hc⟩).1 run
        (List.mem_filter.mpr ⟨hrun, beq_self_eq_true _⟩)
    refine ⟨hknown, ?_⟩
    by_contra hnot
    rw [ofRuns_eq hknown, if_neg hnot] at hm
    cases hm
  · rintro ⟨hknown, htallies⟩
    exact ⟨_, (ofRuns_eq hknown).trans (if_pos htallies)⟩

/-- The oracle that is built. -/
theorem eq_of_ofRuns {runs : List (RecordedRun α)} {m : Model α} (hm : ofRuns w runs = .ok m) :
    m = .oracle ((sortedNames (runs.map RecordedRun.taskId)).map fun task =>
      (task, truthTable (w.tallyOf (runs.filter fun run => run.taskId == task)))) := by
  obtain ⟨hknown, htallies⟩ := exists_ofRuns_iff.mp ⟨m, hm⟩
  rw [ofRuns_eq hknown, if_pos htallies] at hm
  exact (Except.ok.inj hm).symm

/-- An oracle knows the tasks it has runs of. -/
theorem predict_of_ofRuns [GammaFunctions α] {runs : List (RecordedRun α)} {m : Model α}
    (hm : ofRuns w runs = .ok m) (task : String) (features : Option (FeatureVector α))
    (history : Counts) : m.predict task features history =
      if task ∈ runs.map RecordedRun.taskId then
        .ok (truthTable (w.tallyOf (runs.filter fun run => run.taskId == task)))
      else .error (.invalidModel (.unknownTask task)) := by
  rw [eq_of_ofRuns hm, predict, lookup_map_names]
  simp only [mem_sortedNames]
  by_cases htask : task ∈ runs.map RecordedRun.taskId
  · rw [if_pos htask, if_pos htask]
  · rw [if_neg htask, if_neg htask]

end fit

/-! ## The truth about one outcome -/

/-- A one in the column of a kind. -/
def unitRow {α : Type} [Scalar α] (k : OutcomeKind) : List α :=
  OutcomeKind.all.map fun l => if l = k then 1 else 0

section truth

variable {α : Type} [Analytic α] {c : Counts} {n : Nat} (hc : c.Tallies n) {a : Nat} (ha : a < n)

include hc ha

theorem truthRow_of_isSingle {k : OutcomeKind} (h : c.IsSingle a k) :
    truthRow (α := α) c a = unitRow k := by
  have hrow : c.row a = OutcomeKind.all.map fun l => if l = k then 1 else 0 := by
    rw [hc.row_eq ha]
    exact List.map_congr_left fun l _ => h l
  have htotal : (c.total a == 0) = false := by
    rw [Counts.total, hrow]
    cases k <;> rfl
  rw [truthRow, htotal, if_neg Bool.false_ne_true, hrow, unitRow, List.map_map]
  refine List.map_congr_left fun l _ => ?_
  by_cases hl : l = k
  · rw [Function.comp_apply, if_pos hl, if_pos hl]
    rfl
  · rw [Function.comp_apply, if_neg hl, if_neg hl]
    rfl

theorem truthRow_of_isUnseen (h : c.IsUnseen a) :
    truthRow (α := α) c a = unitRow .unsolved := by
  have hrow : c.row a = OutcomeKind.all.map fun _ => 0 := by
    rw [hc.row_eq ha]
    exact List.map_congr_left fun l _ => h l
  have htotal : (c.total a == 0) = true := by
    rw [Counts.total, hrow]
    rfl
  rw [truthRow, htotal, if_pos rfl, hc.noutcomes]
  rfl

variable [Rounded α]

omit hc ha in
/-- A number from zero to one is not cut off. -/
theorem value_clamp {x : α} {u : ℝ} (hx : value x = .real u) (h0 : 0 ≤ u) (h1 : u ≤ 1) :
    value (clamp x 0 1) = .real u := by
  rw [clamp, if_neg, if_neg, hx]
  · rw [lt_iff, hx, value_one, Exact.real_lt]
    exact h1.not_gt
  · rw [lt_iff, hx, value_zero, Exact.real_lt]
    exact h0.not_gt

omit hc ha in
theorem value_sum_unitRow (k : OutcomeKind) :
    value (Scalar.sum (unitRow k : List α)) = .real 1 := by
  have hzero : value (-0 : α) = .real 0 := by
    rw [value_neg, value_zero, Exact.real_neg, neg_zero]
  have hkeep : ∀ {x : α} {u : ℝ}, value x = .real u → value (x + 0) = .real u := by
    intro x u hx
    rw [value_add, hx, value_zero, Exact.real_add, add_zero]
    exact nearest_of_value hx
  have hone : ∀ {x : α}, value x = .real 0 → value (x + 1) = .real 1 := by
    intro x hx
    rw [value_add, hx, value_one, Exact.real_add, zero_add]
    exact nearest_one α
  cases k with
  | unsolved => exact hkeep (hkeep (hone hzero))
  | positive => exact hkeep (hone (hkeep hzero))
  | negative => exact hone (hkeep (hkeep hzero))

omit hc ha in
/-- A unit row is left as it is by scaling. -/
theorem value_normalize_unitRow (k : OutcomeKind) :
    value ((normalizeScores (unitRow k : List α)).getD OutcomeKind.unsolved.index 0) =
      .real (if k = .unsolved then 1 else 0) := by
  have hsum := value_sum_unitRow (α := α) k
  have htotal : 0 < Scalar.sum (unitRow k : List α) ∧
      isFinite (Scalar.sum (unitRow k : List α)) = true := by
    refine ⟨?_, isFinite_iff.mpr ⟨1, hsum⟩⟩
    rw [lt_iff, value_zero, hsum, Exact.real_lt]
    exact zero_lt_one
  have hne : value (Scalar.sum (unitRow k : List α)) ≠ .real 0 := by
    rw [hsum]
    exact fun h => one_ne_zero (Exact.real.inj h)
  have hentry : (normalizeScores (unitRow k : List α)).getD OutcomeKind.unsolved.index 0 =
      (if .unsolved = k then 1 else 0) / Scalar.sum (unitRow k : List α) := by
    simp only [normalizeScores]
    rw [if_pos htotal]
    rfl
  rw [hentry, value_div _ hne, hsum]
  cases k with
  | unsolved =>
      rw [if_pos rfl, if_pos rfl, value_one, Exact.real_div _ one_ne_zero, div_one]
      exact nearest_one α
  | positive | negative =>
      rw [if_neg (by decide), if_neg (by decide), value_zero, Exact.real_div _ one_ne_zero,
        zero_div]
      exact nearest_zero α

theorem value_successRate_truthTable {k : OutcomeKind} (h : truthRow (α := α) c a = unitRow k) :
    value ((truthTable (α := α) c).successRate a) = .real (if k.isSolved then 1 else 0) := by
  have hrows : ∀ r ∈ (List.range n).map (truthRow (α := α) c), r.length = OutcomeKind.count := by
    intro r hr
    obtain ⟨b, hb, rfl⟩ := List.mem_map.mp hr
    rw [truthRow]
    split
    · rw [List.length_map, List.length_range, hc.noutcomes]
    · rw [List.length_map, hc.length_row (List.mem_range.mp hb)]
  have hget : value ((truthTable (α := α) c).get a .unsolved) =
      .real (if k = .unsolved then 1 else 0) := by
    have hindex : OutcomeKind.unsolved.index < (truthTable (α := α) c).noutcomes :=
      lt_of_lt_of_eq (OutcomeKind.index_lt_count _) hc.noutcomes.symm
    rw [Prediction.get_eq_row _ _ hindex, truthTable, hc.nactions, hc.noutcomes,
      Prediction.row_ofScores (by rwa [List.length_map, List.length_range]) hrows,
      List.getElem_map, List.getElem_range, h, value_normalize_unitRow]
  rw [Prediction.successRate]
  refine value_clamp ?_ (by split <;> norm_num) (by split <;> norm_num)
  rw [value_sub, value_one, hget]
  cases k with
  | unsolved =>
      rw [if_pos rfl, Exact.real_sub, sub_self]
      exact nearest_zero α
  | positive | negative =>
      rw [if_neg (by decide), Exact.real_sub, sub_zero]
      exact nearest_one α

end truth

end Model

end SolverPortfolio

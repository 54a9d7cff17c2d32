import SolverPortfolio.Proofs.RunStore
import SolverPortfolio.Proofs.Scalar.Rounded
import SolverPortfolio.Proofs.Scalar.RoundedDouble
import SolverPortfolio.RunStore

/-!
# What a store answers

A recorded run tells about an action if it is of the same task and solver and was given the
ceiling, up to the slack (`RecordedRun.Tells`). Replaying an action takes the first inserted of
the runs of least budget that tell about it (`FirstLeast`, `lookup_eq_some_iff_firstLeast`),
and there is one unless no run tells about it. What is read off that run never costs more than
the ceiling (`cost_under_le`), and solves the task only if the run did so in time.

Which run is taken is decided among the runs that tell about the action, so runs of other tasks
and solvers do not matter, wherever they stand between the others (`replay_congr`).
`replay_answers` is the headline.
-/

namespace SolverPortfolio

open Scalar Rounded

section

variable {α : Type} [Scalar α]

/-- The run is of the task and of the action's solver, and was given its ceiling. -/
def RecordedRun.Tells (task : String) (action : Action α) (r : RecordedRun α) : Prop :=
  r.taskId = task ∧ r.solver = action.solver ∧ action.cost * RunStore.leastShare ≤ r.budget

theorem RecordedRun.tells_iff {task : String} {action : Action α} {r : RecordedRun α} :
    r.Tells task action ↔
      (RunStore.serves action.solver action.cost r && r.taskId == task) = true := by
  unfold Tells RunStore.serves
  simp only [Bool.and_eq_true, beq_iff_eq, decide_eq_true_eq]
  tauto

theorem RecordedRun.isSolved_under (r : RecordedRun α) (ceiling : α) :
    (r.under ceiling).outcome.isSolved = true ↔
      r.outcome.isSolved = true ∧ r.cost ≤ ceiling := by
  unfold under
  split
  · rename_i hcost
    exact (and_iff_left hcost).symm
  · rename_i hcost
    exact iff_of_false nofun fun h => hcost h.2

variable [Rounded α]

/-- A ceiling that a run tells about is a number. -/
theorem RecordedRun.Tells.isNaN_cost {task : String} {action : Action α} {r : RecordedRun α}
    (h : r.Tells task action) : isNaN action.cost = false := by
  obtain ⟨_, _, hbudget⟩ := h
  rw [isNaN_eq_false_iff]
  intro hnan
  rw [le_iff, value_mul, hnan] at hbudget
  refine hbudget.1 ?_
  show (Exact.infinite (0 * (value (RunStore.leastShare : α)).sign)).rounded _ = _
  rw [zero_mul]
  rfl

/-- A run under a ceiling costs no more than the ceiling, if that is a number. -/
theorem RecordedRun.cost_under_le (r : RecordedRun α) {ceiling : α}
    (h : isNaN ceiling = false) : (r.under ceiling).cost ≤ ceiling := by
  unfold under
  split
  · assumption
  · exact Rounded.le_refl h

end

namespace RunStore

/-- Of the runs that tell about the action the run is one of least budget, and the first of
them. -/
structure FirstLeast (task : String) (action : Action Float) (runs : List (RecordedRun Float))
    (r : RecordedRun Float) : Prop where
  tells : r.Tells task action
  least : ∀ r' ∈ runs, r'.Tells task action → precedes r.budget r'.budget = true
  first : ∃ earlier later, runs = earlier ++ r :: later ∧
    ∀ r' ∈ earlier, r'.Tells task action → precedes r'.budget r.budget = false

variable {task : String} {action : Action Float} {runs : List (RecordedRun Float)}
  {r : RecordedRun Float}

theorem candidates_eq (store : RunStore Float) (task solver : String) (least : Float) :
    store.candidates task solver least =
      store.runs.filter fun r => serves solver least r && r.taskId == task := by
  unfold candidates runsForTask
  rw [List.filter_filter]

theorem mem_candidates {store : RunStore Float} :
    r ∈ store.candidates task action.solver action.cost ↔
      r ∈ store.runs ∧ r.Tells task action := by
  rw [candidates_eq, List.mem_filter, RecordedRun.tells_iff]

/-- The candidates are gone through in the order they were inserted. -/
theorem lookup_eq_find? (store : RunStore Float) :
    store.lookup task action.solver action.cost =
      store.runs.find? fun r => (serves action.solver action.cost r && r.taskId == task) &&
        isLeast (store.candidates task action.solver action.cost) r := by
  rw [lookup_eq]
  conv_lhs => rw [candidates_eq, List.find?_filter, ← candidates_eq]
  simp only [Bool.decide_and, Bool.decide_eq_true]

theorem isLeast_candidates {store : RunStore Float} :
    isLeast (store.candidates task action.solver action.cost) r = true ↔
      ∀ r' ∈ store.runs, r'.Tells task action → precedes r.budget r'.budget = true := by
  unfold isLeast
  rw [List.all_eq_true]
  constructor
  · intro h r' hmem htells
    exact h r' (mem_candidates.mpr ⟨hmem, htells⟩)
  · intro h r' hmem
    obtain ⟨hmem, htells⟩ := mem_candidates.mp hmem
    exact h r' hmem htells

/-- **A lookup finds the first inserted run of least budget.** -/
theorem lookup_eq_some_iff_firstLeast {store : RunStore Float} :
    store.lookup task action.solver action.cost = some r ↔
      FirstLeast task action store.runs r := by
  rw [lookup_eq_find?, List.find?_eq_some_iff_append, Bool.and_eq_true,
    ← RecordedRun.tells_iff, isLeast_candidates]
  constructor
  · rintro ⟨⟨htells, hleast⟩, earlier, later, heq, hearlier⟩
    refine ⟨htells, hleast, earlier, later, heq, fun r' hmem htells' => ?_⟩
    -- A run before it that needs no more budget would have been found instead.
    by_contra hle
    rw [Bool.not_eq_false] at hle
    have hleast' : isLeast (store.candidates task action.solver action.cost) r' = true :=
      isLeast_of_precedes hle (isLeast_candidates.mpr hleast)
    have hpassed := hearlier r' hmem
    rw [RecordedRun.tells_iff.mp htells', hleast'] at hpassed
    cases hpassed
  · rintro ⟨htells, hleast, earlier, later, heq, hearlier⟩
    refine ⟨⟨htells, hleast⟩, earlier, later, heq, fun r' hmem => ?_⟩
    rw [Bool.not_eq_true', Bool.and_eq_false_iff, or_iff_not_imp_left, Bool.not_eq_false]
    intro htells'
    by_contra hleast'
    rw [Bool.not_eq_false, isLeast_candidates] at hleast'
    have hle := hleast' r (by rw [heq]; exact List.mem_append_right _ List.mem_cons_self) htells
    rw [hearlier r' hmem (RecordedRun.tells_iff.mpr htells')] at hle
    cases hle

theorem isSome_foldl_lesser (b : RecordedRun Float) (runs : List (RecordedRun Float)) :
    (runs.foldl lesser (some b)).isSome = true := by
  induction runs generalizing b with
  | nil => rfl
  | cons r runs ih =>
      rw [List.foldl_cons]
      rcases ite_eq_or_eq (precedes b.budget r.budget = true) (some b) (some r) with hb | hr
      · have hkept : lesser (some b) r = some b := hb
        rw [hkept]
        exact ih b
      · have htaken : lesser (some b) r = some r := hr
        rw [htaken]
        exact ih r

theorem lookup_eq_none_iff {store : RunStore Float} :
    store.lookup task action.solver action.cost = none ↔
      ∀ r ∈ store.runs, ¬r.Tells task action := by
  have hfold : store.lookup task action.solver action.cost =
      (store.candidates task action.solver action.cost).foldl lesser none := rfl
  constructor
  · intro hnone r hmem htells
    have hcandidate := mem_candidates.mpr ⟨hmem, htells⟩
    rw [hfold] at hnone
    cases hrest : store.candidates task action.solver action.cost with
    | nil =>
        rw [hrest] at hcandidate
        cases hcandidate
    | cons b rest =>
        have hsome := isSome_foldl_lesser b rest
        rw [hrest, List.foldl_cons, lesser] at hnone
        rw [hnone] at hsome
        cases hsome
  · intro h
    have hempty : store.candidates task action.solver action.cost = [] := by
      rw [List.eq_nil_iff_forall_not_mem]
      intro r hr
      obtain ⟨hmem, htells⟩ := mem_candidates.mp hr
      exact h r hmem htells
    rw [hfold, hempty]
    rfl

/-- Only the candidates decide. -/
theorem replay_congr {store store' : RunStore Float}
    (h : store.candidates task action.solver action.cost =
      store'.candidates task action.solver action.cost) :
    store.replay action task = store'.replay action task := by
  unfold replay
  rw [lookup_eq, lookup_eq, h]

/-- A run of another task or solver is no candidate, wherever it stands. -/
theorem candidates_insert {other : RecordedRun Float}
    (h : other.taskId ≠ task ∨ other.solver ≠ action.solver)
    (earlier later : List (RecordedRun Float)) :
    (filled (earlier ++ other :: later)).candidates task action.solver action.cost =
      (filled (earlier ++ later)).candidates task action.solver action.cost := by
  have hother : ¬(serves action.solver action.cost other && other.taskId == task) = true := by
    rw [← RecordedRun.tells_iff]
    intro htells
    exact h.elim (fun hne => hne htells.1) fun hne => hne htells.2.1
  rw [candidates_eq, candidates_eq, runs_filled, runs_filled, List.filter_append,
    List.filter_append, List.filter_cons, if_neg hother]

/-! ## Replaying -/

theorem replay_eq_error_iff_tells {store : RunStore Float} {e : HarnessError Float} :
    store.replay action task = .error e ↔
      e = .noRecordedRun task action.solver action.cost ∧
        ∀ r ∈ store.runs, ¬r.Tells task action := by
  rw [← lookup_eq_none_iff]
  unfold replay
  cases store.lookup task action.solver action.cost with
  | none => exact ⟨fun h => ⟨(Except.error.inj h).symm, rfl⟩, fun h => by rw [h.1]⟩
  | some r => exact iff_of_false nofun fun h => nomatch h.2

theorem replay_eq_ok_iff_firstLeast {store : RunStore Float} {result : RunResult Float} :
    store.replay action task = .ok result ↔
      ∃ r, FirstLeast task action store.runs r ∧ r.under action.cost = result := by
  simp only [← lookup_eq_some_iff_firstLeast]
  unfold replay
  cases store.lookup task action.solver action.cost with
  | none => exact iff_of_false nofun fun ⟨_, h, _⟩ => nomatch h
  | some r =>
      constructor
      · intro h
        exact ⟨r, rfl, Except.ok.inj h⟩
      · rintro ⟨_, hr, rfl⟩
        rw [Option.some.inj hr]

/-- **What a store answers.** However a store was filled, replaying an action fails exactly if
no run tells about it. Otherwise it reads the answer off the first inserted run among those of
least budget that do; then the answer costs at most the ceiling, and it solves the task only if
that run did so within the ceiling. Inserting a run of another task or another solver, at any
point, changes no answer. -/
theorem replay_answers (inserted : List (RecordedRun Float)) (task : String)
    (action : Action Float) :
    (∀ e, (filled inserted).replay action task = .error e ↔
        e = .noRecordedRun task action.solver action.cost ∧
          ∀ r ∈ inserted, ¬r.Tells task action) ∧
      (∀ result, (filled inserted).replay action task = .ok result ↔
        ∃ r, FirstLeast task action inserted r ∧ r.under action.cost = result) ∧
      (∀ r, FirstLeast task action inserted r →
        (r.under action.cost).cost ≤ action.cost ∧
          ((r.under action.cost).outcome.isSolved = true ↔
            r.outcome.isSolved = true ∧ r.cost ≤ action.cost)) ∧
      ∀ other : RecordedRun Float, other.taskId ≠ task ∨ other.solver ≠ action.solver →
        ∀ earlier later, inserted = earlier ++ later →
          (filled (earlier ++ other :: later)).replay action task =
            (filled inserted).replay action task := by
  refine ⟨fun e => ?_, fun result => ?_, fun r hr => ?_, ?_⟩
  · rw [replay_eq_error_iff_tells, runs_filled]
  · rw [replay_eq_ok_iff_firstLeast, runs_filled]
  · exact ⟨r.cost_under_le hr.tells.isNaN_cost, r.isSolved_under action.cost⟩
  · rintro other hother earlier later rfl
    exact replay_congr (candidates_insert hother earlier later)

/-- Two runs of the least budget that is enough, and one that was given more than it needed. -/
def equalLeast : List (RecordedRun Float) :=
  [⟨"t", "a", 30, 2, .positive none⟩, ⟨"t", "a", 20, 15, .negative⟩,
    ⟨"u", "a", 10, 1, .positive none⟩, ⟨"t", "a", 20, 5, .positive none⟩]

-- Of the runs given twenty seconds the first counts, and it was too late for twelve.
example : (filled equalLeast).replay (.run "a" 12) "t" = .ok ⟨12, .unsolved, .recycled⟩ := rfl

end RunStore

end SolverPortfolio

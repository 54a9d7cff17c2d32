import Mathlib.Data.String.Basic
import SolverPortfolio.Proofs.Grouping
import SolverPortfolio.RunStore
import SolverPortfolio.Scalar.Double

/-!
# Saved runs

A lookup finds the first run of least budget among those that serve (`RunStore.lookup_eq`). Such
runs are tied in the order runs are saved in, and sorting keeps the order of what is tied, so
the store of the saved runs answers as the store that was saved
(`RunStore.lookup_saved`). For the same reason it does not matter in what order the tasks are
gone through when the runs are collected (`RunStore.mergeSort_collected`).
-/

namespace SolverPortfolio.RunStore

open Scalar

/-! ## The order of budgets -/

theorem precedes_self (x : Float) : precedes x x = true := decide_eq_true (Int.le_refl _)

theorem precedes_total (x y : Float) : (precedes x y || precedes y x) = true := by
  rw [Bool.or_eq_true]
  exact (Int.le_total _ _).imp decide_eq_true decide_eq_true

theorem precedes_trans {x y z : Float} (hxy : precedes x y = true) (hyz : precedes y z = true) :
    precedes x z = true :=
  decide_eq_true (Int.le_trans (of_decide_eq_true hxy) (of_decide_eq_true hyz))

/-! ## Lookups -/

variable {runs runs' : List (RecordedRun Float)} {store : RunStore Float}

/-- None of the runs was given less. -/
def isLeast (runs : List (RecordedRun Float)) (r : RecordedRun Float) : Bool :=
  runs.all fun r' => precedes r.budget r'.budget

theorem isLeast_cons {r r' : RecordedRun Float} :
    isLeast (r' :: runs) r = (precedes r.budget r'.budget && isLeast runs r) := rfl

theorem isLeast_of_precedes {r r' : RecordedRun Float} (h : precedes r.budget r'.budget = true)
    (hleast : isLeast runs r' = true) : isLeast runs r = true :=
  List.all_eq_true.mpr fun x hx => precedes_trans h (List.all_eq_true.mp hleast x hx)

/-- From one run on, the first of least budget is kept. -/
theorem foldl_lesser_some (b : RecordedRun Float) (runs : List (RecordedRun Float)) :
    runs.foldl lesser (some b) = (b :: runs).find? (isLeast (b :: runs)) := by
  induction runs generalizing b with
  | nil => simp [isLeast, precedes_self]
  | cons x runs ih =>
      rw [List.foldl_cons, lesser]
      cases hbx : precedes b.budget x.budget with
      | true =>
          have hsame : isLeast (b :: x :: runs) = isLeast (b :: runs) := by
            funext r
            rw [isLeast_cons, isLeast_cons, isLeast_cons]
            cases hrb : precedes r.budget b.budget with
            | false => rfl
            | true => rw [precedes_trans hrb hbx, Bool.true_and]
          rw [if_pos rfl, ih, hsame, List.find?_cons, List.find?_cons, List.find?_cons]
          cases hb : isLeast (b :: runs) b with
          | true => rfl
          | false =>
              -- The run behind would need less budget than the one in front has.
              cases hx : isLeast (b :: runs) x with
              | false => rfl
              | true =>
                  rw [isLeast_of_precedes hbx hx] at hb
                  cases hb
      | false =>
          have hxb : precedes x.budget b.budget = true := by
            have htotal := precedes_total b.budget x.budget
            rwa [hbx, Bool.false_or] at htotal
          have hsame : isLeast (b :: x :: runs) = isLeast (x :: runs) := by
            funext r
            rw [isLeast_cons, isLeast_cons]
            cases hrx : precedes r.budget x.budget with
            | false => exact Bool.and_false _
            | true => rw [precedes_trans hrx hxb, Bool.true_and]
          have hb : isLeast (x :: runs) b = false := by
            rw [isLeast_cons, hbx, Bool.false_and]
          rw [if_neg Bool.false_ne_true, ih, hsame]
          exact (List.find?_cons_of_neg (by rw [hb]; exact Bool.false_ne_true)).symm

theorem foldl_lesser (runs : List (RecordedRun Float)) :
    runs.foldl lesser none = runs.find? (isLeast runs) := by
  cases runs with
  | nil => rfl
  | cons b runs => exact foldl_lesser_some b runs

/-- The runs that can answer a lookup. -/
def candidates (store : RunStore Float) (task solver : String) (least : Float) :
    List (RecordedRun Float) :=
  (store.runsForTask task).filter (serves solver least)

/-- **A lookup finds the first run of least budget.** -/
theorem lookup_eq (store : RunStore Float) (task solver : String) (least : Float) :
    store.lookup task solver least =
      (store.candidates task solver least).find? (isLeast (store.candidates task solver least)) :=
  foldl_lesser _

/-! ## The order of saved runs -/

theorem savedBefore_iff {a b : RecordedRun Float} :
    savedBefore a b = true ↔ a.taskId < b.taskId ∨ a.taskId = b.taskId ∧
      (a.solver < b.solver ∨ a.solver = b.solver ∧ precedes a.budget b.budget = true) := by
  unfold savedBefore
  by_cases htask : a.taskId = b.taskId
  · by_cases hsolver : a.solver = b.solver
    · simp [htask, hsolver]
    · simp [htask, hsolver]
  · simp [htask]

theorem savedBefore_trans (a b c : RecordedRun Float) (hab : savedBefore a b = true)
    (hbc : savedBefore b c = true) : savedBefore a c = true := by
  rw [savedBefore_iff] at hab hbc ⊢
  rcases hab with hab | ⟨hab, hab'⟩
  · rcases hbc with hbc | ⟨hbc, -⟩
    · exact Or.inl (String.lt_trans hab hbc)
    · exact Or.inl (hbc ▸ hab)
  · rcases hbc with hbc | ⟨hbc, hbc'⟩
    · exact Or.inl (hab ▸ hbc)
    · refine Or.inr ⟨hab.trans hbc, ?_⟩
      rcases hab' with hab | ⟨hab, hab'⟩
      · rcases hbc' with hbc | ⟨hbc, -⟩
        · exact Or.inl (String.lt_trans hab hbc)
        · exact Or.inl (hbc ▸ hab)
      · rcases hbc' with hbc | ⟨hbc, hbc'⟩
        · exact Or.inl (hab ▸ hbc)
        · exact Or.inr ⟨hab.trans hbc, precedes_trans hab' hbc'⟩

theorem savedBefore_total (a b : RecordedRun Float) :
    (savedBefore a b || savedBefore b a) = true := by
  rw [Bool.or_eq_true, savedBefore_iff, savedBefore_iff]
  rcases lt_trichotomy a.taskId b.taskId with htask | htask | htask
  · exact Or.inl (Or.inl htask)
  · rcases lt_trichotomy a.solver b.solver with hsolver | hsolver | hsolver
    · exact Or.inl (Or.inr ⟨htask, Or.inl hsolver⟩)
    · rcases Bool.or_eq_true_iff.mp (precedes_total a.budget b.budget) with h | h
      · exact Or.inl (Or.inr ⟨htask, Or.inr ⟨hsolver, h⟩⟩)
      · exact Or.inr (Or.inr ⟨htask.symm, Or.inr ⟨hsolver.symm, h⟩⟩)
    · exact Or.inr (Or.inr ⟨htask.symm, Or.inl hsolver⟩)
  · exact Or.inr (Or.inl htask)

theorem taskId_eq_of_tied {a b : RecordedRun Float} (h : tied savedBefore a b = true) :
    a.taskId = b.taskId := by
  obtain ⟨hab, hba⟩ := tied_iff.mp h
  rw [savedBefore_iff] at hab hba
  rcases hab with hab | ⟨hab, -⟩
  · rcases hba with hba | ⟨hba, -⟩
    · exact absurd (String.lt_trans hab hba) (String.lt_irrefl _)
    · exact hba.symm
  · exact hab

/-! ## The store of the saved runs -/

theorem saved_perm (store : RunStore Float) : store.saved.Perm store.runs :=
  List.mergeSort_perm _ _

theorem taskIds_saved (store : RunStore Float) : (ofRuns store.saved).taskIds = store.taskIds :=
  sortedNames_congr fun _ => (store.saved_perm.map RecordedRun.taskId).mem_iff

theorem runsForTask_saved (store : RunStore Float) (task : String) :
    ((ofRuns store.saved).runsForTask task).Perm (store.runsForTask task) :=
  store.saved_perm.filter _

/-- **Saving changes no answer.** -/
theorem lookup_saved (store : RunStore Float) (task solver : String) (least : Float) :
    (ofRuns store.saved).lookup task solver least = store.lookup task solver least := by
  have hperm : ((ofRuns store.saved).candidates task solver least).Perm
      (store.candidates task solver least) := (store.runsForTask_saved task).filter _
  have hleast : isLeast ((ofRuns store.saved).candidates task solver least) =
      isLeast (store.candidates task solver least) := funext fun _ => hperm.all_eq
  have hcandidates : ∀ s : RunStore Float, (s.candidates task solver least).filter
      (isLeast (store.candidates task solver least)) = s.runs.filter fun r =>
        isLeast (store.candidates task solver least) r && serves solver least r &&
          r.taskId == task := by
    intro s
    rw [candidates.eq_def s, runsForTask, List.filter_filter, List.filter_filter]
  rw [lookup_eq, lookup_eq, hleast, ← List.head?_filter, ← List.head?_filter, hcandidates,
    hcandidates]
  refine congrArg List.head? (filter_mergeSort savedBefore_trans savedBefore_total ?_)
  -- Candidates of least budget are tied.
  intro a ha b hb hqa hqb
  simp only [Bool.and_eq_true, serves, beq_iff_eq] at hqa hqb
  obtain ⟨⟨haleast, hasolver, -⟩, hatask⟩ := hqa
  obtain ⟨⟨-, hbsolver, hbbudget⟩, hbtask⟩ := hqb
  have hmem : b ∈ store.candidates task solver least := by
    rw [candidates, runsForTask, List.mem_filter, List.mem_filter, serves]
    simp [hb, hbtask, hbsolver, of_decide_eq_true hbbudget]
  exact savedBefore_iff.mpr (Or.inr ⟨hatask.trans hbtask.symm, Or.inr ⟨hasolver.trans hbsolver.symm,
    List.all_eq_true.mp haleast b hmem⟩⟩)

/-- One block of many is taken out. -/
theorem flatMap_ite_eq {β : Type} {names : List String} (hnodup : names.Nodup) (name : String)
    (block : List β) : (names.flatMap fun n => if n = name then block else []) =
      if name ∈ names then block else [] := by
  induction names with
  | nil => rfl
  | cons n names ih =>
      obtain ⟨hn, hnodup⟩ := List.nodup_cons.mp hnodup
      rw [List.flatMap_cons, ih hnodup]
      by_cases heq : n = name
      · subst heq
        simp [hn]
      · simp [heq, Ne.symm heq]

/-- The runs may be collected task by task, in any order of the tasks. -/
theorem mergeSort_collected (store : RunStore Float) {tasks : List String}
    (h : tasks.Perm store.taskIds) :
    (tasks.flatMap store.runsForTask).mergeSort savedBefore = store.saved := by
  refine mergeSort_congr savedBefore_trans savedBefore_total fun a => ?_
  have hblock : ∀ task, (store.runsForTask task).filter (tied savedBefore a) =
      if task = a.taskId then store.runs.filter (tied savedBefore a) else [] := by
    intro task
    have htask : ∀ r, tied savedBefore a r = true →
        (r.taskId == task) = decide (task = a.taskId) := by
      intro r hr
      rw [taskId_eq_of_tied hr, Bool.beq_eq_decide_eq]
      exact decide_eq_decide.mpr eq_comm
    rw [runsForTask, List.filter_filter]
    split
    · rename_i heq
      refine List.filter_congr fun r _ => ?_
      cases hr : tied savedBefore a r with
      | false => rfl
      | true => rw [htask r hr, Bool.true_and, decide_eq_true heq]
    · rename_i hne
      refine List.filter_eq_nil_iff.mpr fun r _ hr => ?_
      obtain ⟨hr, heq⟩ := Bool.and_eq_true_iff.mp hr
      rw [htask r hr] at heq
      exact hne (of_decide_eq_true heq)
  have hnodup : tasks.Nodup := h.nodup_iff.mpr (nodup_sortedNames _)
  rw [List.filter_flatMap]
  simp only [hblock, flatMap_ite_eq hnodup]
  split
  · rfl
  · rename_i hmem
    refine (List.filter_eq_nil_iff.mpr fun r hr hra => hmem ?_).symm
    rw [taskId_eq_of_tied hra, h.mem_iff, taskIds, mem_sortedNames]
    exact List.mem_map_of_mem hr

/-! ## Stores that are filled one by one -/

/-- The store that runs were inserted into one after the other. -/
def filled (runs : List (RecordedRun Float)) : RunStore Float := runs.foldl insert empty

theorem runs_filled (runs : List (RecordedRun Float)) : (filled runs).runs = runs := by
  have hfold : ∀ (store : RunStore Float), (runs.foldl insert store).runs = store.runs ++ runs := by
    induction runs with
    | nil => exact fun store => (List.append_nil _).symm
    | cons r runs ih =>
        intro store
        rw [List.foldl_cons, ih, insert, List.append_assoc]
        rfl
  exact hfold empty

end SolverPortfolio.RunStore

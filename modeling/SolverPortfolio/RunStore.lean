import SolverPortfolio.Run
import SolverPortfolio.Session.Service

/-!
# Recorded runs

A store of runs that were made before, and the harness that answers from it.
-/

namespace SolverPortfolio

/-!
## Stores of recorded runs

A store keeps runs in the order they were inserted. A lookup asks for a run
that was given at least a certain budget, up to a small slack; of several, the
one with the least budget is taken, and of equal ones the earliest.
-/

structure RunStore (α : Type) where
  runs : List (RecordedRun α)

namespace RunStore

open Scalar

variable {α : Type} [Scalar α]

def empty : RunStore α := ⟨[]⟩

def ofRuns (runs : List (RecordedRun α)) : RunStore α := ⟨runs⟩

def insert (s : RunStore α) (run : RecordedRun α) : RunStore α := ⟨s.runs ++ [run]⟩

def runsForTask (s : RunStore α) (task : String) : List (RecordedRun α) :=
  s.runs.filter fun r => r.taskId == task

def taskIds (s : RunStore α) : List String := sortedNames (s.runs.map RecordedRun.taskId)

/-! ### Lookup -/

/-- The share of the budget asked for that a run has to have been given. -/
def leastShare : α := 1 - 1e-9

def serves (solver : String) (least : α) (run : RecordedRun α) : Bool :=
  run.solver == solver && decide (least * leastShare ≤ run.budget)

/-- The earlier of two runs, unless the later one had less budget. -/
def lesser (best : Option (RecordedRun α)) (run : RecordedRun α) : Option (RecordedRun α) :=
  match best with
  | none => some run
  | some b => if precedes b.budget run.budget then some b else some run

def lookup (s : RunStore α) (task solver : String) (least : α) : Option (RecordedRun α) :=
  ((s.runsForTask task).filter (serves solver least)).foldl lesser none

/-! ### Saving -/

/-- The order runs are saved in: by task, solver and budget. -/
def savedBefore (a b : RecordedRun α) : Bool :=
  if a.taskId == b.taskId then
    if a.solver == b.solver then precedes a.budget b.budget else decide (a.solver < b.solver)
  else decide (a.taskId < b.taskId)

def saved (s : RunStore α) : List (RecordedRun α) := s.runs.mergeSort savedBefore

end RunStore

/-!
## Replaying recorded runs

A run that was given at least the ceiling asked for tells what a run under that
ceiling would have done: the same at the same cost if it ended in time, and
nothing for the whole ceiling otherwise.
-/

variable {α : Type} [Scalar α]

/-- What a recorded run says about a run under a lower ceiling. -/
def RecordedRun.under (run : RecordedRun α) (ceiling : α) : RunResult α :=
  if run.cost ≤ ceiling then ⟨run.cost, run.outcome, .recycled⟩
  else ⟨ceiling, .unsolved, .recycled⟩

def RunStore.replay (s : RunStore α) (action : Action α) (task : String) :
    Except (HarnessError α) (RunResult α) :=
  match s.lookup task action.solver action.cost with
  | some run => .ok (run.under action.cost)
  | none => .error (.noRecordedRun task action.solver action.cost)

/-- The harness that answers from a store instead of running anything. -/
def RunStore.harness {σ : Type} (s : RunStore α) (action : Action α) (task : Task α) :
    Service σ (HarnessError α) (RunResult α) :=
  fun state => (s.replay action task.id, state)

end SolverPortfolio

import SolverPortfolio.Scalar

/-!
# Tasks, actions and runs

The records that all the rest is about: how a run comes out, what is run under which ceiling, what
is known of a task, what a run and a session leave behind, and how such records are listed by name.
-/

namespace SolverPortfolio

/-!
## Outcomes of runs

A run leaves its task unsolved, or answers it positively or negatively. Tables
and count arrays have one column per kind, in the order of `index`.
-/

inductive OutcomeKind where
  | unsolved
  | positive
  | negative
deriving DecidableEq

namespace OutcomeKind

/-- The kinds in column order. -/
def all : List OutcomeKind := [.unsolved, .positive, .negative]

/-- The number of columns. -/
def count : Nat := 3

def index : OutcomeKind → Nat
  | .unsolved => 0
  | .positive => 1
  | .negative => 2

def ofIndex? (i : Nat) : Option OutcomeKind := all[i]?

theorem ofIndex?_index (k : OutcomeKind) : ofIndex? k.index = some k := by
  cases k <;> rfl

theorem index_lt_count (k : OutcomeKind) : k.index < count := by
  cases k <;> decide

def isSolved : OutcomeKind → Bool
  | .unsolved => false
  | _ => true

def name : OutcomeKind → String
  | .unsolved => "unsolved"
  | .positive => "positive"
  | .negative => "negative"

end OutcomeKind

/-- A positive outcome may carry a certificate: the tokens that witness it. -/
structure Outcome where
  kind : OutcomeKind
  certificate : Option (List String)
deriving DecidableEq

namespace Outcome

def ofKind (kind : OutcomeKind) : Outcome := ⟨kind, none⟩

def unsolved : Outcome := ofKind .unsolved

def positive (certificate : Option (List String)) : Outcome := ⟨.positive, certificate⟩

def negative : Outcome := ofKind .negative

def isSolved (o : Outcome) : Bool := o.kind.isSolved

/-- A solved task is worth one. -/
def utility (o : Outcome) : Nat := if o.isSolved then 1 else 0

end Outcome

/-!
## Actions

An action is a run of one solver under a cost ceiling. It carries the text it
is reported by; two actions are the same when solver, ceiling and text agree,
with ceilings compared as numbers.
-/

structure Action (α : Type) where
  solver : String
  cost : α
  description : String

namespace Action

variable {α : Type} [Scalar α]

/-- The action of running `solver` for at most `cost` seconds. -/
def run (solver : String) (cost : α) : Action α :=
  ⟨solver, cost, solver ++ "@" ++ Scalar.text cost ++ "s"⟩

/-- The same solver under another ceiling. -/
def withCost (a : Action α) (cost : α) : Action α := run a.solver cost

instance : BEq (Action α) where
  beq a b := a.solver == b.solver && a.cost == b.cost && a.description == b.description

@[simp] theorem solver_run (s : String) (c : α) : (run s c).solver = s := rfl

@[simp] theorem cost_run (s : String) (c : α) : (run s c).cost = c := rfl

end Action

/-!
## Task features

Named numbers that describe a task. By convention the first value is the time
it took to compute them.
-/

structure FeatureVector (α : Type) where
  names : List String
  values : List α

namespace FeatureVector

variable {α : Type} [Scalar α]

def empty : FeatureVector α := ⟨[], []⟩

def isEmpty (v : FeatureVector α) : Bool := v.values.isEmpty

/-- The time spent on the features; zero unless it is a positive number. -/
def cost (v : FeatureVector α) : α :=
  match v.values with
  | c :: _ => if Scalar.isPositiveFinite c then c else 0
  | [] => 0

/-- The value at the first place of a name. -/
def get? (v : FeatureVector α) (name : String) : Option α :=
  (v.names.idxOf? name).bind fun i => v.values[i]?

end FeatureVector

/-- An instance to be solved. Its features are kept once they are computed. -/
structure Task (α : Type) where
  id : String
  path : String
  features : Option (FeatureVector α)

/-- A task that is identified by its path. -/
def Task.ofPath {α : Type} (path : String) : Task α := ⟨path, path, none⟩

/-!
## Runs and what is kept of them

A run has a result; a recorded run also has the task, the solver and the
ceiling it was given. A session keeps its runs in order, as attempts.
-/

/-- How a run ended. -/
inductive Termination where
  | exited (code : Int)
  | signaled (signal : Int)
  | ceilingExceeded
  | recycled
deriving DecidableEq

structure RunResult (α : Type) where
  cost : α
  outcome : Outcome
  termination : Termination

/-- A run stopped at its ceiling costs the whole ceiling and solves nothing. -/
def RunResult.atCeiling {α : Type} (ceiling : α) : RunResult α :=
  ⟨ceiling, .unsolved, .ceilingExceeded⟩

structure RecordedRun (α : Type) where
  taskId : String
  solver : String
  budget : α
  cost : α
  outcome : Outcome

structure Attempt (α : Type) where
  action : Action α
  result : RunResult α

/-- What the preprocessing of a session did, if there was any. -/
structure PreprocessingSummary (α : Type) where
  preprocessor : String
  cost : α
  solvedDirectly : Bool
  outputTask : Option String

structure SessionRecord (α : Type) where
  taskId : String
  budget : α
  cost : α
  attempts : List (Attempt α)
  answer : Option Outcome
  preprocessing : Option (PreprocessingSummary α)

namespace SessionRecord

variable {α : Type}

def isSolved (r : SessionRecord α) : Bool := r.answer.any Outcome.isSolved

def invocations (r : SessionRecord α) : Nat := r.attempts.length

end SessionRecord

/-!
## Sorted groups

Tasks and solvers are listed by name in the order of code points, each once;
what belongs to a name keeps its own order.
-/

/-- Every name once, sorted. -/
def sortedNames (names : List String) : List String :=
  names.eraseDups.mergeSort fun a b => decide (a ≤ b)

/-- The items of each name, under the sorted names. -/
def groupByName {β : Type} (name : β → String) (items : List β) : List (String × List β) :=
  (sortedNames (items.map name)).map fun n => (n, items.filter fun b => name b == n)

/-- Put a value under a name of a sorted association list, replacing the old
one. -/
def insertSorted {β : Type} (name : String) (value : β) : List (String × β) → List (String × β)
  | [] => [(name, value)]
  | (n, b) :: rest =>
    if name < n then (name, value) :: (n, b) :: rest
    else if n = name then (name, value) :: rest
    else (n, b) :: insertSorted name value rest

end SolverPortfolio

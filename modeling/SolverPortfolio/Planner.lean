import SolverPortfolio.Settings
import SolverPortfolio.World

/-!
# Planners

Two planners and the choice between them. Both fill a table over the slots of the budget and read
the plan off it; they differ in what they count as the value of a plan.
-/

namespace SolverPortfolio

/-!
## Plans

A planner turns success rates, one per action of a world, and a remaining
budget into a list of steps. Budgets are counted in slots, the steps of the
ladder: the action on rung `r` uses `r + 1` of them.
-/

/-- An action of a plan and the index its outcome counts under. A step that
runs to the remaining budget has its ceiling raised when it is selected. -/
structure PlanStep (α : Type) where
  action : Action α
  index : Nat
  runsToRemaining : Bool

namespace World

open Scalar

variable {α : Type} [Scalar α]

def rungOf (w : World α) (action : Nat) : Nat := (w.splitIndex action).2

/-- The slots an action uses. -/
def slotUse (w : World α) (action : Nat) : Nat := w.rungOf action + 1

/-- The step of running an action of the world as it is. -/
def planStep (w : World α) (i : Nat) : PlanStep α := ⟨w.action i, i, false⟩

/-- A budget to plan within is a number and not below zero, and every action
has a rate. -/
def checkInputs (w : World α) (rates : List α) (remaining : α) : Decision α Unit :=
  if isNaN remaining || decide (remaining < 0) then .error (.negativeBudget remaining)
  else if rates.length != w.nactions then
    .error (.shapeMismatch ⟨w.nactions, 1, rates.length, 1⟩)
  else .ok ()

/-- A table has a cell for every number of slots, none included, and their number has to be a
word. That fails at budgets with more slots than words can count. -/
def hasTables (w : World α) (remaining : α) : Bool :=
  decide (w.ladder.slotsWithin remaining + 1 < wordBound)

end World

/-- The rate of an action. -/
def rateOf {α : Type} [Scalar α] (rates : List α) (action : Nat) : α := rates.getD action 0

end SolverPortfolio

namespace SolverPortfolio.Knapsack

/-!
## The knapsack plan

With independent runs the probability that all of them fail is the product of
their failure rates. The plan minimises it over the runs that fill the slots
exactly; a table over slots holds the least product and the action that was
chosen for it.

The table is a list with the newest slot in front, so that the cell an action
on rung `r` continues from is the `r`-th of the cells below.
-/

open Scalar

variable {α : Type} [Scalar α]

/-- The least probability that all runs fail, and the action chosen last. -/
structure Cell (α : Type) where
  value : α
  choice : Option Nat

def emptyCell : Cell α := ⟨1, none⟩

def unfilled : Cell α := ⟨infinity, none⟩

/-- Run `action` after the plan of a cell. -/
def extend (rates : List α) (action : Nat) (rest : Cell α) : α :=
  (1 - rateOf rates action) * rest.value

/-- Keep the better of a cell and the choice of a solver and rung; the earlier
choice wins ties. -/
def improve (w : World α) (rates : List α) (below : List (Cell α)) (best : Cell α)
    (choice : Nat × Nat) : Cell α :=
  let action := w.index choice.1 choice.2
  let candidate := extend rates action (below.getD choice.2 unfilled)
  if candidate < best.value then ⟨candidate, some action⟩ else best

/-- The cell on top of the cells below it. -/
def nextCell (w : World α) (rates : List α) (below : List (Cell α)) : Cell α :=
  (w.choices (below.take w.nbudgets).length).foldl (improve w rates below) unfilled

def grow (w : World α) (rates : List α) (cells : List (Cell α)) : List (Cell α) :=
  nextCell w rates cells :: cells

/-- The cells for `slots`, `slots - 1`, …, `0` slots. -/
def table (w : World α) (rates : List α) (slots : Nat) : List (Cell α) :=
  Nat.repeat (grow w rates) slots [emptyCell]

/-- The actions chosen from the first cell on, the last one first. -/
def backtrack (w : World α) : List (Cell α) → List Nat
  | [] => []
  | cell :: below =>
    match cell.choice with
    | none => []
    | some action => action :: backtrack w (below.drop (w.rungOf action))
termination_by cells => cells.length
decreasing_by simp only [List.length_drop, List.length_cons]; omega

/-- Success rate per second of an action. -/
def density (w : World α) (rates : List α) (action : Nat) : α :=
  rateOf rates action / w.ladder.budget (w.rungOf action)

/-- The densest actions first, equally dense ones in their order. -/
def byDensity (w : World α) (rates : List α) (plan : List Nat) : List Nat :=
  plan.mergeSort fun x y => precedes (density w rates y) (density w rates x)

/-- The table by rising slots and the plan for all of them. -/
structure Solution (α : Type) where
  value : List α
  policy : List (Option Nat)
  plan : List Nat

/-- What is found in the cells of a table. -/
def solutionOf (w : World α) (rates : List α) (cells : List (Cell α)) : Solution α where
  value := (cells.map Cell.value).reverse
  policy := (cells.map Cell.choice).reverse
  plan := byDensity w rates (backtrack w cells)

def solve (w : World α) (rates : List α) (remaining : α) : Decision α (Solution α) := do
  w.checkInputs rates remaining
  .provided (w.hasTables remaining)
  return solutionOf w rates (table w rates (w.ladder.slotsWithin remaining))

def plan (w : World α) (rates : List α) (remaining : α) : Decision α (List (PlanStep α)) :=
  (solve w rates remaining).map fun s => s.plan.map w.planStep

end SolverPortfolio.Knapsack

namespace SolverPortfolio.Bellman

/-!
## The Bellman plan

The plan maximises discounted utility over sequences of at most `horizon`
actions: a run of cost `c` keeps the share `(1 - discount) ^ c` of what it and
its successors are worth. Each row of the table is built from the row for one
action less; a cell without a worthwhile action ends the plan.

Rows hold the newest slot in front, as in the knapsack table.
-/

open Scalar Analytic

variable {α : Type} [Analytic α]

/-- The best utility, and the action to start with. -/
structure Cell (α : Type) where
  value : α
  choice : Option Nat

def idle : Cell α := ⟨0, none⟩

/-- The utility of running a rung's action with success rate `rate`, and going
on with `rest` if it fails. -/
def worth (w : World α) (keep : α) (rung : Nat) (rate rest : α) : α :=
  pow keep (w.ladder.budget rung) * (rate + (1 - rate) * rest)

def improve (w : World α) (rates : List α) (keep : α) (below : List (Cell α))
    (best : Cell α) (choice : Nat × Nat) : Cell α :=
  let action := w.index choice.1 choice.2
  let candidate :=
    worth w keep choice.2 (rateOf rates action) (below.getD choice.2 idle).value
  if best.value < candidate then ⟨candidate, some action⟩ else best

def bestCell (w : World α) (rates : List α) (keep : α) (below : List (Cell α)) : Cell α :=
  (w.choices (below.take w.nbudgets).length).foldl (improve w rates keep below) idle

/-- The row for one action more. -/
def nextRow (w : World α) (rates : List α) (keep : α) : List (Cell α) → List (Cell α)
  | [] => []
  | _ :: below => bestCell w rates keep below :: nextRow w rates keep below

def growRows (w : World α) (rates : List α) (keep : α) :
    List (List (Cell α)) → List (List (Cell α))
  | [] => []
  | row :: rows => nextRow w rates keep row :: row :: rows

/-- The rows for `horizon`, `horizon - 1`, …, `0` actions. -/
def rows (w : World α) (rates : List α) (keep : α) (slots horizon : Nat) :
    List (List (Cell α)) :=
  Nat.repeat (growRows w rates keep) horizon [List.replicate (slots + 1) idle]

/-- The actions chosen from row to row, when `used` slots are spent. -/
def follow (w : World α) : List (List (Cell α)) → Nat → List Nat
  | [], _ => []
  | row :: rows, used =>
    match row[used]? with
    | some ⟨_, some action⟩ => action :: follow w rows (used + w.slotUse action)
    | _ => []

/-- There is a row for every number of actions up to the horizon, none included, and their number
has to be a word as well. -/
def hasRows (w : World α) (remaining : α) (horizon : Nat) : Bool :=
  w.hasTables remaining && decide (horizon + 1 < wordBound)

def planIndices (w : World α) (rates : List α) (remaining : α) (discount : α)
    (horizon : Nat) : Decision α (List Nat) := do
  w.checkInputs rates remaining
  .provided (hasRows w remaining horizon)
  return follow w (rows w rates (1 - discount) (w.ladder.slotsWithin remaining) horizon) 0

/-- The last step of a plan runs to the remaining budget. -/
def extendLast : List (PlanStep α) → List (PlanStep α)
  | [] => []
  | [step] => [{ step with runsToRemaining := true }]
  | step :: rest => step :: extendLast rest

def plan (w : World α) (rates : List α) (remaining : α) (discount : α) (horizon : Nat) :
    Decision α (List (PlanStep α)) :=
  (planIndices w rates remaining discount horizon).map fun is =>
    extendLast (is.map w.planStep)

end SolverPortfolio.Bellman

namespace SolverPortfolio

/-! ## The configured planner -/

inductive Planner (α : Type) where
  | knapsack
  | bellman (discount : α) (horizon : Nat)

namespace Planner

variable {α : Type} [Analytic α]

def ofSettings (s : PlannerSettings α) : Planner α :=
  match s.kind with
  | .knapsack => .knapsack
  | .bellman => .bellman s.discount s.horizon

def plan (p : Planner α) (w : World α) (rates : List α) (remaining : α) :
    Decision α (List (PlanStep α)) :=
  match p with
  | .knapsack => Knapsack.plan w rates remaining
  | .bellman discount horizon => Bellman.plan w rates remaining discount horizon

/-- The tables of the planner have sizes that are words. -/
def hasTables (p : Planner α) (w : World α) (remaining : α) : Bool :=
  match p with
  | .knapsack => w.hasTables remaining
  | .bellman _ horizon => Bellman.hasRows w remaining horizon

/-- A knapsack plan may be dropped and rebuilt after every outcome. -/
def supportsReplanning : Planner α → Bool
  | .knapsack => true
  | .bellman _ _ => false

end Planner

end SolverPortfolio

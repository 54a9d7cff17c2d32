import SolverPortfolio.Proofs.Bounds.Access
import SolverPortfolio.Proofs.Planner.Steps

/-!
# Planners stay within bounds

The checked counterparts of both planners. Whatever the world, the rates and the budget
are, they never miss an entry (`Planner.plan?_eq_some`): the inputs are refused unless
every action has a rate, an action on a rung is only tried where that many slots are left,
and the walks over the tables go from cell to cell by the slots of an action that fits.
-/

namespace SolverPortfolio

open Scalar

variable {α : Type}

/-! ## Steps -/

/-- A choice among the cells below is an action of the world and a cell. -/
theorem World.choice_lt {w : World α} {β : Type} {below : List β} {c : Nat × Nat}
    (hc : c ∈ w.choices (below.take w.nbudgets).length) :
    w.index c.1 c.2 < w.nactions ∧ c.2 < below.length := by
  obtain ⟨hs, hr⟩ := mem_choices.mp hc
  rw [List.length_take] at hr
  exact ⟨index_lt_nactions hs (by omega), by omega⟩

theorem World.length_of_checkInputs [Scalar α] {w : World α} {rates : List α} {remaining : α}
    (h : w.checkInputs rates remaining = .ok ()) : rates.length = w.nactions := by
  unfold checkInputs at h
  split at h
  · cases h
  · split at h
    · cases h
    · rename_i hlen
      simpa using hlen

def World.planStep? [Scalar α] (w : World α) (i : Nat) : Option (PlanStep α) := do
  let action ← w.action? i
  return ⟨action, i, false⟩

theorem World.mapM_planStep? [Scalar α] {w : World α} {plan : List Nat}
    (h : ∀ a ∈ plan, a < w.nactions) : plan.mapM w.planStep? = some (plan.map w.planStep) :=
  mapM_eq_some fun a ha => by
    rw [planStep?, action?_eq_some (h a ha)]
    rfl

/-! ## Knapsack -/

namespace Knapsack

variable [Scalar α]

def improve? (w : World α) (rates : List α) (below : List (Cell α)) (best : Cell α)
    (choice : Nat × Nat) : Option (Cell α) := do
  let action := w.index choice.1 choice.2
  let rate ← rates[action]?
  let rest ← below[choice.2]?
  let candidate := (1 - rate) * rest.value
  return if candidate < best.value then ⟨candidate, some action⟩ else best

def nextCell? (w : World α) (rates : List α) (below : List (Cell α)) : Option (Cell α) :=
  (w.choices (below.take w.nbudgets).length).foldlM (improve? w rates below) unfilled

def table? (w : World α) (rates : List α) : Nat → Option (List (Cell α))
  | 0 => some [emptyCell]
  | slots + 1 => do
    let cells ← table? w rates slots
    let cell ← nextCell? w rates cells
    return cell :: cells

/-- The walk has to come by a cell for the slots that are left. -/
def backtrack? (w : World α) : List (Cell α) → Option (List Nat)
  | [] => none
  | cell :: below =>
    match cell.choice with
    | none => some []
    | some action => do
      let (_, rung) ← w.splitIndex? action
      let plan ← backtrack? w (below.drop rung)
      return action :: plan
termination_by cells => cells.length
decreasing_by simp only [List.length_drop, List.length_cons]; omega

def density? (w : World α) (rates : List α) (action : Nat) : Option α := do
  let rate ← rates[action]?
  let run ← w.action? action
  return rate / run.cost

def byDensity? (w : World α) (rates : List α) (plan : List Nat) : Option (List Nat) := do
  let keyed ← plan.mapM fun a => do return (a, ← density? w rates a)
  return (keyed.mergeSort fun x y => precedes y.2 x.2).map Prod.fst

def solve? (w : World α) (rates : List α) (remaining : α) : Option (Decision α (Solution α)) :=
  match w.checkInputs rates remaining with
  | .error e => some (.error e)
  | .ok () =>
    if w.hasTables remaining then do
      let cells ← table? w rates (w.ladder.slotsWithin remaining)
      let plan ← backtrack? w cells
      let plan ← byDensity? w rates plan
      return .ok
        { value := (cells.map Cell.value).reverse
          policy := (cells.map Cell.choice).reverse
          plan := plan }
    else some (.error .overflow)

def plan? (w : World α) (rates : List α) (remaining : α) :
    Option (Decision α (List (PlanStep α))) := do
  match ← solve? w rates remaining with
  | .error e => return .error e
  | .ok s => return .ok (← s.plan.mapM w.planStep?)

variable {w : World α} {rates : List α}

theorem nextCell?_eq_some (hlen : rates.length = w.nactions) (below : List (Cell α)) :
    nextCell? w rates below = some (nextCell w rates below) := by
  refine foldlM_eq_some unfilled fun best c hc => ?_
  obtain ⟨haction, hcell⟩ := World.choice_lt hc
  rw [improve?, getElem?_eq_some_getD (hlen.symm ▸ haction) 0,
    getElem?_eq_some_getD hcell unfilled]
  rfl

theorem table?_eq_some (hlen : rates.length = w.nactions) :
    ∀ slots, table? w rates slots = some (table w rates slots)
  | 0 => rfl
  | slots + 1 => by
      rw [table?, table?_eq_some hlen slots]
      simp only [Option.bind_eq_bind, Option.bind_some, nextCell?_eq_some hlen]
      rfl

/-- Every action of the walk leaves a cell to go on from. -/
theorem backtrack?_eq_some (rates : List α) (b : Nat) :
    backtrack? w (table w rates b) = some (backtrack w (table w rates b)) := by
  induction b using Nat.strongRecOn with
  | ind b ih =>
      cases b with
      | zero =>
          show backtrack? w [emptyCell] = some (backtrack w [emptyCell])
          rw [backtrack?, backtrack]
          rfl
      | succ b =>
          rw [table_succ, backtrack?, backtrack]
          rcases cellAt_succ_cases w rates b with hnone | ⟨a, ha, hrung, hsome⟩
          · simp only [hnone]
          · have hsplit : w.splitIndex? a = some ((w.splitIndex a).1, w.rungOf a) :=
              World.splitIndex?_eq_some ha
            simp only [hsome, hsplit, Option.bind_eq_bind, Option.bind_some]
            rw [drop_table hrung, ih (b - w.rungOf a) (by omega)]
            rfl

theorem density?_eq_some (hlen : rates.length = w.nactions) {a : Nat} (ha : a < w.nactions) :
    density? w rates a = some (density w rates a) := by
  rw [density?, getElem?_eq_some_getD (hlen.symm ▸ ha) 0, World.action?_eq_some ha]
  rfl

theorem byDensity?_eq_some (hlen : rates.length = w.nactions) {plan : List Nat}
    (hplan : ∀ a ∈ plan, a < w.nactions) :
    byDensity? w rates plan = some (byDensity w rates plan) := by
  have hkeyed : (plan.mapM fun a => do return (a, ← density? w rates a)) =
      some (plan.map fun a => (a, density w rates a)) := by
    refine mapM_eq_some fun a ha => ?_
    rw [density?_eq_some hlen (hplan a ha)]
    rfl
  have hsort : (plan.map fun a => (a, density w rates a)).mergeSort
        (fun x y => precedes y.2 x.2) =
      (byDensity w rates plan).map fun a => (a, density w rates a) := by
    symm
    apply List.map_mergeSort
    intro x _ y _
    rfl
  rw [byDensity?, hkeyed]
  simp only [Option.bind_eq_bind, Option.bind_some, hsort, List.map_map]
  exact congrArg some (List.map_id _)

theorem solve?_eq_some (w : World α) (rates : List α) (remaining : α) :
    solve? w rates remaining = some (solve w rates remaining) := by
  rw [solve?, solve]
  cases hinputs : w.checkInputs rates remaining with
  | error e => rfl
  | ok _ =>
      have hlen := World.length_of_checkInputs hinputs
      cases htables : w.hasTables remaining with
      | false => rfl
      | true =>
          simp only [table?_eq_some hlen, backtrack?_eq_some, Option.bind_eq_bind,
            Option.bind_some, byDensity?_eq_some hlen fun a ha => (fits_of_mem_backtrack _ a ha).1]
          rfl

theorem plan?_eq_some (w : World α) (rates : List α) (remaining : α) :
    plan? w rates remaining = some (plan w rates remaining) := by
  rw [plan?, plan, solve?_eq_some]
  cases hsolve : solve w rates remaining with
  | error e => rfl
  | ok s =>
      obtain ⟨-, -, rfl⟩ := of_solve hsolve
      have hplan : ∀ a ∈ (solutionOf w rates (table w rates
          (w.ladder.slotsWithin remaining))).plan, a < w.nactions := by
        intro a ha
        exact (fits_of_mem_backtrack _ a ((byDensity_perm w rates _).mem_iff.mp ha)).1
      simp only [Option.bind_eq_bind, Option.bind_some, World.mapM_planStep? hplan]
      rfl

end Knapsack

/-! ## Bellman -/

namespace Bellman

variable [Analytic α]

def improve? (w : World α) (rates : List α) (keep : α) (below : List (Cell α))
    (best : Cell α) (choice : Nat × Nat) : Option (Cell α) := do
  let action := w.index choice.1 choice.2
  let rate ← rates[action]?
  let rest ← below[choice.2]?
  let candidate := worth w keep choice.2 rate rest.value
  return if best.value < candidate then ⟨candidate, some action⟩ else best

def bestCell? (w : World α) (rates : List α) (keep : α) (below : List (Cell α)) :
    Option (Cell α) :=
  (w.choices (below.take w.nbudgets).length).foldlM (improve? w rates keep below) idle

def nextRow? (w : World α) (rates : List α) (keep : α) :
    List (Cell α) → Option (List (Cell α))
  | [] => some []
  | _ :: below => do
    let cell ← bestCell? w rates keep below
    let row ← nextRow? w rates keep below
    return cell :: row

/-- There is always a row to go on from. -/
def growRows? (w : World α) (rates : List α) (keep : α) :
    List (List (Cell α)) → Option (List (List (Cell α)))
  | [] => none
  | row :: rows => do
    let next ← nextRow? w rates keep row
    return next :: row :: rows

def rows? (w : World α) (rates : List α) (keep : α) (slots : Nat) :
    Nat → Option (List (List (Cell α)))
  | 0 => some [List.replicate (slots + 1) idle]
  | horizon + 1 => do
    let below ← rows? w rates keep slots horizon
    growRows? w rates keep below

/-- The walk has to come by a row, and by a cell in it. -/
def follow? (w : World α) : List (List (Cell α)) → Nat → Option (List Nat)
  | [], _ => none
  | row :: rows, used => do
    let cell ← row[used]?
    match cell.choice with
    | none => return []
    | some action =>
      let (_, rung) ← w.splitIndex? action
      let plan ← follow? w rows (used + (rung + 1))
      return action :: plan

def planIndices? (w : World α) (rates : List α) (remaining : α) (discount : α)
    (horizon : Nat) : Option (Decision α (List Nat)) :=
  match w.checkInputs rates remaining with
  | .error e => some (.error e)
  | .ok () =>
    if hasRows w remaining horizon then do
      let rows ← rows? w rates (1 - discount) (w.ladder.slotsWithin remaining) horizon
      return .ok (← follow? w rows 0)
    else some (.error .overflow)

def plan? (w : World α) (rates : List α) (remaining : α) (discount : α) (horizon : Nat) :
    Option (Decision α (List (PlanStep α))) := do
  match ← planIndices? w rates remaining discount horizon with
  | .error e => return .error e
  | .ok is => return .ok (extendLast (← is.mapM w.planStep?))

variable {w : World α} {rates : List α} {keep : α}

theorem bestCell?_eq_some (hlen : rates.length = w.nactions) (below : List (Cell α)) :
    bestCell? w rates keep below = some (bestCell w rates keep below) := by
  refine foldlM_eq_some idle fun best c hc => ?_
  obtain ⟨haction, hcell⟩ := World.choice_lt hc
  rw [improve?, getElem?_eq_some_getD (hlen.symm ▸ haction) 0, getElem?_eq_some_getD hcell idle]
  rfl

theorem nextRow?_eq_some (hlen : rates.length = w.nactions) :
    ∀ row, nextRow? w rates keep row = some (nextRow w rates keep row)
  | [] => rfl
  | _ :: below => by
      rw [nextRow?, bestCell?_eq_some hlen, nextRow?_eq_some hlen below]
      rfl

theorem rows?_eq_some (hlen : rates.length = w.nactions) (slots : Nat) :
    ∀ horizon, rows? w rates keep slots horizon = some (rows w rates keep slots horizon) := by
  intro horizon
  induction horizon with
  | zero => rfl
  | succ h ih =>
      have hgrow : rows w rates keep slots (h + 1) =
          growRows w rates keep (rows w rates keep slots h) := rfl
      rw [rows?, ih, hgrow]
      simp only [Option.bind_eq_bind, Option.bind_some]
      cases h with
      | zero =>
          rw [rows_zero, growRows?, growRows, nextRow?_eq_some hlen]
          rfl
      | succ h =>
          rw [rows_succ, growRows?, growRows, nextRow?_eq_some hlen]
          rfl

/-- Every action of the walk leaves a row and a cell to go on from. -/
theorem follow?_eq_some (rates : List α) (keep : α) {slots : Nat} :
    ∀ h {used : Nat}, used ≤ slots → follow? w (rows w rates keep slots h) used =
      some (follow w (rows w rates keep slots h) used) := by
  intro h
  induction h with
  | zero =>
      intro used hused
      rw [follow_rows_zero hused, rows_zero, follow?, getElem?_row _ hused]
      rfl
  | succ h ih =>
      intro used hused
      rcases cellAt_succ_cases w rates keep h (slots - used) with hidle | ⟨a, ha, hfit, hcell⟩
      · rw [follow_rows_idle hused hidle, rows_succ, follow?, getElem?_row _ hused, hidle]
        rfl
      · have hsplit : w.splitIndex? a = some ((w.splitIndex a).1, w.rungOf a) :=
          World.splitIndex?_eq_some ha
        rw [follow_rows_action hused hcell, rows_succ, follow?, getElem?_row _ hused, hcell]
        simp only [Option.bind_eq_bind, Option.bind_some, hsplit]
        rw [ih (by rw [World.slotUse] at hfit; omega : used + (w.rungOf a + 1) ≤ slots)]
        rfl

theorem planIndices?_eq_some (w : World α) (rates : List α) (remaining discount : α)
    (horizon : Nat) :
    planIndices? w rates remaining discount horizon =
      some (planIndices w rates remaining discount horizon) := by
  rw [planIndices?, planIndices]
  cases hinputs : w.checkInputs rates remaining with
  | error e => rfl
  | ok _ =>
      cases htables : hasRows w remaining horizon with
      | false => rfl
      | true =>
          simp only [rows?_eq_some (World.length_of_checkInputs hinputs), Option.bind_eq_bind,
            Option.bind_some, follow?_eq_some rates _ horizon (Nat.zero_le _)]
          rfl

theorem plan?_eq_some (w : World α) (rates : List α) (remaining discount : α) (horizon : Nat) :
    plan? w rates remaining discount horizon =
      some (plan w rates remaining discount horizon) := by
  rw [plan?, plan, planIndices?_eq_some]
  cases hindices : planIndices w rates remaining discount horizon with
  | error e => rfl
  | ok is =>
      obtain ⟨-, -, rfl⟩ := of_planIndices hindices
      simp only [Option.bind_eq_bind, Option.bind_some,
        World.mapM_planStep? (follow_rows_admits horizon (Nat.zero_le _)).actions]
      rfl

end Bellman

/-! ## The configured planner -/

namespace Planner

variable [Analytic α]

def plan? (p : Planner α) (w : World α) (rates : List α) (remaining : α) :
    Option (Decision α (List (PlanStep α))) :=
  match p with
  | .knapsack => Knapsack.plan? w rates remaining
  | .bellman discount horizon => Bellman.plan? w rates remaining discount horizon

theorem plan?_eq_some (p : Planner α) (w : World α) (rates : List α) (remaining : α) :
    p.plan? w rates remaining = some (p.plan w rates remaining) := by
  cases p with
  | knapsack => exact Knapsack.plan?_eq_some w rates remaining
  | bellman discount horizon => exact Bellman.plan?_eq_some w rates remaining discount horizon

end Planner

end SolverPortfolio

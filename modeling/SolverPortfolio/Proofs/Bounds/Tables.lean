import SolverPortfolio.Proofs.Bounds.Words
import SolverPortfolio.Proofs.Ladder

/-!
# The tables of the planners in machine words

The planners fill their tables in place, in arrays that are indexed by machine words. The
counterparts here do the same: they set entries of arrays round by round and walk back over them,
and they have no result where an entry is missing or a number is not a word.

An array holds the cells of the table by rising slots. After each round the arrays hold the cells
up to the one of the round and what they were made with above it (`Knapsack.fillTables?_eq_some`,
`Bellman.fillGrids?_eq_some`). The walks visit the cells that the walks over the table visit, and
what an action uses is left at each of them (`Knapsack.walkPolicy?_eq_some`,
`Bellman.walkChoices?_eq_some`). So the only number that may not be a word is the size of the
tables, and it is none where the slots are as many as words can count (`hasTables_eq_false_iff`).
`planners_need_only_tables` is the headline.
-/

namespace SolverPortfolio

open Scalar (wordBound)

variable {α : Type}

/-- The words that trying a choice for `b` slots takes. -/
theorem World.choice_words {w : World α} {b : ℕ} {c : ℕ × ℕ} (hwords : w.nactions < wordBound)
    (hc : c ∈ w.choices (min w.nbudgets b)) :
    w.index? c.1 c.2 = some (w.index c.1 c.2) ∧ w.index c.1 c.2 < w.nactions ∧ c.2 < b ∧
      minus? b c.2 = some (b - c.2) ∧ minus? (b - c.2) 1 = some (b - c.2 - 1) := by
  obtain ⟨hs, hr⟩ := mem_choices.mp hc
  have hrung : c.2 < b := Nat.lt_of_lt_of_le hr (Nat.min_le_right ..)
  have hindex : w.index c.1 c.2 < w.nactions :=
    index_lt_nactions hs (Nat.lt_of_lt_of_le hr (Nat.min_le_left ..))
  exact ⟨index?_eq_some (hindex.trans hwords), hindex, hrung, minus?_eq_some (by omega),
    minus?_eq_some (by omega)⟩

/-- Tables have a size unless the number of slots is the last word there is. -/
theorem World.hasTables_eq_false_iff [Scalar α] [Rounded α] {w : World α} {remaining : α} :
    w.hasTables remaining = false ↔ w.ladder.slotsWithin remaining + 1 = wordBound := by
  have hslots : w.ladder.slotsWithin remaining < wordBound := by
    rw [Ladder.slotsWithin]
    split
    · rw [Rounded.wholePart_eq]
      exact Ladder.wholePart_lt _
    · exact Nat.two_pow_pos 64
  rw [← Bool.not_eq_true, hasTables_iff]
  omega

/-! ## Knapsack -/

namespace Knapsack

open Scalar

variable [Scalar α]

structure Tables (α : Type) where
  value : List α
  policy : List (Option ℕ)

/-- The tables of the cells for fewer than `n` slots. -/
def Tables.of (cells : ℕ → Cell α) (n : ℕ) : Tables α :=
  ⟨tabulate (fun b => (cells b).value) n, tabulate (fun b => (cells b).choice) n⟩

def relax? (w : World α) (rates : List α) (b : ℕ) (t : Tables α) (choice : ℕ × ℕ) :
    Option (Tables α) := do
  let action ← w.index? choice.1 choice.2
  let rate ← rates[action]?
  let left ← minus? b choice.2
  let left ← minus? left 1
  let rest ← t.value[left]?
  let best ← t.value[b]?
  let candidate := (1 - rate) * rest
  if candidate < best then
    return ⟨← set? t.value b candidate, ← set? t.policy b (some action)⟩
  else return t

def fillTables? (w : World α) (rates : List α) (slots : ℕ) : Option (Tables α) := do
  let size ← word? (slots + 1)
  let value ← set? (List.replicate size infinity) 0 1
  (List.range' 1 slots).foldlM
    (fun t b => (w.choices (min w.nbudgets b)).foldlM (relax? w rates b) t)
    ⟨value, List.replicate size none⟩

def walkPolicy? (w : World α) (policy : List (Option ℕ)) (b : ℕ) : Option (List ℕ) :=
  if b = 0 then some []
  else
    match policy[b]? with
    | none => none
    | some none => some []
    | some (some action) =>
      match _h : w.spend? b action with
      | none => none
      | some left => (walkPolicy? w policy left).map (action :: ·)
termination_by b
decreasing_by exact World.spend?_lt ‹_›

/-- What the plan is sorted by. -/
def sortKey? (w : World α) (rates : List α) (action : ℕ) : Option α := do
  let rate ← rates[action]?
  let cost ← w.cost? action
  return rate / cost

def sortPlan? (w : World α) (rates : List α) (plan : List ℕ) : Option (List ℕ) := do
  let keyed ← plan.mapM fun a => do return (a, ← sortKey? w rates a)
  return (keyed.mergeSort fun x y => precedes y.2 x.2).map Prod.fst

def solveInWords? (w : World α) (rates : List α) (remaining : α) :
    Option (Decision α (Solution α)) := do
  match ← w.acceptInputs? rates remaining with
  | .error e => return .error e
  | .ok () =>
    let slots := w.ladder.slotsWithin remaining
    let tables ← fillTables? w rates slots
    let plan ← walkPolicy? w tables.policy slots
    return .ok ⟨tables.value, tables.policy, ← sortPlan? w rates plan⟩

variable {w : World α} {rates : List α}

/-! ### Filling -/

/-- Trying a choice at `b` improves the cell there. -/
theorem relax?_eq_some (hlen : rates.length = w.nactions) (hwords : w.nactions < wordBound)
    {below : List (Cell α)} {cells : ℕ → Cell α} {b n : ℕ} (hb : b < n)
    (hbelow : ∀ r < b, below.getD r unfilled = cells (b - r - 1)) (best : Cell α) {c : ℕ × ℕ}
    (hc : c ∈ w.choices (min w.nbudgets b)) :
    relax? w rates b (Tables.of (Function.update cells b best) n) c =
      some (Tables.of (Function.update cells b (improve w rates below best c)) n) := by
  obtain ⟨hindex, haction, hrung, hminus, hminus'⟩ := World.choice_words hwords hc
  -- what is read is below the cell that is being improved
  have hleft : b - c.2 - 1 ≠ b := by omega
  have hrest : (Tables.of (Function.update cells b best) n).value[b - c.2 - 1]? =
      some (cells (b - c.2 - 1)).value := by
    rw [Tables.of, getElem?_tabulate (by omega), Function.update_of_ne hleft]
  have hbest : (Tables.of (Function.update cells b best) n).value[b]? = some best.value := by
    rw [Tables.of, getElem?_tabulate hb, Function.update_self]
  simp only [relax?, hindex, getElem?_eq_some_getD (hlen.symm ▸ haction) 0, hminus, hminus', hrest,
    hbest, Option.bind_eq_bind, Option.bind_some]
  simp only [improve, extend, rateOf, hbelow c.2 hrung]
  split
  · simp only [Tables.of, set?_tabulate hb, Option.bind_some]
    refine congrArg some ?_
    congr 1 <;>
    · refine tabulate_congr fun i _ => ?_
      simp only [Function.update_apply]
      split <;> rfl
  · rfl

/-- The cells up to `k` slots, with nothing in the cells above. -/
def cellsTo (w : World α) (rates : List α) (k b : ℕ) : Cell α :=
  if b ≤ k then cellAt w rates b else unfilled

theorem update_cellsTo (k : ℕ) :
    Function.update (cellsTo w rates k) (k + 1) (cellAt w rates (k + 1)) =
      cellsTo w rates (k + 1) := by
  funext b
  rw [Function.update_apply]
  unfold cellsTo
  split
  · rename_i heq
    rw [heq, if_pos (Nat.le_refl _)]
  · exact if_congr (by omega) rfl rfl

theorem round_eq_some (hlen : rates.length = w.nactions) (hwords : w.nactions < wordBound)
    {k n : ℕ} (hk : k + 1 < n) :
    (w.choices (min w.nbudgets (k + 1))).foldlM (relax? w rates (k + 1))
        (Tables.of (cellsTo w rates k) n) =
      some (Tables.of (cellsTo w rates (k + 1)) n) := by
  have hbelow : ∀ r < k + 1,
      (table w rates k).getD r unfilled = cellsTo w rates k (k + 1 - r - 1) := by
    intro r hr
    rw [getD_table (Nat.le_of_lt_succ hr), cellsTo, if_pos (by omega)]
    congr 1
    omega
  -- the round starts from a cell with nothing in it
  have hempty : Tables.of (cellsTo w rates k) n =
      Tables.of (Function.update (cellsTo w rates k) (k + 1) unfilled) n := by
    have hunfilled : cellsTo w rates k (k + 1) = unfilled := if_neg (Nat.not_succ_le_self k)
    rw [← hunfilled, Function.update_eq_self]
  rw [hempty, foldlM_rep_eq_some unfilled fun best c hc =>
    relax?_eq_some hlen hwords hk hbelow best hc]
  rw [← update_cellsTo, cellAt, nextCell, length_take_table]

theorem fillTables?_eq_some (hlen : rates.length = w.nactions) (hwords : w.nactions < wordBound)
    {slots : ℕ} (hslots : slots + 1 < wordBound) :
    fillTables? w rates slots = some (Tables.of (cellAt w rates) (slots + 1)) := by
  have hvalue : set? (List.replicate (slots + 1) infinity) 0 1 =
      some (tabulate (fun b => (cellsTo w rates 0 b).value) (slots + 1)) := by
    rw [replicate_eq_tabulate, set?_tabulate (Nat.succ_pos slots)]
    refine congrArg some (tabulate_congr fun b _ => ?_)
    cases b <;> rfl
  have hpolicy : List.replicate (slots + 1) none =
      tabulate (fun b => (cellsTo w rates 0 b).choice) (slots + 1) := by
    rw [replicate_eq_tabulate]
    refine tabulate_congr fun b _ => ?_
    cases b <;> rfl
  have hcells : Tables.of (cellsTo w rates slots) (slots + 1) =
      Tables.of (cellAt w rates) (slots + 1) := by
    have heq : ∀ b < slots + 1, cellsTo w rates slots b = cellAt w rates b := fun b hb =>
      if_pos (Nat.le_of_lt_succ hb)
    rw [Tables.of, Tables.of, tabulate_congr fun b hb => congrArg Cell.value (heq b hb),
      tabulate_congr fun b hb => congrArg Cell.choice (heq b hb)]
  rw [fillTables?, word?_eq_some hslots]
  simp only [Option.bind_eq_bind, Option.bind_some, hvalue, hpolicy, ← hcells]
  exact foldlM_range'_eq_some (s := fun k => Tables.of (cellsTo w rates k) (slots + 1))
    fun k hk => round_eq_some hlen hwords (Nat.succ_lt_succ hk)

/-- The table by rising slots. -/
theorem reverse_table {β : Type} (f : Cell α → β) (b : ℕ) :
    ((table w rates b).map f).reverse = tabulate (fun i => f (cellAt w rates i)) (b + 1) := by
  induction b with
  | zero => rfl
  | succ b ih =>
      rw [table_succ, List.map_cons, List.reverse_cons, ih]
      simp only [tabulate, List.range_succ (n := b + 1), List.map_append, List.map_singleton]

/-! ### Walking back -/

theorem walkPolicy?_eq_some (rates : List α) {b n : ℕ} (hn : n < wordBound) (hb : b < n) :
    walkPolicy? w (Tables.of (cellAt w rates) n).policy b =
      some (backtrack w (table w rates b)) := by
  induction b using Nat.strongRecOn with
  | ind b ih =>
      cases b with
      | zero =>
          show _ = some (backtrack w [emptyCell])
          rw [walkPolicy?, if_pos rfl, backtrack]
          rfl
      | succ b =>
          have hpolicy : (Tables.of (cellAt w rates) n).policy[b + 1]? =
              some (cellAt w rates (b + 1)).choice := getElem?_tabulate hb
          rw [walkPolicy?, if_neg (Nat.succ_ne_zero b), hpolicy, table_succ, backtrack]
          rcases cellAt_succ_cases w rates b with hnone | ⟨a, ha, hrung, hsome⟩
          · simp only [hnone]
          · have hspend := World.spend?_eq_some ha (Nat.succ_le_succ hrung : w.slotUse a ≤ b + 1)
              (hb.trans hn)
            have hleft : b + 1 - w.slotUse a = b - w.rungOf a := Nat.succ_sub_succ ..
            simp only [hsome]
            split
            · rename_i hnone
              rw [hspend] at hnone
              cases hnone
            · rename_i left hsome
              rw [hspend, Option.some_inj, hleft] at hsome
              rw [← hsome, ih (b - w.rungOf a) (by omega) (by omega), drop_table hrung]
              rfl

theorem sortKey?_eq_some (hlen : rates.length = w.nactions) {a b : ℕ} (ha : a < w.nactions)
    (hfit : w.slotUse a ≤ b) (hb : b < wordBound) :
    sortKey? w rates a = some (density w rates a) := by
  rw [sortKey?, getElem?_eq_some_getD (hlen.symm ▸ ha) 0,
    World.cost?_eq_some ha (Nat.lt_of_le_of_lt hfit hb)]
  rfl

theorem sortPlan?_eq_some (hlen : rates.length = w.nactions) {plan : List ℕ} {b : ℕ}
    (hplan : ∀ a ∈ plan, a < w.nactions ∧ w.slotUse a ≤ b) (hb : b < wordBound) :
    sortPlan? w rates plan = some (byDensity w rates plan) := by
  have hkeys : (plan.mapM fun a => do return (a, ← sortKey? w rates a)) =
      some (plan.map fun a => (a, density w rates a)) := by
    refine mapM_eq_some fun a ha => ?_
    rw [sortKey?_eq_some hlen (hplan a ha).1 (hplan a ha).2 hb]
    rfl
  have hdensities : (plan.mapM fun a => do return (a, ← density? w rates a)) =
      some (plan.map fun a => (a, density w rates a)) := by
    refine mapM_eq_some fun a ha => ?_
    rw [density?_eq_some hlen (hplan a ha).1]
    rfl
  rw [← byDensity?_eq_some hlen fun a ha => (hplan a ha).1, sortPlan?, byDensity?, hkeys,
    hdensities]

/-! ### Solving -/

theorem solveInWords?_eq {remaining : α} (hinputs : w.checkInputs rates remaining = .ok ())
    (hrates : rates.length < wordBound) :
    solveInWords? w rates remaining =
      if w.hasTables remaining then some (solve w rates remaining) else none := by
  have hlen := World.length_of_checkInputs hinputs
  have hwords : w.nactions < wordBound := hlen ▸ hrates
  rw [solveInWords?, World.acceptInputs?_eq_some hwords, hinputs]
  simp only [Option.bind_eq_bind, Option.bind_some]
  by_cases hslots : w.ladder.slotsWithin remaining + 1 < wordBound
  · rw [if_pos (World.hasTables_iff.mpr hslots), fillTables?_eq_some hlen hwords hslots,
      Option.bind_some, walkPolicy?_eq_some rates hslots (Nat.lt_succ_self _), Option.bind_some,
      sortPlan?_eq_some hlen (fits_of_mem_backtrack _) (Nat.lt_of_succ_lt hslots)]
    rw [solve_eq hinputs, if_pos (World.hasTables_iff.mpr hslots), solutionOf]
    simp only [Tables.of, reverse_table]
    rfl
  · rw [if_neg (mt World.hasTables_iff.mp hslots), fillTables?, word?_eq_none hslots]
    rfl

end Knapsack

/-! ## Bellman -/

namespace Bellman

open Scalar Analytic

variable [Analytic α]

structure Grids (α : Type) where
  value : List (List α)
  choice : List (List (Option ℕ))

/-- The grids of the cells for fewer than `m` actions and fewer than `n` slots. -/
def Grids.of (cells : ℕ → ℕ → Cell α) (m n : ℕ) : Grids α :=
  ⟨grid (fun h b => (cells h b).value) m n, grid (fun h b => (cells h b).choice) m n⟩

omit [Analytic α] in
theorem Grids.of_congr {f g : ℕ → ℕ → Cell α} {m n : ℕ} (h : ∀ i < m, ∀ j < n, f i j = g i j) :
    Grids.of f m n = Grids.of g m n := by
  rw [Grids.of, Grids.of, grid_congr fun i hi j hj => congrArg Cell.value (h i hi j hj),
    grid_congr fun i hi j hj => congrArg Cell.choice (h i hi j hj)]

def tryChoice? (w : World α) (rates : List α) (keep : α) (value : List (List α)) (h b : ℕ)
    (best : Cell α) (choice : ℕ × ℕ) : Option (Cell α) := do
  let action ← w.index? choice.1 choice.2
  let rate ← rates[action]?
  let cost ← w.ladder.budget? choice.2
  let row ← value[← minus? h 1]?
  let left ← minus? b choice.2
  let rest ← row[← minus? left 1]?
  let candidate := pow keep cost * (rate + (1 - rate) * rest)
  return if best.value < candidate then ⟨candidate, some action⟩ else best

def fillCell? (w : World α) (rates : List α) (keep : α) (h : ℕ) (g : Grids α) (b : ℕ) :
    Option (Grids α) := do
  let best ← (w.choices (min w.nbudgets b)).foldlM (tryChoice? w rates keep g.value h b) idle
  return ⟨← setAt? g.value h b best.value, ← setAt? g.choice h b best.choice⟩

def fillGrids? (w : World α) (rates : List α) (keep : α) (slots horizon : ℕ) :
    Option (Grids α) := do
  let columns ← word? (slots + 1)
  let rows ← word? (horizon + 1)
  (List.range' 1 horizon).foldlM
    (fun g h => (List.range' 1 slots).foldlM (fillCell? w rates keep h) g)
    ⟨List.replicate rows (List.replicate columns 0),
      List.replicate rows (List.replicate columns none)⟩

def walkChoices? (w : World α) (choice : List (List (Option ℕ))) (h b : ℕ) : Option (List ℕ) :=
  if h = 0 ∨ b = 0 then some []
  else
    match choice[h]?.bind (·[b]?) with
    | none => none
    | some none => some []
    | some (some action) =>
      match w.spend? b action, _h : minus? h 1 with
      | some left, some rest => (walkChoices? w choice rest left).map (action :: ·)
      | _, _ => none
termination_by h
decreasing_by
  have hsum := add_eq_of_minus? _h
  omega

def planInWords? (w : World α) (rates : List α) (remaining discount : α) (horizon : ℕ) :
    Option (Decision α (List ℕ)) := do
  match ← w.acceptInputs? rates remaining with
  | .error e => return .error e
  | .ok () =>
    let slots := w.ladder.slotsWithin remaining
    let grids ← fillGrids? w rates (1 - discount) slots horizon
    return .ok (← walkChoices? w grids.choice horizon slots)

variable {w : World α} {rates : List α} {keep : α}

/-! ### Filling -/

theorem cellAt_zero_slots (w : World α) (rates : List α) (keep : α) (h : ℕ) :
    cellAt w rates keep h 0 = idle := by
  cases h with
  | zero => rfl
  | succ h =>
      rcases cellAt_succ_cases w rates keep h 0 with hidle | ⟨a, _, hfit, _⟩
      · exact hidle
      · rw [World.slotUse] at hfit
        omega

/-- Trying a choice reads the cells for one action less. -/
theorem tryChoice?_eq_some (hlen : rates.length = w.nactions) (hwords : w.nactions < wordBound)
    {cells : ℕ → ℕ → Cell α} {h b m n : ℕ} (hh : h + 1 < m) (hb : b < n) (hn : n < wordBound)
    (best : Cell α) {c : ℕ × ℕ} (hc : c ∈ w.choices (min w.nbudgets b)) :
    tryChoice? w rates keep (Grids.of cells m n).value (h + 1) b best c =
      some (improve w rates keep (downFrom (cells h) b) best c) := by
  obtain ⟨hindex, haction, hrung, hminus, hminus'⟩ := World.choice_words hwords hc
  have hcost : w.ladder.budget? c.2 = some (w.ladder.budget c.2) :=
    World.budget?_eq_some (by omega)
  have hrow : minus? (h + 1) 1 = some h := minus?_eq_some (Nat.succ_pos h)
  have hrest : (tabulate (fun b => (cells h b).value) n)[b - c.2 - 1]? =
      some (cells h (b - c.2 - 1)).value := getElem?_tabulate (by omega)
  have hbelow : (downFrom (cells h) b).getD c.2 idle = cells h (b - c.2 - 1) := by
    rw [List.getD_eq_getElem?_getD, getElem?_downFrom _ hrung, Option.getD_some]
    congr 1
    omega
  simp only [tryChoice?, Grids.of, hindex, getElem?_eq_some_getD (hlen.symm ▸ haction) 0, hcost,
    hrow, getElem?_grid (Nat.lt_of_succ_lt hh), hminus, hminus', hrest, Option.bind_eq_bind,
    Option.bind_some]
  simp only [improve, worth, rateOf, hbelow]
  rfl

/-- The cells for up to `k` actions, and for `k + 1` actions those up to `j` slots. -/
def cellsTo (w : World α) (rates : List α) (keep : α) (k j h b : ℕ) : Cell α :=
  if h ≤ k ∨ h = k + 1 ∧ b ≤ j then cellAt w rates keep h b else idle

theorem cellsTo_zero (k h b : ℕ) :
    cellsTo w rates keep k 0 h b = if h ≤ k then cellAt w rates keep h b else idle := by
  unfold cellsTo
  split
  · rename_i hcell
    rcases hcell with hle | ⟨rfl, hzero⟩
    · rw [if_pos hle]
    · rw [if_neg (Nat.not_succ_le_self k), Nat.le_zero.mp hzero, cellAt_zero_slots]
  · rw [if_neg (by omega)]

theorem cellsTo_succ (k j h b : ℕ) :
    cellsTo w rates keep k (j + 1) h b =
      if h = k + 1 ∧ b = j + 1 then cellAt w rates keep (k + 1) (j + 1)
      else cellsTo w rates keep k j h b := by
  unfold cellsTo
  split
  · rename_i hcell
    split
    · rename_i hlast
      rw [hlast.1, hlast.2]
    · rw [if_pos (by omega)]
  · rw [if_neg (by omega), if_neg (by omega)]

theorem fillCell?_eq_some (hlen : rates.length = w.nactions) (hwords : w.nactions < wordBound)
    {k j m n : ℕ} (hk : k + 1 < m) (hj : j + 1 < n) (hn : n < wordBound) :
    fillCell? w rates keep (k + 1) (Grids.of (cellsTo w rates keep k j) m n) (j + 1) =
      some (Grids.of (cellsTo w rates keep k (j + 1)) m n) := by
  have hrow : cellsTo w rates keep k j k = cellAt w rates keep k := by
    funext b
    exact if_pos (Or.inl (Nat.le_refl k))
  have hbest : (w.choices (min w.nbudgets (j + 1))).foldlM
      (tryChoice? w rates keep (Grids.of (cellsTo w rates keep k j) m n).value (k + 1) (j + 1))
      idle = some (cellAt w rates keep (k + 1) (j + 1)) := by
    rw [foldlM_eq_some idle fun best c hc => tryChoice?_eq_some hlen hwords hk hj hn best hc,
      hrow, cellAt, bestCell_downFrom]
  rw [fillCell?, hbest]
  simp only [Option.bind_eq_bind, Option.bind_some, Grids.of, setAt?_grid hk hj, cellsTo_succ,
    apply_ite Cell.value, apply_ite Cell.choice]
  rfl

theorem fillRow?_eq_some (hlen : rates.length = w.nactions) (hwords : w.nactions < wordBound)
    {k m slots : ℕ} (hk : k + 1 < m) (hslots : slots + 1 < wordBound) :
    (List.range' 1 slots).foldlM (fillCell? w rates keep (k + 1))
        (Grids.of (cellsTo w rates keep k 0) m (slots + 1)) =
      some (Grids.of (cellsTo w rates keep (k + 1) 0) m (slots + 1)) := by
  have hcells : Grids.of (cellsTo w rates keep (k + 1) 0) m (slots + 1) =
      Grids.of (cellsTo w rates keep k slots) m (slots + 1) := by
    refine Grids.of_congr fun h _ b hb => ?_
    rw [cellsTo_zero, cellsTo]
    exact if_congr (by omega) rfl rfl
  rw [hcells]
  exact foldlM_range'_eq_some (s := fun j => Grids.of (cellsTo w rates keep k j) m (slots + 1))
    fun j hj => fillCell?_eq_some hlen hwords hk (Nat.succ_lt_succ hj) hslots

theorem fillGrids?_eq_some (hlen : rates.length = w.nactions) (hwords : w.nactions < wordBound)
    {slots horizon : ℕ} (hslots : slots + 1 < wordBound) (hhorizon : horizon + 1 < wordBound) :
    fillGrids? w rates keep slots horizon =
      some (Grids.of (cellAt w rates keep) (horizon + 1) (slots + 1)) := by
  have hempty : ∀ h b, cellsTo w rates keep 0 0 h b = idle := by
    intro h b
    rw [cellsTo_zero]
    split
    · rename_i hzero
      rw [Nat.le_zero.mp hzero]
      rfl
    · rfl
  have hvalue : List.replicate (horizon + 1) (List.replicate (slots + 1) 0) =
      grid (fun h b => (cellsTo w rates keep 0 0 h b).value) (horizon + 1) (slots + 1) := by
    simp only [replicate_eq_grid, hempty]
    rfl
  have hchoice : List.replicate (horizon + 1) (List.replicate (slots + 1) none) =
      grid (fun h b => (cellsTo w rates keep 0 0 h b).choice) (horizon + 1) (slots + 1) := by
    simp only [replicate_eq_grid, hempty]
    rfl
  have hcells : Grids.of (cellsTo w rates keep horizon 0) (horizon + 1) (slots + 1) =
      Grids.of (cellAt w rates keep) (horizon + 1) (slots + 1) := by
    refine Grids.of_congr fun h hh b _ => ?_
    rw [cellsTo_zero, if_pos (Nat.le_of_lt_succ hh)]
  rw [fillGrids?, word?_eq_some hslots, word?_eq_some hhorizon]
  simp only [Option.bind_eq_bind, Option.bind_some, hvalue, hchoice, ← hcells]
  exact foldlM_range'_eq_some
    (s := fun k => Grids.of (cellsTo w rates keep k 0) (horizon + 1) (slots + 1))
    fun k hk => fillRow?_eq_some hlen hwords (Nat.succ_lt_succ hk) hslots

/-! ### Walking back -/

theorem walkChoices?_eq_some (rates : List α) (keep : α) {m slots : ℕ}
    (hslots : slots + 1 < wordBound) :
    ∀ {h b : ℕ}, h < m → b ≤ slots →
      walkChoices? w (Grids.of (cellAt w rates keep) m (slots + 1)).choice h b =
        some (follow w (rows w rates keep slots h) (slots - b)) := by
  intro h
  induction h with
  | zero =>
      intro b _ _
      rw [walkChoices?, if_pos (Or.inl rfl), follow_rows_zero (Nat.sub_le ..)]
  | succ h ih =>
      intro b hh hb
      have hleft : slots - (slots - b) = b := Nat.sub_sub_self hb
      have hchoice : (Grids.of (cellAt w rates keep) m (slots + 1)).choice[h + 1]?.bind (·[b]?) =
          some (cellAt w rates keep (h + 1) b).choice := by
        rw [Grids.of, getElem?_grid hh, Option.bind_some,
          getElem?_tabulate (Nat.lt_succ_of_le hb)]
      rw [walkChoices?]
      rcases cellAt_succ_cases w rates keep h b with hidle | ⟨a, ha, hfit, hcell⟩
      · -- the walk over words may end one cell earlier, where no slots are left
        rw [follow_rows_idle (Nat.sub_le ..) (hleft.symm ▸ hidle), hchoice, hidle]
        split <;> rfl
      · have hpos : 0 < b := Nat.lt_of_lt_of_le (Nat.succ_pos _) hfit
        have hspend := World.spend?_eq_some ha hfit (by omega)
        have hrest : minus? (h + 1) 1 = some h := minus?_eq_some (Nat.succ_pos h)
        have hused : slots - b + w.slotUse a = slots - (b - w.slotUse a) := by omega
        rw [follow_rows_action (Nat.sub_le ..) (hleft.symm ▸ hcell), hused, if_neg (by omega),
          hchoice, hcell]
        simp only
        split
        · rename_i left rest hleft' hrest'
          rw [hspend, Option.some_inj] at hleft'
          rw [hrest, Option.some_inj] at hrest'
          rw [← hleft', ← hrest', ih (Nat.lt_of_succ_lt hh) (by omega)]
          rfl
        · rename_i hnone
          exact (hnone _ _ hspend hrest).elim

/-! ### Planning -/

theorem planInWords?_eq {remaining : α} (discount : α) {horizon : ℕ}
    (hinputs : w.checkInputs rates remaining = .ok ()) (hrates : rates.length < wordBound)
    (hhorizon : horizon + 1 < wordBound) :
    planInWords? w rates remaining discount horizon =
      if w.hasTables remaining then some (planIndices w rates remaining discount horizon)
      else none := by
  have hlen := World.length_of_checkInputs hinputs
  have hwords : w.nactions < wordBound := hlen ▸ hrates
  rw [planInWords?, World.acceptInputs?_eq_some hwords, hinputs]
  simp only [Option.bind_eq_bind, Option.bind_some]
  by_cases hslots : w.ladder.slotsWithin remaining + 1 < wordBound
  · rw [if_pos (World.hasTables_iff.mpr hslots), fillGrids?_eq_some hlen hwords hslots hhorizon,
      Option.bind_some, walkChoices?_eq_some rates _ hslots (Nat.lt_succ_self _) (Nat.le_refl _),
      Nat.sub_self, planIndices_eq hinputs, if_pos (hasRows_iff.mpr ⟨hslots, hhorizon⟩)]
    rfl
  · rw [if_neg (mt World.hasTables_iff.mp hslots), fillGrids?, word?_eq_none hslots]
    rfl

end Bellman

/-! ## Both planners -/

/-- **The size of the tables is all that can leave the words.** Within a budget whose tables have
a size both planners get by with words, and find what they are meant to find. Where the number of
slots is the last word there is, neither of them gets to its tables, and both stop. -/
theorem planners_need_only_tables [Analytic α] {w : World α} {rates : List α} {remaining : α}
    (hinputs : w.checkInputs rates remaining = .ok ()) (hrates : rates.length < wordBound) :
    (Knapsack.solveInWords? w rates remaining =
      if w.hasTables remaining then some (Knapsack.solve w rates remaining) else none) ∧
    (∀ (discount : α) (horizon : ℕ), horizon + 1 < wordBound →
      Bellman.planInWords? w rates remaining discount horizon =
        if w.hasTables remaining then
          some (Bellman.planIndices w rates remaining discount horizon)
        else none) ∧
    (w.hasTables remaining = false → Knapsack.solve w rates remaining = .error .overflow ∧
      ∀ (discount : α) (horizon : ℕ),
        Bellman.planIndices w rates remaining discount horizon = .error .overflow) := by
  refine ⟨Knapsack.solveInWords?_eq hinputs hrates, fun discount _ hhorizon =>
    Bellman.planInWords?_eq discount hinputs hrates hhorizon,
    fun hnone => ⟨?_, fun discount _ => ?_⟩⟩
  · rw [Knapsack.solve_eq hinputs, hnone, if_neg Bool.false_ne_true]
  · rw [Bellman.planIndices_eq hinputs, Bellman.hasRows, hnone, Bool.false_and,
      if_neg Bool.false_ne_true]

/-- One solver on one rung. -/
def oneRung : World Float := ⟨["a"], ⟨1, 1⟩⟩

theorem planners_need_only_tables_oneRung :
    (Knapsack.solveInWords? oneRung [0.5] 2 = some (Knapsack.solve oneRung [0.5] 2) ∧
      Bellman.planInWords? oneRung [0.5] 2 0 1 =
        some (Bellman.planIndices oneRung [0.5] 2 0 1)) ∧
    oneRung.checkInputs [0.5] 1e20 = .ok () ∧
      Knapsack.solveInWords? oneRung [0.5] 1e20 = none ∧
      Bellman.planInWords? oneRung [0.5] 1e20 0 1 = none := by
  have hrates : [(0.5 : Float)].length < wordBound := by decide
  have hhorizon : 1 + 1 < wordBound := by decide
  have hfew : oneRung.hasTables 2 = true := by decide +kernel
  have hmany : oneRung.hasTables 1e20 = false := by decide +kernel
  have hinputs : oneRung.checkInputs [0.5] 2 = .ok () := rfl
  have hinputs' : oneRung.checkInputs [0.5] 1e20 = .ok () := rfl
  obtain ⟨hknapsack, hbellman, -⟩ := planners_need_only_tables hinputs hrates
  obtain ⟨hknapsack', hbellman', -⟩ := planners_need_only_tables hinputs' hrates
  rw [hfew, if_pos rfl] at hknapsack
  rw [hmany, if_neg Bool.false_ne_true] at hknapsack'
  refine ⟨⟨hknapsack, ?_⟩, hinputs', hknapsack', ?_⟩
  · rw [hbellman 0 1 hhorizon, hfew, if_pos rfl]
  · rw [hbellman' 0 1 hhorizon, hmany, if_neg Bool.false_ne_true]

end SolverPortfolio

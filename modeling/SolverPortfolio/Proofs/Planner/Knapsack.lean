import Mathlib
import SolverPortfolio.Planner
import SolverPortfolio.Proofs.Planner
import SolverPortfolio.Proofs.Scalar.Rounded
import SolverPortfolio.Proofs.World

/-!
# The knapsack planner

What the table holds for any scalars, that a plan for probabilities fills its slots
(`Knapsack.solve_uses_slots`), and that table and plan are optimal in exact arithmetic.
-/

namespace SolverPortfolio.Knapsack

/-!
## The knapsack table

What the table holds, for any scalars. Cell `b` (`cellAt`) is built from the cells
below it; as long as the values stay below infinity (`Closed`), every cell above the
first one is filled by an action that fits into it, whose value continues the value of
the cell it leaves (`cellAt_succ`), and no action would have done better
(`not_extend_lt_cellAt`).

Hence the table can be walked back from any cell: `backtrack_table` says that the walk
uses up exactly the slots of the cell, and that the cell's value is the product along
the walk.
-/

open Scalar

variable {α : Type} [Scalar α] {w : World α} {rates : List α}

/-! ### Cells -/

/-- The cell for `b` slots. -/
def cellAt (w : World α) (rates : List α) : Nat → Cell α
  | 0 => emptyCell
  | b + 1 => nextCell w rates (table w rates b)

/-- The cell that running a solver's rung on top of the cells below makes. -/
def candidate (w : World α) (rates : List α) (below : List (Cell α)) (choice : Nat × Nat) :
    Cell α :=
  ⟨extend rates (w.index choice.1 choice.2) (below.getD choice.2 unfilled),
    some (w.index choice.1 choice.2)⟩

theorem table_succ (b : Nat) :
    table w rates (b + 1) = cellAt w rates (b + 1) :: table w rates b := rfl

@[simp] theorem length_table : ∀ b, (table w rates b).length = b + 1
  | 0 => rfl
  | b + 1 => by rw [table_succ, List.length_cons, length_table b]

theorem table_eq_cons (w : World α) (rates : List α) (b : Nat) :
    ∃ below, table w rates b = cellAt w rates b :: below := by
  cases b with
  | zero => exact ⟨[], rfl⟩
  | succ b => exact ⟨_, rfl⟩

theorem drop_table : ∀ {b r : Nat}, r ≤ b → (table w rates b).drop r = table w rates (b - r)
  | _, 0, _ => rfl
  | b + 1, r + 1, h => by
      rw [table_succ, List.drop_succ_cons, drop_table (Nat.le_of_succ_le_succ h),
        Nat.succ_sub_succ]

theorem getD_table {b r : Nat} (h : r ≤ b) (d : Cell α) :
    (table w rates b).getD r d = cellAt w rates (b - r) := by
  obtain ⟨below, hbelow⟩ := table_eq_cons w rates (b - r)
  have hget : (table w rates b)[r]? = some (cellAt w rates (b - r)) := by
    rw [← List.head?_drop, drop_table h, hbelow, List.head?_cons]
  rw [List.getD_eq_getElem?_getD, hget, Option.getD_some]

theorem value_table (b : Nat) :
    ((table w rates b).map Cell.value).reverse =
      (List.range (b + 1)).map fun i => (cellAt w rates i).value := by
  induction b with
  | zero => rfl
  | succ b ih =>
      rw [table_succ, List.map_cons, List.reverse_cons, ih, List.range_succ (n := b + 1),
        List.map_append, List.map_singleton]

theorem selects_improve (w : World α) (rates : List α) (below : List (Cell α)) :
    Selects (fun c d : Cell α => c.value < d.value) (candidate w rates below)
      (improve w rates below) where
  take _ _ h := if_pos h
  leave _ _ h := if_neg h

/-! ### Filled cells -/

/-- Values of a kind that running one more action leads to again, and that are all
below infinity. -/
structure Closed (w : World α) (rates : List α) (P : α → Prop) : Prop where
  one : P 1
  extend : ∀ a < w.nactions, ∀ v, P v → P ((1 - rateOf rates a) * v)
  lt_infinity : ∀ v, P v → v < infinity

theorem length_take_table (b : Nat) :
    ((table w rates b).take w.nbudgets).length = min w.nbudgets (b + 1) := by
  rw [List.length_take, length_table]

/-- The candidate on top of the first `b` cells, in terms of the cell it continues. -/
theorem candidate_table {b s r : Nat} (hr : r ≤ b) :
    candidate w rates (table w rates b) (s, r) =
      ⟨(1 - rateOf rates (w.index s r)) * (cellAt w rates (b - r)).value,
        some (w.index s r)⟩ := by
  simp only [candidate, extend, getD_table hr]

/-- A cell above the first one holds an action that fits into it, on top of the cell
that is left when its slots are taken away. -/
theorem cellAt_succ {P : α → Prop} (hw : w.check = .ok ()) (hP : Closed w rates P) (b : Nat) :
    P (cellAt w rates b).value ∧
      ∃ s r, s < w.nsolvers ∧ r < w.nbudgets ∧ r ≤ b ∧
        cellAt w rates (b + 1) =
          ⟨(1 - rateOf rates (w.index s r)) * (cellAt w rates (b - r)).value,
            some (w.index s r)⟩ := by
  induction b using Nat.strongRecOn with
  | ind b ih =>
      have hvalue : P (cellAt w rates b).value := by
        cases b with
        | zero => exact hP.one
        | succ b =>
            obtain ⟨_, s, r, hs, hr, hrb, heq⟩ := ih b (Nat.lt_succ_self b)
            rw [heq]
            exact hP.extend _ (World.index_lt_nactions hs hr) _
              (ih (b - r) (Nat.lt_succ_of_le (Nat.sub_le b r))).1
      have hpos : 0 < w.nbudgets := World.nbudgets_pos hw
      have hchoices : w.choices (min w.nbudgets (b + 1)) ≠ [] :=
        List.ne_nil_of_mem (World.mem_choices (s := 0) (r := 0) |>.mpr
          ⟨World.nsolvers_pos hw, by omega⟩)
      obtain ⟨c, cs, hcons⟩ := List.exists_cons_of_ne_nil hchoices
      have hmem : ∀ c' ∈ w.choices (min w.nbudgets (b + 1)),
          c'.1 < w.nsolvers ∧ c'.2 < w.nbudgets ∧ c'.2 ≤ b := by
        intro c' hc'
        have := World.mem_choices.mp hc'
        omega
      have hlt : (candidate w rates (table w rates b) c).value < (unfilled : Cell α).value := by
        obtain ⟨hs, hr, hrb⟩ := hmem c (by rw [hcons]; exact List.mem_cons_self ..)
        have hbelow : P (cellAt w rates (b - c.2)).value := by
          rcases Nat.eq_zero_or_pos c.2 with h0 | h0
          · rw [h0]; exact hvalue
          · exact (ih (b - c.2) (by omega)).1
        rw [candidate_table hrb]
        exact hP.lt_infinity _ (hP.extend _ (World.index_lt_nactions hs hr) _ hbelow)
      obtain ⟨c', hc', hnext⟩ := (selects_improve w rates _).foldl_of_better cs hlt
      rw [← hcons] at hc' hnext
      obtain ⟨hs, hr, hrb⟩ := hmem c' hc'
      refine ⟨hvalue, c'.1, c'.2, hs, hr, hrb, ?_⟩
      rw [cellAt, nextCell, length_take_table, hnext]
      exact candidate_table hrb

/-! ### Walking back -/

/-- The probability that all runs of a plan fail, taken from the end of the plan. -/
def failureOf (rates : List α) (plan : List Nat) : α :=
  plan.foldr (fun a v => (1 - rateOf rates a) * v) 1

/-- The walk back from cell `b` uses `b` slots, and its product is the cell's value. -/
theorem backtrack_table {P : α → Prop} (hw : w.check = .ok ()) (hP : Closed w rates P)
    (b : Nat) :
    (∀ a ∈ backtrack w (table w rates b), a < w.nactions) ∧
      ((backtrack w (table w rates b)).map w.slotUse).sum = b ∧
      (cellAt w rates b).value = failureOf rates (backtrack w (table w rates b)) := by
  induction b using Nat.strongRecOn with
  | ind b ih =>
      cases b with
      | zero =>
          have hnil : backtrack w (table w rates 0) = [] := by
            show backtrack w [emptyCell] = []
            rw [backtrack]
            rfl
          rw [hnil]
          exact ⟨fun _ ha => (List.not_mem_nil ha).elim, rfl, rfl⟩
      | succ b =>
          obtain ⟨_, s, r, hs, hr, hrb, heq⟩ := cellAt_succ hw hP b
          have hcons : backtrack w (table w rates (b + 1)) =
              w.index s r :: backtrack w (table w rates (b - r)) := by
            rw [table_succ, backtrack, heq]
            simp only [World.rungOf_index hr, drop_table hrb]
          obtain ⟨hmem, hsum, hval⟩ := ih (b - r) (Nat.lt_succ_of_le (Nat.sub_le b r))
          rw [hcons]
          refine ⟨fun a ha => ?_, ?_, ?_⟩
          · rcases List.mem_cons.mp ha with rfl | ha
            · exact World.index_lt_nactions hs hr
            · exact hmem a ha
          · rw [List.map_cons, List.sum_cons, hsum, World.slotUse_index hr]
            omega
          · rw [heq, failureOf, List.foldr_cons, ← failureOf, ← hval]

theorem byDensity_perm (w : World α) (rates : List α) (plan : List Nat) :
    (byDensity w rates plan).Perm plan :=
  List.mergeSort_perm plan _

/-! ### The best value -/

variable [IsStrictOrder α (· < ·)]

instance : IsStrictOrder (Cell α) fun c d => c.value < d.value where
  irrefl c := irrefl c.value
  trans c d e := IsTrans.trans c.value d.value e.value

/-- Whatever action is put on top of a cell it fits on, the cell above is no worse. -/
theorem not_extend_lt_cellAt (rates : List α) {b a : Nat} (ha : a < w.nactions)
    (hpos : 0 < w.nbudgets) (hfit : w.slotUse a ≤ b) :
    ¬(1 - rateOf rates a) * (cellAt w rates (b - w.slotUse a)).value <
      (cellAt w rates b).value := by
  obtain ⟨b, rfl⟩ : ∃ b', b = b' + 1 := ⟨b - 1, by rw [World.slotUse] at hfit; omega⟩
  have hrb : w.rungOf a ≤ b := Nat.le_of_succ_le_succ hfit
  obtain ⟨c, hc, hindex, hrung⟩ := World.choice_of_action (k := min w.nbudgets (b + 1)) ha
    (Nat.lt_min.mpr ⟨World.rungOf_lt hpos a, Nat.lt_succ_of_le hrb⟩)
  have hbest : ¬(candidate w rates (table w rates b) c).value <
      (nextCell w rates (table w rates b)).value := by
    rw [nextCell, length_take_table]
    exact (selects_improve w rates _).not_better_foldl _ _ c hc
  rw [candidate, extend, hindex, hrung, getD_table hrb] at hbest
  rwa [World.slotUse, Nat.succ_sub_succ]

end SolverPortfolio.Knapsack

namespace SolverPortfolio.Knapsack

/-!
## Knapsack plans

With probabilities for rates, the values of the table are probabilities, so no cell
stays unfilled and the plan uses up the slots of the budget.
-/

open Scalar Rounded

/-- Of two runs or more, one takes at most half of the slots. -/
theorem plan_cases {α : Type} {w : World α} {plan : List ℕ} {slots : ℕ}
    (h : (plan.map w.slotUse).sum = slots) :
    plan = [] ∧ slots = 0 ∨ (∃ a, plan = [a] ∧ w.slotUse a = slots) ∨
      ∃ a ∈ plan, 2 * w.slotUse a ≤ slots := by
  match plan, h with
  | [], h => exact Or.inl ⟨rfl, h.symm⟩
  | [a], h => exact Or.inr (Or.inl ⟨a, rfl, by simpa using h⟩)
  | a :: b :: rest, h =>
      simp only [List.map_cons, List.sum_cons] at h
      refine Or.inr (Or.inr ?_)
      rcases Nat.le_total (w.slotUse a) (w.slotUse b) with hle | hle
      · exact ⟨a, by simp, by omega⟩
      · exact ⟨b, by simp, by omega⟩

variable {α : Type} [Scalar α] [Rounded α] {w : World α} {rates : List α}

theorem closed_isProbability (h : ∀ a, IsProbability (rateOf rates a)) :
    Closed w rates IsProbability where
  one := isProbability_one
  extend := fun a _ _ hv => (h a).one_sub.mul hv
  lt_infinity := fun _ hv => hv.lt_infinity

/-- A plan is made of actions and uses up the slots of the budget, if there is a table for them. -/
theorem solve_uses_slots (hw : w.check = .ok ()) (hlen : rates.length = w.nactions)
    (hrates : ∀ a, IsProbability (rateOf rates a)) {remaining : α}
    (hr : IsBudget remaining) (htables : w.hasTables remaining = true) :
    ∃ s, solve w rates remaining = .ok s ∧ (∀ a ∈ s.plan, a < w.nactions) ∧
      (s.plan.map w.slotUse).sum = w.ladder.slotsWithin remaining := by
  rw [solve_eq (World.checkInputs_eq_ok hr hlen), if_pos htables]
  obtain ⟨hmem, huse, _⟩ :=
    backtrack_table hw (closed_isProbability hrates) (w.ladder.slotsWithin remaining)
  have hperm := byDensity_perm w rates
    (backtrack w (table w rates (w.ladder.slotsWithin remaining)))
  exact ⟨_, rfl, fun a ha => hmem a (hperm.mem_iff.mp ha),
    ((hperm.map w.slotUse).sum_eq).trans huse⟩

end SolverPortfolio.Knapsack

namespace SolverPortfolio

/-!
## The knapsack plan is optimal

In exact arithmetic every entry of the value table is the least probability of failure
over all multisets of runs that use no more slots than the entry stands for, and the
plan attains the last entry.

That the table fills every slot costs nothing: the empty multiset is beaten by any
filled cell, since values never exceed one. For the other multisets one run is taken
off (`cell_le_prod`, an induction over the multiset): the rest fits into the cell that
the run continues.
-/

/-- The runs are actions of the world and use at most this many slots. -/
def World.Fits {α : Type} (w : World α) (runs : Multiset ℕ) (slots : ℕ) : Prop :=
  (∀ a ∈ runs, a < w.nactions) ∧ (runs.map w.slotUse).sum ≤ slots

namespace Knapsack

/-- The probability that a run of an action fails. -/
def failure (rates : List ℝ) (a : ℕ) : ℝ := 1 - rates.getD a 0

variable {w : World Exact} {rates : List ℝ}

theorem one_sub_rateOf (rates : List ℝ) (a : ℕ) :
    1 - rateOf (rates.map Exact.real) a = .real (failure rates a) := by
  rw [rateOf_real, Exact.one_eq, Exact.real_sub, failure]

theorem failure_mem (h : ∀ r ∈ rates, 0 ≤ r ∧ r ≤ 1) (a : ℕ) :
    0 ≤ failure rates a ∧ failure rates a ≤ 1 := by
  have hrate := getD_mem_unit h a
  rw [failure]
  constructor <;> linarith [hrate.1, hrate.2]

theorem isProbability_rateOf (h : ∀ r ∈ rates, 0 ≤ r ∧ r ≤ 1) (a : ℕ) :
    Rounded.IsProbability (rateOf (rates.map Exact.real) a) :=
  ⟨_, (getD_mem_unit h a).1, (getD_mem_unit h a).2, rateOf_real rates a⟩

theorem failureOf_real (rates : List ℝ) (plan : List ℕ) :
    failureOf (rates.map Exact.real) plan = .real (plan.map (failure rates)).prod := by
  induction plan with
  | nil => exact Exact.one_eq
  | cons a plan ih =>
      rw [failureOf, List.foldr_cons, ← failureOf, ih, one_sub_rateOf, Exact.real_mul,
        List.map_cons, List.prod_cons]

/-! ### Cells as numbers -/

variable (hw : w.check = .ok ()) (hrates : ∀ r ∈ rates, 0 ≤ r ∧ r ≤ 1)

include hw hrates

theorem cell_real (b : ℕ) :
    ∃ v : ℝ, v ≤ 1 ∧ (cellAt w (rates.map Exact.real) b).value = .real v := by
  obtain ⟨v, _, h1, hv⟩ := (cellAt_succ hw (closed_isProbability (isProbability_rateOf hrates)) b).1
  exact ⟨v, h1, hv⟩

/-- No multiset of runs that fits has a lower probability of failure. -/
theorem cell_le_prod (runs : Multiset ℕ) :
    ∀ {b : ℕ} {v : ℝ}, w.Fits runs b → (cellAt w (rates.map Exact.real) b).value = .real v →
      v ≤ (runs.map (failure rates)).prod := by
  induction runs using Multiset.induction with
  | empty =>
      intro b v _ hv
      obtain ⟨v', h1, hv'⟩ := cell_real hw hrates b
      obtain rfl : v = v' := Exact.real.inj (hv.symm.trans hv')
      simpa using h1
  | cons a runs ih =>
      intro b v ⟨hmem, huse⟩ hv
      rw [Multiset.map_cons, Multiset.sum_cons] at huse
      obtain ⟨v', _, hv'⟩ := cell_real hw hrates (b - w.slotUse a)
      have hrest : v' ≤ (runs.map (failure rates)).prod :=
        ih ⟨fun x hx => hmem x (Multiset.mem_cons_of_mem hx), by omega⟩ hv'
      have hbest := not_extend_lt_cellAt (rates.map Exact.real)
        (hmem a (Multiset.mem_cons_self a runs)) (World.nbudgets_pos hw)
        (by omega : w.slotUse a ≤ b)
      rw [hv, hv', one_sub_rateOf, Exact.real_mul, Exact.real_lt, not_lt] at hbest
      rw [Multiset.map_cons, Multiset.prod_cons]
      exact hbest.trans (mul_le_mul_of_nonneg_left hrest (failure_mem hrates a).1)

/-- Every cell holds the least probability of failure of the runs that fit. -/
theorem cell_isLeast (b : ℕ) :
    ∃ v, (cellAt w (rates.map Exact.real) b).value = .real v ∧
      IsLeast {p | ∃ runs : Multiset ℕ, w.Fits runs b ∧
        p = (runs.map (failure rates)).prod} v := by
  obtain ⟨hmem, huse, hval⟩ := backtrack_table hw
    (closed_isProbability (isProbability_rateOf hrates)) b
  rw [failureOf_real] at hval
  refine ⟨_, hval, ⟨(backtrack w (table w (rates.map Exact.real) b) : Multiset ℕ), ?_, ?_⟩, ?_⟩
  · exact ⟨fun a ha => hmem a (Multiset.mem_coe.mp ha), by simpa using huse.le⟩
  · simp
  · rintro _ ⟨runs, hfits, rfl⟩
    exact cell_le_prod hw hrates runs hfits hval

omit hw hrates

/-! ### The densest first -/

theorem density_real (hw : w.check = .ok ()) (rates : List ℝ) (a : ℕ) :
    ∃ d : ℝ, density w (rates.map Exact.real) a = .real d := by
  obtain ⟨step, hpos, hstep⟩ := World.exists_step hw
  have hne : step * ((w.rungOf a + 1 : ℕ) : ℝ) ≠ 0 := by positivity
  exact ⟨_, by rw [density, rateOf_real, World.budget_real hstep, Exact.real_div _ hne]⟩

theorem pairwise_byDensity (hw : w.check = .ok ()) (rates : List ℝ) (plan : List ℕ) :
    (byDensity w (rates.map Exact.real) plan).Pairwise fun x y =>
      density w (rates.map Exact.real) y ≤ density w (rates.map Exact.real) x := by
  have htrans : ∀ x y z,
      Scalar.precedes (density w (rates.map Exact.real) y)
        (density w (rates.map Exact.real) x) = true →
      Scalar.precedes (density w (rates.map Exact.real) z)
        (density w (rates.map Exact.real) y) = true →
      Scalar.precedes (density w (rates.map Exact.real) z)
        (density w (rates.map Exact.real) x) = true :=
    fun _ _ _ h h' => Exact.precedes_trans h' h
  have hsorted := List.pairwise_mergeSort htrans (fun _ _ => Exact.precedes_total _ _) plan
  refine hsorted.imp fun {x y} h => ?_
  obtain ⟨dx, hx⟩ := density_real hw rates x
  obtain ⟨dy, hy⟩ := density_real hw rates y
  rw [hx, hy, Exact.precedes_real] at h
  rw [hx, hy, Exact.real_le]
  exact of_decide_eq_true h

/-! ### The solution -/

/-- What a table of exact values has in it: every entry is the least probability of failure
within its slots, and the plan uses all slots, attains the last entry and starts with the
densest actions. -/
structure IsOptimal (w : World Exact) (rates : List ℝ) (slots : ℕ) (s : Solution Exact) :
    Prop where
  length : s.value.length = slots + 1
  value : ∀ b ≤ slots, ∃ v, s.value[b]? = some (.real v) ∧
    IsLeast {p | ∃ runs : Multiset ℕ, w.Fits runs b ∧ p = (runs.map (failure rates)).prod} v
  actions : ∀ a ∈ s.plan, a < w.nactions
  use : (s.plan.map w.slotUse).sum = slots
  attains : s.value[slots]? = some (.real (s.plan.map (failure rates)).prod)
  densest : s.plan.Pairwise fun x y =>
    rateOf (rates.map .real) y / (w.action y).cost ≤
      rateOf (rates.map .real) x / (w.action x).cost

theorem isOptimal_solutionOf (hw : w.check = .ok ()) (hrates : ∀ r ∈ rates, 0 ≤ r ∧ r ≤ 1)
    (slots : ℕ) :
    IsOptimal w rates slots
      (solutionOf w (rates.map .real) (table w (rates.map .real) slots)) := by
  have hentry : ∀ b ≤ slots, ((table w (rates.map Exact.real) slots).map Cell.value).reverse[b]? =
      some (cellAt w (rates.map Exact.real) b).value := by
    intro b hb
    rw [value_table, List.getElem?_map, List.getElem?_range (Nat.lt_succ_of_le hb)]
    rfl
  have hperm := byDensity_perm w (rates.map Exact.real)
    (backtrack w (table w (rates.map Exact.real) slots))
  obtain ⟨hmem, huse, hval⟩ := backtrack_table hw
    (closed_isProbability (isProbability_rateOf hrates)) slots
  refine ⟨by simp [solutionOf], fun b hb => ?_, fun a ha => hmem a (hperm.mem_iff.mp ha), ?_, ?_,
    pairwise_byDensity hw rates _⟩
  · obtain ⟨v, hv, hleast⟩ := cell_isLeast hw hrates b
    exact ⟨v, by rw [solutionOf, hentry b hb, hv], hleast⟩
  · rw [solutionOf, (hperm.map w.slotUse).sum_eq, huse]
  · rw [solutionOf, hentry slots le_rfl, hval, failureOf_real,
      (hperm.map (failure rates)).prod_eq]

/-- **The knapsack plan is optimal.** Within the budgets whose tables have a size, the values are
the least probabilities of failure and the plan attains the last one. A budget with more slots is
not planned for. -/
theorem solve_isLeast (hw : w.check = .ok ()) (hlen : rates.length = w.nactions)
    (hrates : ∀ r ∈ rates, 0 ≤ r ∧ r ≤ 1) {remaining : ℝ} (hremaining : 0 ≤ remaining) :
    (w.ladder.slotsWithin (.real remaining) + 1 < Scalar.wordBound →
        ∃ s, solve w (rates.map .real) (.real remaining) = .ok s ∧
          IsOptimal w rates (w.ladder.slotsWithin (.real remaining)) s) ∧
      (Scalar.wordBound ≤ w.ladder.slotsWithin (.real remaining) + 1 →
        solve w (rates.map .real) (.real remaining) = .error .overflow) := by
  have hok : w.checkInputs (rates.map .real) (.real remaining) = .ok () :=
    World.checkInputs_eq_ok (Exact.isBudget_real hremaining) (by rw [List.length_map, hlen])
  rw [solve_eq hok]
  refine ⟨fun hsize => ?_, fun hsize => if_neg fun htables => ?_⟩
  · rw [if_pos (World.hasTables_iff.mpr hsize)]
    exact ⟨_, rfl, isOptimal_solutionOf hw hrates _⟩
  · exact (World.hasTables_iff.mp htables).not_ge hsize

theorem solve_isLeast_twoRungs :
    World.twoRungs.check = .ok () ∧
      ∃ s, solve World.twoRungs ([1 / 2, 3 / 4].map .real) (.real 20) = .ok s ∧
        IsOptimal World.twoRungs [1 / 2, 3 / 4] 2 s := by
  have h := solve_isLeast World.twoRungs_check (by rfl) World.twoRungs_rates_mem_unit
    (by norm_num : (0 : ℝ) ≤ 20)
  rw [World.twoRungs_slots] at h
  exact ⟨World.twoRungs_check, h.1 (by decide)⟩

end Knapsack

end SolverPortfolio

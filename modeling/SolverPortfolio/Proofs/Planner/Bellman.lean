import SolverPortfolio.Proofs.Planner
import SolverPortfolio.Proofs.World

/-!
# The Bellman planner

What the rows hold for any scalars, and that rows and plan are optimal in exact arithmetic.
-/

namespace SolverPortfolio.Bellman

/-!
## The Bellman table

What the rows hold, for any scalars. `cellAt w rates keep h b` is the cell for at most
`h` actions and `b` slots, built from the cells for one action less and fewer slots;
the row for `h` actions lists these cells downwards (`rows_succ`). A cell is idle or
holds an action that fits into it (`cellAt_succ_cases`), and no action that fits would
have done better (`not_cellAt_lt_worth`).

The row position an action leads to is the slot count it leaves, so following the rows
from `used` spent slots reads the cell for the rest (`getElem?_row`).
-/

open Scalar

variable {α : Type} [Analytic α] {w : World α} {rates : List α} {keep : α}

/-! ### Lists of cells, the newest slot in front -/

/-- The values of `f` below `n`, the last one first. -/
def downFrom {β : Type} (f : Nat → β) : Nat → List β
  | 0 => []
  | n + 1 => f n :: downFrom f n

section downFrom

variable {β : Type} (f : Nat → β)

@[simp] theorem length_downFrom : ∀ n, (downFrom f n).length = n
  | 0 => rfl
  | n + 1 => by rw [downFrom, List.length_cons, length_downFrom n]

theorem getElem?_downFrom : ∀ {n i : Nat}, i < n → (downFrom f n)[i]? = some (f (n - 1 - i))
  | n + 1, 0, _ => rfl
  | n + 1, i + 1, h => by
      rw [downFrom, List.getElem?_cons_succ, getElem?_downFrom (Nat.lt_of_succ_lt_succ h)]
      congr 2
      omega

/-- The cell at `used` is the one for the slots that are left. -/
theorem getElem?_row {slots used : Nat} (hused : used ≤ slots) :
    (downFrom f (slots + 1))[used]? = some (f (slots - used)) := by
  rw [getElem?_downFrom f (Nat.lt_succ_of_le hused), Nat.succ_sub_one]

theorem replicate_eq_downFrom (x : β) : ∀ n, List.replicate n x = downFrom (fun _ => x) n
  | 0 => rfl
  | n + 1 => by rw [List.replicate_succ, replicate_eq_downFrom x n, downFrom]

end downFrom

/-! ### Cells -/

/-- The cell for at most `h` actions and `b` slots. -/
def cellAt (w : World α) (rates : List α) (keep : α) : Nat → Nat → Cell α
  | 0, _ => idle
  | h + 1, b => bestCell w rates keep (downFrom (cellAt w rates keep h) b)

theorem nextRow_downFrom (f : Nat → Cell α) :
    ∀ n, nextRow w rates keep (downFrom f n) =
      downFrom (fun b => bestCell w rates keep (downFrom f b)) n
  | 0 => rfl
  | n + 1 => by rw [downFrom, nextRow, nextRow_downFrom f n, downFrom]

theorem rows_zero (slots : Nat) :
    rows w rates keep slots 0 = [downFrom (cellAt w rates keep 0) (slots + 1)] := by
  show [List.replicate (slots + 1) idle] = _
  rw [replicate_eq_downFrom]
  rfl

theorem rows_succ (slots : Nat) :
    ∀ h, rows w rates keep slots (h + 1) =
      downFrom (cellAt w rates keep (h + 1)) (slots + 1) :: rows w rates keep slots h := by
  intro h
  have hgrow : rows w rates keep slots (h + 1) =
      growRows w rates keep (rows w rates keep slots h) := rfl
  induction h with
  | zero => rw [hgrow, rows_zero, growRows, nextRow_downFrom]; rfl
  | succ h ih =>
      rw [hgrow, ih rfl, growRows, nextRow_downFrom]
      rfl

/-- The cell that running a solver's rung on top of the cells below makes. -/
def candidate (w : World α) (rates : List α) (keep : α) (below : List (Cell α))
    (choice : Nat × Nat) : Cell α :=
  ⟨worth w keep choice.2 (rateOf rates (w.index choice.1 choice.2))
    (below.getD choice.2 idle).value, some (w.index choice.1 choice.2)⟩

theorem selects_improve (w : World α) (rates : List α) (keep : α) (below : List (Cell α)) :
    Selects (fun c d : Cell α => d.value < c.value) (candidate w rates keep below)
      (improve w rates keep below) where
  take _ _ h := if_pos h
  leave _ _ h := if_neg h

theorem candidate_downFrom (f : Nat → Cell α) {b s r : Nat} (hr : r < b) :
    candidate w rates keep (downFrom f b) (s, r) =
      ⟨worth w keep r (rateOf rates (w.index s r)) (f (b - (r + 1))).value,
        some (w.index s r)⟩ := by
  have hsub : b - 1 - r = b - (r + 1) := by omega
  rw [candidate, List.getD_eq_getElem?_getD, getElem?_downFrom f hr, Option.getD_some, hsub]

theorem bestCell_downFrom (f : Nat → Cell α) (b : Nat) :
    bestCell w rates keep (downFrom f b) =
      (w.choices (min w.nbudgets b)).foldl (improve w rates keep (downFrom f b)) idle := by
  rw [bestCell, List.length_take, length_downFrom]

/-- A cell is idle or holds an action that fits, on top of the cell for one action less
and the slots that are left. -/
theorem cellAt_succ_cases (w : World α) (rates : List α) (keep : α) (h b : Nat) :
    cellAt w rates keep (h + 1) b = idle ∨
      ∃ a < w.nactions, w.slotUse a ≤ b ∧ cellAt w rates keep (h + 1) b =
        ⟨worth w keep (w.rungOf a) (rateOf rates a)
          (cellAt w rates keep h (b - w.slotUse a)).value, some a⟩ := by
  rw [cellAt, bestCell_downFrom]
  rcases (selects_improve w rates keep _).foldl_cases (w.choices (min w.nbudgets b)) idle with
    hidle | ⟨⟨s, r⟩, hc, heq⟩
  · exact Or.inl hidle
  · obtain ⟨hs, hr⟩ := World.mem_choices.mp hc
    have hrung : r < w.nbudgets := by omega
    refine Or.inr ⟨w.index s r, World.index_lt_nactions hs hrung, ?_, ?_⟩
    · rw [World.slotUse_index hrung]
      omega
    · rw [heq, candidate_downFrom _ (by omega), World.rungOf_index hrung,
        World.slotUse_index hrung]

/-! ### The best value -/

section order

variable [IsStrictOrder α (· < ·)]

instance : IsStrictOrder (Cell α) fun c d => d.value < c.value where
  irrefl c := irrefl c.value
  trans c d e h h' := IsTrans.trans e.value d.value c.value h' h

/-- Whatever action fits, starting with it is no better than the cell. -/
theorem not_cellAt_lt_worth (rates : List α) (keep : α) {h b a : Nat} (ha : a < w.nactions)
    (hpos : 0 < w.nbudgets) (hfit : w.slotUse a ≤ b) :
    ¬(cellAt w rates keep (h + 1) b).value <
      worth w keep (w.rungOf a) (rateOf rates a)
        (cellAt w rates keep h (b - w.slotUse a)).value := by
  have hrung : w.rungOf a < b := hfit
  obtain ⟨⟨s, r⟩, hc, hindex, hr⟩ := World.choice_of_action (k := min w.nbudgets b) ha
    (Nat.lt_min.mpr ⟨World.rungOf_lt hpos a, hrung⟩)
  have hbest := (selects_improve w rates keep
    (downFrom (cellAt w rates keep h) b)).not_better_foldl _ idle _ hc
  rw [← bestCell_downFrom, ← cellAt] at hbest
  simp only at hindex hr
  rwa [candidate_downFrom _ (by omega), hindex, hr] at hbest

end order

/-! ### Following the rows -/

theorem follow_rows_zero {slots used : Nat} (hused : used ≤ slots) :
    follow w (rows w rates keep slots 0) used = [] := by
  rw [rows_zero, follow, getElem?_row _ hused]
  rfl

theorem follow_rows_idle {slots used h : Nat} (hused : used ≤ slots)
    (hidle : cellAt w rates keep (h + 1) (slots - used) = idle) :
    follow w (rows w rates keep slots (h + 1)) used = [] := by
  rw [rows_succ, follow, getElem?_row _ hused, hidle]
  rfl

theorem follow_rows_action {slots used h a : Nat} {v : α} (hused : used ≤ slots)
    (hcell : cellAt w rates keep (h + 1) (slots - used) = ⟨v, some a⟩) :
    follow w (rows w rates keep slots (h + 1)) used =
      a :: follow w (rows w rates keep slots h) (used + w.slotUse a) := by
  rw [rows_succ, follow, getElem?_row _ hused, hcell]

/-- What is read off the rows stays within the actions and slots they were built for. -/
theorem follow_rows_admits {slots : Nat} :
    ∀ h {used : Nat}, used ≤ slots →
      w.Admits h (slots - used) (follow w (rows w rates keep slots h) used)
  | 0, used, hused => by
      rw [follow_rows_zero hused]
      exact .nil 0 _
  | h + 1, used, hused => by
      rcases cellAt_succ_cases w rates keep h (slots - used) with hidle | ⟨a, ha, hfit, hcell⟩
      · rw [follow_rows_idle hused hidle]
        exact .nil (h + 1) _
      · have hrest := follow_rows_admits h (by omega : used + w.slotUse a ≤ slots)
        rw [← Nat.sub_sub] at hrest
        rw [follow_rows_action hused hcell]
        exact hrest.cons ha hfit

theorem planIndices_admits {discount remaining : α} {horizon : Nat} {plan : List Nat}
    (h : planIndices w rates remaining discount horizon = .ok plan) :
    w.Admits horizon (w.ladder.slotsWithin remaining) plan := by
  obtain ⟨-, -, rfl⟩ := of_planIndices h
  exact follow_rows_admits horizon (Nat.zero_le _)

end SolverPortfolio.Bellman

namespace SolverPortfolio

/-!
## The Bellman plan is optimal

In exact arithmetic the plan has the greatest discounted utility of all sequences of at
most `horizon` actions within the slots of the budget.

Both halves are inductions over the number of actions. No sequence is worth more than
the cell for its length and slots, since what its tail is worth enters its utility
monotonically (`utility_le_cell`); and the sequence read off the rows is worth what the
cell says (`follow_rows_attains`).
-/

namespace Bellman

/-- Discounted utility of a sequence of actions: the share that the first cost leaves,
of the chance that it succeeds and, if not, of what the others are worth. -/
noncomputable def utility (w : World Exact) (rates : List ℝ) (discount : ℝ) : List ℕ → ℝ
  | [] => 0
  | a :: rest => (1 - discount) ^ (w.action a).cost.toReal *
      (rates.getD a 0 + (1 - rates.getD a 0) * utility w rates discount rest)

/-- The cell as a number. -/
def HoldsValue (c : Cell Exact) (v : ℝ) : Prop := 0 ≤ v ∧ c.value = .real v

variable {w : World Exact} {rates : List ℝ} {discount : ℝ}

theorem worth_real (hw : w.check = .ok ()) (hdiscount : discount < 1) (a : ℕ) (v : ℝ) :
    worth w (.real (1 - discount)) (w.rungOf a) (rateOf (rates.map .real) a) (.real v) =
      .real ((1 - discount) ^ (w.action a).cost.toReal *
        (rates.getD a 0 + (1 - rates.getD a 0) * v)) := by
  obtain ⟨step, _, hstep⟩ := World.exists_step hw
  have hcost : (w.action a).cost = w.ladder.budget (w.rungOf a) := rfl
  rw [worth, hcost, World.budget_real hstep, Exact.pow_real (sub_pos.mpr hdiscount),
    rateOf_real, Exact.one_eq]
  rfl

/-- What the first action makes of what the others are worth. -/
theorem backup_nonneg (hrates : ∀ r ∈ rates, 0 ≤ r ∧ r ≤ 1) (hdiscount : discount < 1)
    (a : ℕ) (c : ℝ) {v : ℝ} (hv : 0 ≤ v) :
    0 ≤ (1 - discount) ^ c * (rates.getD a 0 + (1 - rates.getD a 0) * v) := by
  obtain ⟨h0, h1⟩ := getD_mem_unit hrates a
  have hrest : 0 ≤ (1 - rates.getD a 0) * v := mul_nonneg (sub_nonneg.mpr h1) hv
  exact mul_nonneg (Real.rpow_nonneg (sub_pos.mpr hdiscount).le c) (add_nonneg h0 hrest)

theorem backup_mono (hrates : ∀ r ∈ rates, 0 ≤ r ∧ r ≤ 1) (hdiscount : discount < 1)
    (a : ℕ) (c : ℝ) {u v : ℝ} (huv : u ≤ v) :
    (1 - discount) ^ c * (rates.getD a 0 + (1 - rates.getD a 0) * u) ≤
      (1 - discount) ^ c * (rates.getD a 0 + (1 - rates.getD a 0) * v) := by
  obtain ⟨_, h1⟩ := getD_mem_unit hrates a
  have hrest := mul_le_mul_of_nonneg_left huv (sub_nonneg.mpr h1)
  exact mul_le_mul_of_nonneg_left (by linarith)
    (Real.rpow_nonneg (sub_pos.mpr hdiscount).le c)

variable (hw : w.check = .ok ()) (hrates : ∀ r ∈ rates, 0 ≤ r ∧ r ≤ 1)
  (hdiscount : discount < 1)

include hw hrates hdiscount

theorem exists_holdsValue : ∀ h b : ℕ,
    ∃ v, HoldsValue (cellAt w (rates.map .real) (.real (1 - discount)) h b) v
  | 0, _ => ⟨0, le_rfl, Exact.zero_eq⟩
  | h + 1, b => by
      rcases cellAt_succ_cases w (rates.map .real) (.real (1 - discount)) h b with
        hidle | ⟨a, _, _, hcell⟩
      · exact ⟨0, le_rfl, by rw [hidle]; exact Exact.zero_eq⟩
      · obtain ⟨v, hv, hvalue⟩ := exists_holdsValue h (b - w.slotUse a)
        rw [hvalue, worth_real hw hdiscount] at hcell
        exact ⟨_, backup_nonneg hrates hdiscount a _ hv, by rw [hcell]⟩

/-- No sequence is worth more than the cell for its length and slots. -/
theorem utility_le_cell (runs : List ℕ) :
    ∀ {h b : ℕ} {v : ℝ}, w.Admits h b runs →
      HoldsValue (cellAt w (rates.map .real) (.real (1 - discount)) h b) v →
      utility w rates discount runs ≤ v := by
  induction runs with
  | nil => exact fun _ hv => hv.1
  | cons a rest ih =>
      intro h b v hruns hv
      have huse := hruns.slots
      rw [List.map_cons, List.sum_cons] at huse
      obtain ⟨h, rfl⟩ : ∃ h', h = h' + 1 :=
        ⟨h - 1, (Nat.succ_pred_eq_of_pos
          (Nat.lt_of_lt_of_le (Nat.succ_pos _) hruns.length)).symm⟩
      have hrest : w.Admits h (b - w.slotUse a) rest :=
        ⟨fun x hx => hruns.actions x (List.mem_cons_of_mem a hx),
          Nat.le_of_succ_le_succ hruns.length, by omega⟩
      obtain ⟨u, hu⟩ := exists_holdsValue hw hrates hdiscount h (b - w.slotUse a)
      have hbest := not_cellAt_lt_worth (rates.map .real) (.real (1 - discount)) (h := h)
        (hruns.actions a (List.mem_cons_self ..)) (World.nbudgets_pos hw)
        (by omega : w.slotUse a ≤ b)
      rw [hv.2, hu.2, worth_real hw hdiscount, Exact.real_lt, not_lt] at hbest
      exact (backup_mono hrates hdiscount a _ (ih hrest hu)).trans hbest

/-- The sequence read off the rows is worth what the cell it starts from says. -/
theorem follow_rows_attains (slots : ℕ) :
    ∀ (h : ℕ) {used : ℕ}, used ≤ slots →
      HoldsValue (cellAt w (rates.map .real) (.real (1 - discount)) h (slots - used))
        (utility w rates discount
          (follow w (rows w (rates.map .real) (.real (1 - discount)) slots h) used))
  | 0, used, hused => by
      rw [follow_rows_zero hused]
      exact ⟨le_rfl, Exact.zero_eq⟩
  | h + 1, used, hused => by
      rcases cellAt_succ_cases w (rates.map .real) (.real (1 - discount)) h
        (slots - used) with hidle | ⟨a, _, hfit, hcell⟩
      · rw [follow_rows_idle hused hidle, hidle]
        exact ⟨le_rfl, Exact.zero_eq⟩
      · have hvalue := follow_rows_attains slots h (by omega : used + w.slotUse a ≤ slots)
        rw [follow_rows_action hused hcell, hcell, Nat.sub_sub, hvalue.2,
          worth_real hw hdiscount]
        exact ⟨backup_nonneg hrates hdiscount a _ hvalue.1, rfl⟩

omit hw hrates hdiscount

/-! ### The plan -/

/-- **The Bellman plan is optimal.** Where its rows have sizes, the plan has at most `horizon`
actions, stays within the slots of the budget and has the greatest utility of all such sequences.
A budget with more slots or a longer horizon is not planned for. -/
theorem planIndices_isGreatest (hw : w.check = .ok ()) (hlen : rates.length = w.nactions)
    (hrates : ∀ r ∈ rates, 0 ≤ r ∧ r ≤ 1) (hdiscount : 0 ≤ discount ∧ discount < 1)
    (horizon : ℕ) {remaining : ℝ} (hremaining : 0 ≤ remaining) :
    (w.ladder.slotsWithin (.real remaining) + 1 < Scalar.wordBound ∧
          horizon + 1 < Scalar.wordBound →
        ∃ plan, planIndices w (rates.map .real) (.real remaining) (.real discount) horizon =
            .ok plan ∧
          w.Admits horizon (w.ladder.slotsWithin (.real remaining)) plan ∧
          IsGreatest {u | ∃ runs,
            w.Admits horizon (w.ladder.slotsWithin (.real remaining)) runs ∧
              u = utility w rates discount runs} (utility w rates discount plan)) ∧
      (Scalar.wordBound ≤ w.ladder.slotsWithin (.real remaining) + 1 ∨
          Scalar.wordBound ≤ horizon + 1 →
        planIndices w (rates.map .real) (.real remaining) (.real discount) horizon =
          .error .overflow) := by
  have hok : w.checkInputs (rates.map .real) (.real remaining) = .ok () :=
    World.checkInputs_eq_ok (Exact.isBudget_real hremaining) (by rw [List.length_map, hlen])
  rw [planIndices_eq hok, Exact.one_eq, Exact.real_sub]
  refine ⟨fun hsize => ?_, fun hsize => if_neg fun hrows => ?_⟩
  · rw [if_pos (hasRows_iff.mpr hsize)]
    refine ⟨_, rfl, ?_⟩
    generalize w.ladder.slotsWithin (.real remaining) = slots
    have hadmits : w.Admits horizon slots
        (follow w (rows w (rates.map .real) (.real (1 - discount)) slots horizon) 0) :=
      follow_rows_admits horizon (Nat.zero_le slots)
    have hvalue := follow_rows_attains hw hrates hdiscount.2 slots horizon (Nat.zero_le slots)
    refine ⟨hadmits, ⟨_, hadmits, rfl⟩, ?_⟩
    rintro _ ⟨runs, hruns, rfl⟩
    exact utility_le_cell hw hrates hdiscount.2 runs hruns hvalue
  · obtain ⟨htables, hhorizon⟩ := hasRows_iff.mp hrows
    exact hsize.elim htables.not_ge hhorizon.not_ge

theorem planIndices_isGreatest_twoRungs :
    World.twoRungs.check = .ok () ∧
      ∃ plan, planIndices World.twoRungs ([1 / 2, 3 / 4].map .real) (.real 20)
          (.real (1 / 10)) 3 = .ok plan ∧
        World.twoRungs.Admits 3 2 plan ∧
        IsGreatest {u | ∃ runs, World.twoRungs.Admits 3 2 runs ∧
          u = utility World.twoRungs [1 / 2, 3 / 4] (1 / 10) runs}
          (utility World.twoRungs [1 / 2, 3 / 4] (1 / 10) plan) := by
  have h := planIndices_isGreatest World.twoRungs_check (by rfl) World.twoRungs_rates_mem_unit
    (by norm_num : (0 : ℝ) ≤ 1 / 10 ∧ (1 / 10 : ℝ) < 1) 3 (by norm_num : (0 : ℝ) ≤ 20)
  rw [World.twoRungs_slots] at h
  exact ⟨World.twoRungs_check, h.1 (by decide)⟩

end Bellman

end SolverPortfolio

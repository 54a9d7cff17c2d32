import SolverPortfolio.Proofs.Ladder
import SolverPortfolio.Proofs.Scalar.Rounded
import SolverPortfolio.Proofs.Scalar.RoundedDouble

/-!
# Building ladders

A ladder is given by its step and its size, and then only these are checked, or by its ceilings,
and then each of them is compared with a multiple of the first. What is accepted is the same either
way (`Accepted.isSound`).

The ceilings of a ladder are positive and never descend (`budget_mono`), because rounding is
monotone. They are finite when the highest one is, and exactly then the ladder can be built from
them again (`ofBudgets_budgets`).
-/

namespace SolverPortfolio.Ladder

open Scalar Rounded

/-! ## Checks -/

section

variable {α : Type} [Scalar α] {l : Ladder α} {bs : List α}

theorem check_eq_ok_iff : l.check = .ok () ↔ l.isSound = true := by
  unfold check
  split
  · rename_i h
    exact iff_of_true rfl h
  · rename_i h
    exact iff_of_false nofun h

theorem isSound_iff : l.isSound = true ↔ isPositiveFinite l.step = true ∧ 0 < l.size := by
  simp [isSound, Nat.pos_iff_ne_zero]

theorem allStand_iff {step : α} {rung : ℕ} : allStand step rung bs = true ↔
    ∀ i b, bs[i]? = some b → standsOn step b (rung + i) = true := by
  induction bs generalizing rung with
  | nil => simp [allStand]
  | cons b bs ih =>
      rw [allStand, Bool.and_eq_true, ih]
      constructor
      · rintro ⟨hfirst, hrest⟩ i c hc
        cases i with
        | zero =>
            obtain rfl := Option.some.inj hc
            exact hfirst
        | succ i =>
            rw [← Nat.add_assoc, Nat.add_right_comm]
            exact hrest i c hc
      · intro h
        refine ⟨h 0 b rfl, fun i c hc => ?_⟩
        rw [Nat.add_right_comm, Nat.add_assoc]
        exact h (i + 1) c hc

theorem getElem?_budgets {b : α} {i : ℕ} :
    l.budgets[i]? = some b ↔ i < l.size ∧ l.budget i = b := by
  simp [budgets, List.getElem?_eq_some_iff]

/-- What it takes for ceilings to make a ladder. -/
theorem ofBudgets_eq_ok_iff : ofBudgets bs = .ok l ↔
    bs.head? = some l.step ∧ bs.length = l.size ∧ isPositiveFinite l.step = true ∧
      ∀ i b, bs[i]? = some b → standsOn l.step b i = true := by
  obtain ⟨step, size⟩ := l
  cases bs with
  | nil => simp [ofBudgets]
  | cons first rest =>
      have hstand : allStand first 0 (first :: rest) = true ↔
          ∀ i b, (first :: rest)[i]? = some b → standsOn first b i = true := by
        rw [allStand_iff]
        simp only [Nat.zero_add]
      rw [ofBudgets]
      constructor
      · intro h
        by_cases hcond : (isPositiveFinite first && allStand first 0 (first :: rest)) = true
        · rw [if_pos hcond] at h
          obtain ⟨rfl, rfl⟩ := (mk.injEq ..).mp (Except.ok.inj h)
          rw [Bool.and_eq_true] at hcond
          exact ⟨rfl, rfl, hcond.1, hstand.mp hcond.2⟩
        · rw [if_neg hcond] at h
          cases h
      · rintro ⟨hhead, hlength, hstep, hall⟩
        obtain rfl : first = step := Option.some.inj hhead
        obtain rfl : (first :: rest).length = size := hlength
        exact if_pos (Bool.and_eq_true_iff.mpr ⟨hstep, hstand.mpr hall⟩)

/-- Ceilings that make no ladder are reported as they are. -/
theorem ofBudgets_eq_error (h : ∀ l, ofBudgets bs ≠ .ok l) :
    ofBudgets bs = .error (.invalidLadder bs) := by
  cases bs with
  | nil => rfl
  | cons first rest =>
      rw [ofBudgets] at h ⊢
      split
      · rename_i hstand
        rw [if_pos hstand] at h
        exact absurd rfl (h _)
      · rfl

/-- The three ways to get a ladder: from step and size, read from a document, from ceilings. -/
inductive Accepted : Ladder α → Prop
  | uniform {step : α} {size : ℕ} {l : Ladder α} (built : Ladder.uniform step size = .ok l) :
      Accepted l
  | decoded {l : Ladder α} (checked : l.check = .ok ()) : Accepted l
  | ofBudgets {bs : List α} {l : Ladder α} (built : Ladder.ofBudgets bs = .ok l) : Accepted l

theorem Accepted.isSound (h : l.Accepted) : l.isSound = true := by
  cases h with
  | @uniform step size _ built =>
      rw [Ladder.uniform] at built
      cases hchecked : check ⟨step, size⟩ with
      | error e =>
          rw [hchecked] at built
          cases built
      | ok _ =>
          rw [hchecked] at built
          obtain rfl := Except.ok.inj built
          exact check_eq_ok_iff.mp hchecked
  | decoded checked => exact check_eq_ok_iff.mp checked
  | ofBudgets built =>
      obtain ⟨hhead, hlength, hstep, _⟩ := ofBudgets_eq_ok_iff.mp built
      refine isSound_iff.mpr ⟨hstep, ?_⟩
      rw [← hlength]
      exact List.length_pos_of_mem (List.mem_of_mem_head? hhead)

end

/-! ## Ceilings -/

section

variable {α : Type} [Scalar α] [Rounded α] {l : Ladder α} {i j : ℕ}

/-- No ceiling overflows. -/
def IsFinite (l : Ladder α) : Prop := isFinite (l.budget (l.size - 1)) = true

theorem exists_step_value (h : l.isSound = true) :
    ∃ step : ℝ, 0 < step ∧ value l.step = .real step :=
  isPositiveFinite_iff.mp (isSound_iff.mp h).1

theorem value_budget (l : Ladder α) (i : ℕ) :
    value (l.budget i) = (value l.step * nearest α (i + 1 : ℕ)).rounded (nearest α) := by
  rw [budget, value_mul, value_ofNat]

theorem budget_pos (h : l.isSound = true) (i : ℕ) : 0 < l.budget i := by
  obtain ⟨step, hpos, hstep⟩ := exists_step_value h
  have hle := step_le_budget hstep hpos i
  rw [lt_iff, value_zero]
  refine ⟨Exact.noConfusion, hle.2.1, lt_of_lt_of_le ?_ hle.2.2⟩
  exact EReal.coe_lt_coe_iff.mpr hpos

theorem budget_mono (h : l.isSound = true) (hij : i ≤ j) : l.budget i ≤ l.budget j := by
  obtain ⟨step, hpos, hstep⟩ := exists_step_value h
  have hcast : ((i + 1 : ℕ) : ℝ) ≤ (j + 1 : ℕ) := by exact_mod_cast Nat.succ_le_succ hij
  have hnonneg : Exact.real 0 ≤ nearest α ((i + 1 : ℕ) : ℝ) := by
    rw [← nearest_zero α]
    exact nearest_mono (Nat.cast_nonneg _)
  rw [le_iff, value_budget, value_budget, hstep]
  exact Exact.rounded_mono (Exact.mul_le_mul_left hpos hnonneg (nearest_mono hcast))

theorem isFinite_budget (h : l.isSound = true) (hij : i ≤ j)
    (hj : isFinite (l.budget j) = true) : isFinite (l.budget i) = true := by
  obtain ⟨step, hpos, hstep⟩ := exists_step_value h
  obtain ⟨y, hy⟩ := isFinite_iff.mp hj
  have hle := (le_iff _ _).mp (budget_mono h hij)
  rw [hy] at hle
  obtain ⟨x, hx, _⟩ := Exact.eq_real_of_between (step_le_budget hstep hpos i) hle
  exact isFinite_iff.mpr ⟨x, hx⟩

/-- The highest ceiling decides. -/
theorem isFinite_iff_forall (h : l.isSound = true) :
    l.IsFinite ↔ ∀ b ∈ l.budgets, isFinite b = true := by
  have hsize := (isSound_iff.mp h).2
  constructor
  · intro htop b hb
    obtain ⟨i, hi, rfl⟩ := List.mem_map.mp hb
    rw [List.mem_range] at hi
    exact isFinite_budget h (by omega) htop
  · intro hall
    exact hall _ (List.mem_map_of_mem (List.mem_range.mpr (by omega)))

/-! ## Standing on a rung -/

theorem value_abs {a : α} {x : ℝ} (ha : value a = .real x) : value (Scalar.abs a) = .real |x| := by
  unfold Scalar.abs
  split
  · rename_i hneg
    rw [lt_iff, ha, value_zero, Exact.real_lt] at hneg
    rw [value_neg, ha, Exact.real_neg, abs_of_neg hneg]
  · rename_i hnonneg
    rw [lt_iff, ha, value_zero, Exact.real_lt, not_lt] at hnonneg
    rw [ha, abs_of_nonneg hnonneg]

/-- What a ceiling may be off by. -/
theorem value_slack {e : α} {x : ℝ} (he : value e = .real x) : ∃ t : ℝ, 0 < t ∧
    value (tolerance : α) = .real t ∧ value (tolerance * e) = nearest α (t * x) := by
  obtain ⟨t, ht, hlow, _⟩ := tolerance_near (α := α)
  refine ⟨t, lt_of_lt_of_le (by norm_num) hlow, ht, ?_⟩
  rw [value_mul, ht, he, Exact.real_mul]
  rfl

/-- A number stands on the rung whose ceiling it is. -/
theorem standsOn_of_value_eq {step b : α} {x : ℝ} (hb : value b = .real x) (hx : 0 ≤ x)
    (he : value (step * ofNat (i + 1)) = .real x) : standsOn step b i = true := by
  obtain ⟨t, ht, _, hslack⟩ := value_slack he
  have hdistance : value (Scalar.abs (b - step * ofNat (i + 1))) = .real |0| := by
    refine value_abs ?_
    rw [value_sub, hb, he, Exact.real_sub, sub_self]
    exact nearest_zero α
  have hwithin : ¬tolerance * (step * ofNat (i + 1)) <
      Scalar.abs (b - step * ofNat (i + 1)) := by
    rw [lt_iff, hdistance, hslack, abs_zero, ← nearest_zero α,
      Exact.not_lt_iff (nearest_ne_nan α _) (nearest_ne_nan α _)]
    exact nearest_mono (mul_nonneg ht.le hx)
  rw [standsOn, Bool.and_eq_true, Bool.not_eq_true', decide_eq_false_iff_not]
  exact ⟨isFinite_iff.mpr ⟨x, hb⟩, hwithin⟩

/-- Any number stands on a rung whose ceiling overflows. -/
theorem standsOn_of_overflow {step b : α} (hb : isFinite b = true)
    (he : value (step * ofNat (i + 1)) = .posInf) : standsOn step b i = true := by
  obtain ⟨x, hx⟩ := isFinite_iff.mp hb
  have hdifference : value (b - step * ofNat (i + 1)) = .negInf := by
    rw [value_sub, hx, he]
    rfl
  have hbelow : b - step * ofNat (i + 1) < 0 := by
    rw [lt_iff, hdifference, value_zero]
    exact ⟨Exact.noConfusion, Exact.noConfusion, EReal.bot_lt_coe 0⟩
  have hdistance : value (Scalar.abs (b - step * ofNat (i + 1))) = .posInf := by
    rw [Scalar.abs, if_pos hbelow, value_neg, hdifference]
    rfl
  obtain ⟨t, ht, hlow, _⟩ := tolerance_near (α := α)
  have hslack : value (tolerance * (step * ofNat (i + 1))) = .posInf := by
    have hpos : 0 < t := lt_of_lt_of_le (by norm_num) hlow
    rw [value_mul, ht, he]
    show (Exact.infinite (SignType.sign t * 1)).rounded _ = _
    rw [sign_pos hpos]
    rfl
  have hwithin : ¬tolerance * (step * ofNat (i + 1)) <
      Scalar.abs (b - step * ofNat (i + 1)) := by
    rw [lt_iff, hdistance, hslack]
    exact Exact.not_posInf_lt _
  rw [standsOn, Bool.and_eq_true, Bool.not_eq_true', decide_eq_false_iff_not]
  exact ⟨hb, hwithin⟩

theorem value_abs_ne_nan {a : α} (h : value a ≠ .nan) : value (Scalar.abs a) ≠ .nan := by
  unfold Scalar.abs
  split
  · rw [value_neg]
    intro hneg
    rw [← Exact.neg_neg (value a), hneg] at h
    exact h rfl
  · exact h

/-- What stands on a rung is within the tolerance of its ceiling. -/
theorem abs_sub_budget_le {b : α} (hstand : standsOn l.step b i = true)
    (hfinite : isFinite (l.budget i) = true) :
    Scalar.abs (b - l.budget i) ≤ tolerance * l.budget i := by
  rw [standsOn, Bool.and_eq_true, Bool.not_eq_true', decide_eq_false_iff_not] at hstand
  obtain ⟨x, hx⟩ := isFinite_iff.mp hstand.1
  obtain ⟨e, he⟩ := isFinite_iff.mp hfinite
  obtain ⟨t, _, _, hslack⟩ := value_slack he
  have hdistance : value (Scalar.abs (b - l.budget i)) ≠ .nan := by
    refine value_abs_ne_nan ?_
    rw [value_sub, hx, he, Exact.real_sub]
    exact nearest_ne_nan α _
  rw [le_iff, ← Exact.not_lt_iff (hslack ▸ nearest_ne_nan α _) hdistance, ← lt_iff]
  exact hstand.2

/-! ## Building a ladder from its ceilings -/

theorem value_budget_zero (h : l.isSound = true) : value (l.budget 0) = value l.step := by
  obtain ⟨step, _, hstep⟩ := exists_step_value h
  rw [value_budget, Nat.zero_add, Nat.cast_one, nearest_one, hstep, Exact.real_mul, mul_one]
  exact nearest_of_value hstep

/-- A ladder without overflow is built from its ceilings again. -/
theorem ofBudgets_budgets (h : l.isSound = true) (hfinite : l.IsFinite) :
    ofBudgets l.budgets = .ok ⟨l.budget 0, l.size⟩ := by
  have hsize := (isSound_iff.mp h).2
  have hall := (isFinite_iff_forall h).mp hfinite
  have hstep : value (l.budget 0) = value l.step := value_budget_zero h
  refine ofBudgets_eq_ok_iff.mpr ⟨?_, by simp [budgets], ?_, ?_⟩
  · rw [List.head?_eq_getElem?]
    exact getElem?_budgets.mpr ⟨hsize, rfl⟩
  · rw [isPositiveFinite_iff, hstep]
    exact exists_step_value h
  · intro i b hb
    obtain ⟨hi, rfl⟩ := getElem?_budgets.mp hb
    obtain ⟨x, hx⟩ := isFinite_iff.mp (hall _ (List.mem_of_getElem? hb))
    have hx0 : 0 ≤ x := by
      have hpos := budget_pos h i
      rw [lt_iff, value_zero, hx, Exact.real_lt] at hpos
      exact hpos.le
    refine standsOn_of_value_eq hx hx0 ?_
    rw [value_mul, value_ofNat, hstep, ← value_budget, hx]

/-- Ceilings that overflow make no ladder. -/
theorem ofBudgets_of_overflow (h : l.isSound = true) (hover : ¬l.IsFinite) :
    ofBudgets l.budgets = .error (.invalidLadder l.budgets) := by
  refine ofBudgets_eq_error fun l' hl' => hover ?_
  obtain ⟨_, _, _, hall⟩ := ofBudgets_eq_ok_iff.mp hl'
  rw [isFinite_iff_forall h]
  intro b hb
  obtain ⟨i, hi⟩ := List.getElem?_of_mem hb
  have hstand := hall i b hi
  rw [standsOn, Bool.and_eq_true] at hstand
  exact hstand.1

/-- Where a ceiling overflows, any number makes the same ladder. -/
theorem ofBudgets_set {bs : List α} (h : ofBudgets bs = .ok l)
    (hover : isFinite (l.budget i) = false) {b : α} (hb : isFinite b = true) :
    ofBudgets (bs.set i b) = .ok l := by
  obtain ⟨hhead, hlength, hstep, hall⟩ := ofBudgets_eq_ok_iff.mp h
  have hsound : l.isSound = true := (Accepted.ofBudgets h).isSound
  obtain ⟨step, hpos, hvalue⟩ := exists_step_value hsound
  have hinfinite : value (l.budget i) = .posInf := by
    rcases Exact.eq_real_or_posInf (step_le_budget hvalue hpos i) with ⟨x, hx, _⟩ | hinf
    · rw [isFinite_iff.mpr ⟨x, hx⟩] at hover
      cases hover
    · exact hinf
  have hne : i ≠ 0 := by
    rintro rfl
    rw [value_budget_zero hsound, hvalue] at hinfinite
    cases hinfinite
  refine ofBudgets_eq_ok_iff.mpr ⟨?_, by rw [List.length_set, hlength], hstep, ?_⟩
  · rw [List.head?_eq_getElem?, List.getElem?_set_ne hne, ← List.head?_eq_getElem?, hhead]
  · intro j c hc
    rcases eq_or_ne i j with rfl | hij
    · rw [List.getElem?_set_self'] at hc
      obtain ⟨_, _, rfl⟩ := Option.map_eq_some_iff.mp hc
      exact standsOn_of_overflow hb hinfinite
    · rw [List.getElem?_set_ne hij] at hc
      exact hall j c hc

end

end SolverPortfolio.Ladder

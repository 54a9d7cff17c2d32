import Mathlib.Logic.Function.Basic
import SolverPortfolio.Proofs.Bounds.Planner

/-!
# Arithmetic on machine words

Counts and indices are natural numbers here and machine words where the library runs. The two
differ where a result is not a word: a sum or a product of `wordBound` or more, a difference below
zero. `word?` and `minus?` have no result there, and neither have the counterparts here of what the
planners do with indices.

The planners fill arrays place by place. An array that holds the values of a function (`tabulate`)
holds those of an updated function after one place is set (`set?_tabulate`), so what loops do to
arrays is said of functions.
-/

namespace SolverPortfolio

open Scalar (wordBound)

/-! ## Words -/

theorem word?_eq_some {n : ℕ} (h : n < wordBound) : word? n = some n := if_pos h

theorem word?_eq_none {n : ℕ} (h : ¬n < wordBound) : word? n = none := if_neg h

theorem minus?_eq_some {x y : ℕ} (h : y ≤ x) : minus? x y = some (x - y) := if_pos h

theorem minus?_eq_none {x y : ℕ} (h : x < y) : minus? x y = none := if_neg (Nat.not_le.mpr h)

theorem add_eq_of_minus? {x y d : ℕ} (h : minus? x y = some d) : d + y = x := by
  unfold minus? at h
  split at h
  · rename_i hle
    obtain rfl := Option.some.inj h
    exact Nat.sub_add_cancel hle
  · cases h

theorem eq_of_word? {n m : ℕ} (h : word? n = some m) : m = n := by
  unfold word? at h
  split at h
  · exact (Option.some.inj h).symm
  · cases h

/-! ## Arrays -/

section

variable {β : Type} {f g : ℕ → β} {n i : ℕ}

/-- The array with another entry in a place, if it has the place. -/
def set? (xs : List β) (i : ℕ) (x : β) : Option (List β) :=
  if i < xs.length then some (xs.set i x) else none

/-- The first `n` values of a function. -/
def tabulate (f : ℕ → β) (n : ℕ) : List β := (List.range n).map f

@[simp] theorem length_tabulate (f : ℕ → β) (n : ℕ) : (tabulate f n).length = n := by
  simp [tabulate]

theorem getElem?_tabulate (h : i < n) : (tabulate f n)[i]? = some (f i) := by
  simp [tabulate, h]

theorem tabulate_congr (h : ∀ i < n, f i = g i) : tabulate f n = tabulate g n :=
  List.map_congr_left fun i hi => h i (List.mem_range.mp hi)

theorem replicate_eq_tabulate (x : β) (n : ℕ) : List.replicate n x = tabulate (fun _ => x) n := by
  simp [tabulate]

theorem set?_tabulate (h : i < n) (x : β) :
    set? (tabulate f n) i x = some (tabulate (Function.update f i x) n) := by
  rw [set?, length_tabulate, if_pos h, Option.some_inj]
  refine List.ext_getElem (by simp) fun j hj _ => ?_
  rw [List.getElem_set]
  simp only [tabulate, List.getElem_map, List.getElem_range, Function.update_apply]
  rcases eq_or_ne i j with rfl | hij
  · simp
  · rw [if_neg hij, if_neg hij.symm]

/-! ## Arrays of rows -/

/-- The first `m` rows of the first `n` values of a function of two places. -/
def grid (f : ℕ → ℕ → β) (m n : ℕ) : List (List β) := tabulate (fun i => tabulate (f i) n) m

/-- The rows with another entry in a place, if they have the place. -/
def setAt? (rows : List (List β)) (i j : ℕ) (x : β) : Option (List (List β)) := do
  let row ← rows[i]?
  set? rows i (← set? row j x)

theorem replicate_eq_grid (x : β) (m n : ℕ) :
    List.replicate m (List.replicate n x) = grid (fun _ _ => x) m n := by
  rw [grid, replicate_eq_tabulate x n, replicate_eq_tabulate]

theorem getElem?_grid {f : ℕ → ℕ → β} {m n i : ℕ} (h : i < m) :
    (grid f m n)[i]? = some (tabulate (f i) n) :=
  getElem?_tabulate h

theorem grid_congr {f g : ℕ → ℕ → β} {m n : ℕ} (h : ∀ i < m, ∀ j < n, f i j = g i j) :
    grid f m n = grid g m n :=
  tabulate_congr fun i hi => tabulate_congr (h i hi)

theorem setAt?_grid {f : ℕ → ℕ → β} {m n i j : ℕ} (hi : i < m) (hj : j < n) (x : β) :
    setAt? (grid f m n) i j x =
      some (grid (fun k l => if k = i ∧ l = j then x else f k l) m n) := by
  rw [setAt?, getElem?_grid hi]
  simp only [Option.bind_eq_bind, Option.bind_some, set?_tabulate hj, grid, set?_tabulate hi]
  refine congrArg some (tabulate_congr fun k _ => ?_)
  rcases eq_or_ne k i with rfl | hk
  · rw [Function.update_self]
    refine tabulate_congr fun l _ => ?_
    simp [Function.update_apply]
  · rw [Function.update_of_ne hk]
    exact tabulate_congr fun l _ => (if_neg fun h => hk h.1).symm

end

/-! ## Loops -/

section

variable {β γ σ : Type}

/-- A loop over `1..=n`, from what each round makes of what the rounds before it left. -/
theorem foldlM_range'_eq_some {f : σ → ℕ → Option σ} {s : ℕ → σ} {n : ℕ}
    (h : ∀ k < n, f (s k) (k + 1) = some (s (k + 1))) :
    (List.range' 1 n).foldlM f (s 0) = some (s n) := by
  induction n with
  | zero => rfl
  | succ n ih =>
      rw [List.range'_concat, List.foldlM_append, ih fun k hk => h k (Nat.lt_succ_of_lt hk)]
      have hlast : f (s n) (1 + n) = some (s (n + 1)) := by
        rw [Nat.add_comm]
        exact h n (Nat.lt_succ_self n)
      simp [hlast]

/-- A loop on what stands for a value does to it what a fold does to the value. -/
theorem foldlM_rep_eq_some {f : σ → β → Option σ} {g : γ → β → γ} {rep : γ → σ} :
    ∀ {xs : List β} (c : γ), (∀ c, ∀ x ∈ xs, f (rep c) x = some (rep (g c x))) →
      xs.foldlM f (rep c) = some (rep (xs.foldl g c))
  | [], _, _ => rfl
  | x :: xs, c, h => by
      rw [List.foldlM_cons, h c x (List.mem_cons_self ..)]
      exact foldlM_rep_eq_some (g c x) fun c y hy => h c y (List.mem_cons_of_mem x hy)

end

/-! ## Indices -/

def Ladder.budget? {α : Type} [Scalar α] (l : Ladder α) (rung : ℕ) : Option α := do
  let steps ← word? (rung + 1)
  return l.step * Scalar.ofNat steps

namespace World

variable {α : Type} {w : World α} {i s r b : ℕ}

def index? (w : World α) (solver rung : ℕ) : Option ℕ := do
  let first ← word? (solver * w.nbudgets)
  word? (first + rung)

/-- The slots that are left after an action. -/
def spend? (w : World α) (slots action : ℕ) : Option ℕ := do
  let (_, rung) ← w.splitIndex? action
  minus? slots (← word? (rung + 1))

theorem index?_eq_some (h : w.index s r < wordBound) : w.index? s r = some (w.index s r) := by
  rw [index] at h
  rw [index?, word?_eq_some (Nat.lt_of_le_of_lt (Nat.le_add_right _ _) h)]
  exact word?_eq_some h

theorem spend?_eq_some (ha : i < w.nactions) (hfit : w.slotUse i ≤ b) (hb : b < wordBound) :
    w.spend? b i = some (b - w.slotUse i) := by
  have hword : word? (w.rungOf i + 1) = some (w.slotUse i) :=
    word?_eq_some (Nat.lt_of_le_of_lt hfit hb)
  rw [spend?, splitIndex?_eq_some ha]
  show (word? (w.rungOf i + 1)).bind (minus? b) = _
  rw [hword]
  exact minus?_eq_some hfit

theorem spend?_lt {left : ℕ} (h : w.spend? b i = some left) : left < b := by
  simp only [spend?, Option.bind_eq_bind, Option.bind_eq_some_iff] at h
  obtain ⟨⟨_, rung⟩, _, use, huse, hminus⟩ := h
  have hsum := add_eq_of_minus? hminus
  have hpos : use = rung + 1 := eq_of_word? huse
  omega

variable [Scalar α]

/-- The number of actions is a product of words. -/
def acceptInputs? (w : World α) (rates : List α) (remaining : α) : Option (Decision α Unit) :=
  if Scalar.isNaN remaining || decide (remaining < 0) then
    some (.error (.negativeBudget remaining))
  else do
    let nactions ← word? (w.nsolvers * w.nbudgets)
    return if rates.length != nactions then .error (.shapeMismatch ⟨nactions, 1, rates.length, 1⟩)
      else .ok ()

def cost? (w : World α) (i : ℕ) : Option α := do
  let (solver, rung) ← w.splitIndex? i
  let _ ← w.solvers[solver]?
  w.ladder.budget? rung

theorem budget?_eq_some (h : r + 1 < wordBound) :
    w.ladder.budget? r = some (w.ladder.budget r) := by
  rw [Ladder.budget?, word?_eq_some h]
  rfl

theorem acceptInputs?_eq_some {rates : List α} {remaining : α} (h : w.nactions < wordBound) :
    w.acceptInputs? rates remaining = some (w.checkInputs rates remaining) := by
  unfold acceptInputs? checkInputs
  split
  · rfl
  · have hword : word? (w.nsolvers * w.nbudgets) = some w.nactions := word?_eq_some h
    rw [hword]
    rfl

theorem cost?_eq_some (ha : i < w.nactions) (huse : w.slotUse i < wordBound) :
    w.cost? i = some (w.action i).cost := by
  rw [cost?, splitIndex?_eq_some ha]
  simp only [Option.bind_eq_bind, Option.bind_some,
    getElem?_eq_some_getD (solver_lt ha : (w.splitIndex i).1 < w.solvers.length) ""]
  exact budget?_eq_some huse

end World

end SolverPortfolio

import SolverPortfolio.Proofs.Counts
import SolverPortfolio.Proofs.Portfolio.Sizes

/-!
# Checked access

The definitions of the library read lists by place with a default, and take slices that
may come out short. Neither must ever happen: a default that is read means that an index
was out of range.

So every definition that reads by place has a checked counterpart of the same name with a
question mark. It reads the same entries in the same order and has no result when one of
them is missing. That a definition stays within bounds is the equation `f? … = some (f …)`;
the modules here prove one for each, from the accesses up to the requests of a session.
-/

namespace SolverPortfolio

/-! ## Lists -/

section

variable {β γ : Type}

/-- `len` entries from `start` on, if there are that many. -/
def slice? (xs : List β) (start len : Nat) : Option (List β) :=
  if start + len ≤ xs.length then some ((xs.drop start).take len) else none

theorem slice?_eq_some {xs : List β} {start len : Nat} (h : start + len ≤ xs.length) :
    slice? xs start len = some ((xs.drop start).take len) := if_pos h

/-- A row of a list of `n` rows. -/
theorem slice?_row {xs : List β} {n k a : Nat} (h : xs.length = n * k) (ha : a < n) :
    slice? xs (a * k) k = some ((xs.drop (a * k)).take k) := by
  have hle : (a + 1) * k ≤ n * k := Nat.mul_le_mul_right k ha
  rw [Nat.succ_mul] at hle
  exact slice?_eq_some (h ▸ hle)

theorem getElem?_eq_some_getD {xs : List β} {i : Nat} (h : i < xs.length) (d : β) :
    xs[i]? = some (xs.getD i d) := by
  rw [List.getD_eq_getElem?_getD, List.getElem?_eq_getElem h, Option.getD_some]

theorem mapM_eq_some {f : β → Option γ} {g : β → γ} :
    ∀ {xs : List β}, (∀ x ∈ xs, f x = some (g x)) → xs.mapM f = some (xs.map g)
  | [], _ => rfl
  | x :: xs, h => by
      rw [List.mapM_cons, h x (List.mem_cons_self ..),
        mapM_eq_some fun y hy => h y (List.mem_cons_of_mem x hy)]
      rfl

theorem foldlM_eq_some {f : γ → β → Option γ} {g : γ → β → γ} :
    ∀ {xs : List β} (s : γ), (∀ s, ∀ x ∈ xs, f s x = some (g s x)) →
      xs.foldlM f s = some (xs.foldl g s)
  | [], _, _ => rfl
  | x :: xs, s, h => by
      rw [List.foldlM_cons, h s x (List.mem_cons_self ..)]
      exact foldlM_eq_some (g s x) fun s y hy => h s y (List.mem_cons_of_mem x hy)

theorem filterMap_some_if (p : β → Bool) (f : β → γ) : ∀ xs : List β,
    (xs.map fun x => if p x then some (f x) else none).filterMap id = (xs.filter p).map f
  | [] => rfl
  | x :: xs => by
      rw [List.map_cons, List.filterMap_cons, List.filter_cons, filterMap_some_if p f xs]
      cases p x <;> rfl

/-- Going through two lists of one length is looking the second one up by number. -/
theorem zip_eq_map_zipIdx {xs : List β} {ys : List γ} (d : γ) (h : xs.length = ys.length) :
    xs.zip ys = xs.zipIdx.map fun x => (x.1, ys.getD x.2 d) := by
  refine List.ext_getElem (by simp [h]) fun i hi _ => ?_
  have hy : i < ys.length := by
    rw [List.length_zip] at hi
    omega
  simp [List.getD_eq_getElem?_getD, hy]

theorem zipIdx_eq_map_range (xs : List β) (d : β) :
    xs.zipIdx = (List.range xs.length).map fun i => (xs.getD i d, i) := by
  refine List.ext_getElem (by simp) fun i hi _ => ?_
  have hx : i < xs.length := by simpa using hi
  simp [List.getD_eq_getElem?_getD, hx]

end

/-! ## Counts -/

namespace Counts

def row? (c : Counts) (action : Nat) : Option (List UInt32) :=
  slice? c.cells (action * c.noutcomes) c.noutcomes

/-- A row that is there may still have a total that is not a word. -/
def totalAt? (c : Counts) (action : Nat) : Option (Option UInt32) :=
  (c.row? action).map fun row => row.foldlM plus? 0

def rows? (c : Counts) : Option (List (List UInt32)) := (List.range c.nactions).mapM c.row?

/-- A cell that is there may still be full. -/
def recordAt? (c : Counts) (action : Nat) (kind : OutcomeKind) : Option (Option Counts) :=
  if c.place action kind.index < c.cells.length then some (c.record action kind) else none

namespace Tallies

variable {c : Counts} {n : Nat}

theorem row? (h : c.Tallies n) {a : Nat} (ha : a < n) : c.row? a = some (c.row a) :=
  slice?_row (by rw [h.length, h.noutcomes]) ha

theorem totalAt? (h : c.Tallies n) {a : Nat} (ha : a < n) : c.totalAt? a = some (c.total? a) := by
  rw [Counts.totalAt?, h.row? ha]
  rfl

theorem rows? (h : c.Tallies n) : c.rows? = some c.rows :=
  mapM_eq_some fun _ ha => h.row? (h.nactions ▸ List.mem_range.mp ha)

theorem recordAt? (h : c.Tallies n) {i : Nat} (hi : i < n) (k : OutcomeKind) :
    c.recordAt? i k = some (c.record i k) := if_pos (h.place_lt hi k)

end Tallies

end Counts

/-! ## Tables -/

namespace Prediction

variable {α : Type} [Analytic α]

def row? (t : Prediction α) (action : Nat) : Option (List α) :=
  slice? t.probabilities (action * t.noutcomes) t.noutcomes

def successRate? (t : Prediction α) (action : Nat) : Option α := do
  let unsolved ← t.probabilities[action * t.noutcomes + OutcomeKind.unsolved.index]?
  return Scalar.clamp (1 - unsolved) 0 1

def successRates? (t : Prediction α) : Option (List α) :=
  (List.range t.nactions).mapM t.successRate?

namespace IsSized

variable {t : Prediction α} {n : Nat}

omit [Analytic α] in
theorem row? (h : t.IsSized n) {a : Nat} (ha : a < n) : t.row? a = some (t.row a) :=
  slice?_row (by rw [h.length, h.noutcomes]) ha

theorem successRate? (h : t.IsSized n) {a : Nat} (ha : a < n) :
    t.successRate? a = some (t.successRate a) := by
  have hplace : a * t.noutcomes + OutcomeKind.unsolved.index < t.probabilities.length := by
    rw [h.length, h.noutcomes]
    simp only [OutcomeKind.count, OutcomeKind.index]
    omega
  rw [Prediction.successRate?, getElem?_eq_some_getD hplace 0]
  rfl

theorem successRates? (h : t.IsSized n) : t.successRates? = some t.successRates :=
  mapM_eq_some fun _ ha => h.successRate? (h.nactions ▸ List.mem_range.mp ha)

end IsSized

end Prediction

/-! ## Actions of a world -/

namespace World

variable {α : Type} {w : World α}

/-- The solver and the rung of an action; without rungs there is nothing to divide by. -/
def splitIndex? (w : World α) (action : Nat) : Option (Nat × Nat) :=
  if w.nbudgets = 0 then none else some (w.splitIndex action)

def action? [Scalar α] (w : World α) (i : Nat) : Option (Action α) := do
  let (solver, rung) ← w.splitIndex? i
  let name ← w.solvers[solver]?
  return Action.run name (w.ladder.budget rung)

theorem nbudgets_ne_zero {i : Nat} (hi : i < w.nactions) : w.nbudgets ≠ 0 := by
  intro hzero
  rw [nactions, hzero, Nat.mul_zero] at hi
  exact Nat.not_lt_zero i hi

theorem splitIndex?_eq_some {i : Nat} (hi : i < w.nactions) :
    w.splitIndex? i = some (w.splitIndex i) := if_neg (nbudgets_ne_zero hi)

theorem action?_eq_some [Scalar α] {i : Nat} (hi : i < w.nactions) :
    w.action? i = some (w.action i) := by
  rw [action?, splitIndex?_eq_some hi, action]
  simp only [Option.bind_eq_bind, Option.bind_some,
    getElem?_eq_some_getD (solver_lt hi : (w.splitIndex i).1 < w.solvers.length) ""]
  rfl

end World

end SolverPortfolio

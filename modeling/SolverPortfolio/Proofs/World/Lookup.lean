import SolverPortfolio.Proofs.Bounds.Words
import SolverPortfolio.Proofs.Strategy.Recount

/-!
# Looking up actions and ceilings

A lookup divides a cost by the step, rounds, and takes one from the whole steps it counts. In exact
arithmetic it can find a rung in two ways (`rungOf?_cases`): the cost is a real number and its
nearest multiple of the step is close enough (`Measures`), or it is infinite, because the distance
of an infinity from itself is not a number and passes every test. Either way the count ends at the
largest word.

So what is found is within a billionth of the cost, unless the count ended (`meets_or_over`). That
matters on one size of ladder only, where the largest word is the number of rungs.

What is not a number passes the tests too, and counts no steps. The lookup with its subtraction on
words has no result there, and nowhere else (`lookup?_eq`). `World.lookup_is_total` is the headline.
-/

namespace SolverPortfolio

open Scalar

namespace Ladder

/-- Of the multiples of the step this one is nearest to the cost, and it is within the slack. -/
structure Measures (step cost : ℝ) (n : ℕ) : Prop where
  pos : 1 ≤ n
  nearest : roundAway (cost / step) = n
  close : |cost - n * step| ≤ slack step cost

theorem roundAway_nonpos {x : ℝ} (h : x ≤ 0) : roundAway x ≤ 0 := by
  rcases h.lt_or_eq with hneg | rfl
  · rw [roundAway, if_neg hneg.not_ge]
    have : 0 ≤ round (-x) := by
      rw [round_eq]
      exact Int.floor_nonneg.mpr (by linarith)
    omega
  · simp [roundAway]

theorem abs_sub_roundAway_le (x : ℝ) : |x - roundAway x| ≤ 1 / 2 := by
  rw [roundAway]
  split
  · exact abs_sub_round x
  · have hneg := abs_sub_round (-x)
    rw [abs_sub_comm] at hneg
    push_cast
    rwa [sub_neg_eq_add, add_comm, ← sub_neg_eq_add]

variable {l : Ladder Exact} {step : ℝ} {i : ℕ}

theorem isOff_real_eq_false_iff (p : ℝ) :
    isOff (Exact.real p) = false ↔
      1 ≤ roundAway p ∧ |p - roundAway p| ≤ 1 / 10 ^ 9 * max p 1 := by
  have hround : Scalar.round (Exact.real p) = .real (roundAway p) := rfl
  rw [isOff, hround, Exact.real_sub, Exact.abs_real, Exact.one_eq, Exact.max_real, tolerance_real,
    Exact.real_mul, Bool.or_eq_false_iff, decide_eq_false_iff_not, decide_eq_false_iff_not,
    Exact.real_lt, Exact.real_lt, not_lt, not_lt]
  norm_cast

theorem wholePart_real_intCast {n : ℕ} (z : ℤ) (h : z = n) :
    Scalar.wholePart (Exact.real z) = min n (wordBound - 1) := by
  subst h
  show min ⌊((n : ℤ) : ℝ)⌋₊ (wordBound - 1) = _
  rw [Int.cast_natCast, Nat.floor_natCast]

theorem rungOf?_real_eq_some_iff (hstep : l.step = .real step) (hpos : 0 < step) (cost : ℝ) :
    l.rungOf? (.real cost) = some i ↔
      i < l.size ∧ ∃ n, Measures step cost n ∧ i + 1 = min n (wordBound - 1) := by
  have hposition : Exact.real cost / l.step = .real (cost / step) := by
    rw [hstep, Exact.real_div _ hpos.ne']
  have hscale : ∀ n : ℕ, |cost / step - n| ≤ 1 / 10 ^ 9 * max (cost / step) 1 ↔
      |cost - n * step| ≤ slack step cost := by
    intro n
    have hcost : cost / step * step = cost := div_mul_cancel₀ _ hpos.ne'
    have hdiff : |cost / step - n| * step = |cost - n * step| := by
      rw [← abs_of_pos hpos, ← abs_mul, sub_mul, abs_of_pos hpos, hcost]
    have hmax : max (cost / step) 1 * step = max cost step := by
      rw [max_mul_of_nonneg _ _ hpos.le, hcost, one_mul]
    have hslack : slack step cost = 1 / 10 ^ 9 * max (cost / step) 1 * step := by
      rw [slack, ← hmax]
      push_cast
      ring
    rw [← hdiff, hslack, mul_le_mul_iff_of_pos_right hpos]
  rw [rungOf?_eq_some_iff, hposition, isOff_real_eq_false_iff]
  constructor
  · rintro ⟨⟨hone, hclose⟩, hi, hwhole⟩
    obtain ⟨n, hn⟩ := Int.eq_ofNat_of_zero_le (by omega : 0 ≤ roundAway (cost / step))
    rw [hn] at hone hclose
    refine ⟨hi, n, ⟨by omega, hn, (hscale n).mp (by exact_mod_cast hclose)⟩, ?_⟩
    exact hwhole.trans (wholePart_real_intCast _ hn)
  · rintro ⟨hi, n, hn, hwhole⟩
    have hpos := hn.pos
    have hclose := (hscale n).mpr hn.close
    refine ⟨⟨?_, ?_⟩, hi, hwhole.trans (wholePart_real_intCast _ hn.nearest).symm⟩
    · rw [hn.nearest]
      exact_mod_cast hpos
    · rw [hn.nearest]
      exact_mod_cast hclose

theorem posInf_div (hpos : 0 < step) : Exact.posInf / Exact.real step = .posInf := by
  show (if step = 0 then Exact.posInf else Exact.infinite (1 * SignType.sign step)) = .posInf
  rw [if_neg hpos.ne', sign_pos hpos]
  rfl

theorem negInf_div (hpos : 0 < step) : Exact.negInf / Exact.real step = .negInf := by
  show (if step = 0 then Exact.negInf else Exact.infinite (-1 * SignType.sign step)) = .negInf
  rw [if_neg hpos.ne', sign_pos hpos]
  rfl

theorem abs_nan : Scalar.abs Exact.nan = .nan := if_neg fun h => h.1 rfl

/-- The distance of an infinity from itself is not a number, and not over any tolerance. -/
theorem isOff_posInf : isOff Exact.posInf = false := by
  have hdistance : Scalar.abs (Exact.posInf - Scalar.round Exact.posInf) = .nan := abs_nan
  rw [isOff, hdistance, Bool.or_eq_false_iff, decide_eq_false_iff_not, decide_eq_false_iff_not]
  exact ⟨Exact.not_posInf_lt _, fun h => h.2.1 rfl⟩

theorem isOff_negInf : isOff Exact.negInf = true := by
  have hbelow : Scalar.round Exact.negInf < 1 := by
    rw [Exact.one_eq]
    exact ⟨nofun, nofun, EReal.bot_lt_coe 1⟩
  rw [isOff, decide_eq_true hbelow, Bool.true_or]

theorem isOff_nan : isOff Exact.nan = false := by
  have hdistance : Scalar.abs (Exact.nan - Scalar.round Exact.nan) = .nan := abs_nan
  rw [isOff, hdistance, Bool.or_eq_false_iff, decide_eq_false_iff_not, decide_eq_false_iff_not]
  exact ⟨fun h => h.1 rfl, fun h => h.2.1 rfl⟩

/-- Everything a lookup can find. -/
theorem rungOf?_cases (hstep : l.step = .real step) (hpos : 0 < step) (cost : Exact) :
    l.rungOf? cost = some i ↔ i < l.size ∧
      ((∃ c n, cost = .real c ∧ Measures step c n ∧ i + 1 = min n (wordBound - 1)) ∨
        cost = .posInf ∧ i + 1 = wordBound - 1) := by
  cases cost with
  | real c =>
      rw [rungOf?_real_eq_some_iff hstep hpos]
      simp
  | posInf =>
      rw [rungOf?_eq_some_iff, hstep, posInf_div hpos, isOff_posInf]
      have hwhole : wholePart (Scalar.round Exact.posInf) = wordBound - 1 := rfl
      simp [hwhole]
  | negInf =>
      rw [rungOf?_eq_some_iff, hstep, negInf_div hpos, isOff_negInf]
      simp
  | nan =>
      rw [rungOf?_eq_some_iff, hstep]
      have hwhole : wholePart (Scalar.round (Exact.nan / Exact.real step)) = 0 := rfl
      simp [hwhole]

/-- Positive, and within the slack of a rung's ceiling. -/
def Meets (l : Ladder Exact) (cost : Exact) (rung : ℕ) : Prop :=
  ∃ step c : ℝ, l.step = .real step ∧ cost = .real c ∧ 0 < c ∧
    |c - (rung + 1) * step| ≤ slack step c

theorem Measures.cost_pos {c : ℝ} {n : ℕ} (h : Measures step c n) (hpos : 0 < step) : 0 < c := by
  by_contra hle
  have hround := roundAway_nonpos (div_nonpos_of_nonpos_of_nonneg (not_lt.mp hle) hpos.le)
  have hone := h.pos
  rw [h.nearest] at hround
  omega

/-- What is found is met, unless its position is more than words can count. -/
theorem meets_or_over (hstep : l.step = .real step) (hpos : 0 < step) {cost : Exact}
    (h : l.rungOf? cost = some i) :
    i < l.size ∧ (l.Meets cost i ∨ i + 2 = wordBound ∧ l.budget i < cost) := by
  have hword : 0 < wordBound := by decide
  have hbudget : l.budget i = .real (step * (i + 1 : ℕ)) := by
    rw [budget, hstep, Exact.ofNat_eq, Exact.real_mul]
  obtain ⟨hi, ⟨c, n, rfl, hn, hrung⟩ | ⟨rfl, hrung⟩⟩ := (rungOf?_cases hstep hpos cost).mp h
  · refine ⟨hi, ?_⟩
    by_cases hover : wordBound ≤ n
    · right
      refine ⟨by omega, ?_⟩
      have hnear := (abs_le.mp (abs_sub_roundAway_le (c / step))).1
      rw [hn.nearest] at hnear
      have hsteps : ((i + 1 : ℕ) : ℝ) + 1 ≤ (n : ℤ) := by exact_mod_cast (by omega : i + 1 + 1 ≤ n)
      rw [hbudget, Exact.real_lt, mul_comm, ← lt_div_iff₀ hpos]
      linarith
    · left
      obtain rfl : n = i + 1 := by omega
      have hclose := hn.close
      push_cast at hclose
      exact ⟨step, c, hstep, rfl, hn.cost_pos hpos, hclose⟩
  · refine ⟨hi, Or.inr ⟨by omega, ?_⟩⟩
    rw [hbudget]
    exact Exact.real_lt_posInf _

/-! ## The subtraction of a lookup -/

theorem lookup?_eq_some {α : Type} [Scalar α] {l : Ladder α} {cost : α}
    (h : isOff (cost / l.step) = false → 1 ≤ wholePart (Scalar.round (cost / l.step))) :
    l.lookup? cost = some (l.rungOf? cost) := by
  cases hoff : isOff (cost / l.step) with
  | true => simp [lookup?, rungOf?, hoff]
  | false =>
      obtain ⟨rung, hrung⟩ := Nat.exists_eq_add_of_le' (h hoff)
      simp [lookup?, rungOf?, hoff, hrung, minus?]

/-- Only of what is not a number has a lookup no whole steps to count. -/
theorem lookup?_eq (hstep : l.step = .real step) (hpos : 0 < step) (cost : Exact) :
    l.lookup? cost = if Scalar.isNaN cost then none else some (l.rungOf? cost) := by
  have hword : 1 ≤ wordBound - 1 := by decide
  cases cost with
  | real c =>
      refine lookup?_eq_some fun hoff => ?_
      rw [hstep, Exact.real_div _ hpos.ne'] at hoff ⊢
      obtain ⟨hone, _⟩ := (isOff_real_eq_false_iff _).mp hoff
      obtain ⟨n, hn⟩ := Int.eq_ofNat_of_zero_le (by omega : 0 ≤ roundAway (c / step))
      have hwhole := wholePart_real_intCast _ hn
      show 1 ≤ Scalar.wholePart (Exact.real (roundAway (c / step)))
      omega
  | posInf =>
      refine lookup?_eq_some fun _ => ?_
      rw [hstep, posInf_div hpos]
      exact hword
  | negInf =>
      refine lookup?_eq_some fun hoff => ?_
      rw [hstep, negInf_div hpos, isOff_negInf] at hoff
      cases hoff
  | nan =>
      have hoff : isOff (Exact.nan / l.step) = false := by
        rw [hstep]
        exact isOff_nan
      have hwhole : Scalar.wholePart (Scalar.round (Exact.nan / l.step)) = 0 := by
        rw [hstep]
        rfl
      simp only [lookup?, hoff, hwhole, minus?_eq_none Nat.zero_lt_one]
      rfl

end Ladder

/-! ## The headline theorem -/

namespace World

/-- Actions are numbered by solver and rung, one to one, and are found under their numbers. -/
structure Numbers (w : World Exact) : Prop where
  lookup : ∀ i < w.nactions, w.actionIndex? (w.action i) = some i
  split : ∀ i < w.nactions, (w.splitIndex i).1 < w.nsolvers ∧ (w.splitIndex i).2 < w.nbudgets ∧
    w.index (w.splitIndex i).1 (w.splitIndex i).2 = i
  join : ∀ s < w.nsolvers, ∀ r < w.nbudgets, w.index s r < w.nactions ∧
    w.splitIndex (w.index s r) = (s, r)

theorem numbers {w : World Exact} (hw : w.check = .ok ()) (hsize : w.ladder.size < wordBound) :
    w.Numbers where
  lookup i hi := by
    refine actionIndex?_action hw hi ?_
    have hrung : w.rungOf i < w.ladder.size := rungOf_lt (nbudgets_pos hw) i
    rw [slotUse]
    omega
  split i hi := ⟨solver_lt hi, rungOf_lt (nbudgets_pos hw) i, index_splitIndex i⟩
  join s hs r hr := ⟨index_lt_nactions hs hr, splitIndex_index hr⟩

/-- **Actions are numbered one to one, and lookups are right.** What a lookup finds is a rung of
the ladder within a billionth of a positive cost, and it finds nothing for other costs, unless the
ladder has as many rungs as there are words but one. On such a ladder infinity is found on the top
rung, and so may be any cost over it. One is taken from zero only to look up what is not a
number. -/
theorem lookup_is_total {w : World Exact} (hw : w.check = .ok ())
    (hsize : w.ladder.size < wordBound) :
    w.Numbers ∧
      (w.ladder.size + 1 < wordBound → ∀ cost,
        (∀ i, w.ladder.rungOf? cost = some i → i < w.ladder.size ∧ w.ladder.Meets cost i) ∧
        (isPositiveFinite cost = false → w.ladder.rungOf? cost = none)) ∧
      (w.ladder.size + 1 = wordBound →
        w.ladder.rungOf? .posInf = some (w.ladder.size - 1) ∧
        ∀ cost i, w.ladder.rungOf? cost = some i → i < w.ladder.size ∧
          (w.ladder.Meets cost i ∨ i + 1 = w.ladder.size ∧ w.ladder.budget i < cost)) ∧
      ∀ cost, w.ladder.lookup? cost =
        if isNaN cost then none else some (w.ladder.rungOf? cost) := by
  obtain ⟨step, hpos, hstep⟩ := exists_step hw
  refine ⟨numbers hw hsize, ?_, ?_, Ladder.lookup?_eq hstep hpos⟩
  · intro hroom cost
    have hfound : ∀ i, w.ladder.rungOf? cost = some i →
        i < w.ladder.size ∧ w.ladder.Meets cost i := by
      intro i hi
      obtain ⟨hlt, hmeets | ⟨hlast, _⟩⟩ := Ladder.meets_or_over hstep hpos hi
      · exact ⟨hlt, hmeets⟩
      · omega
    refine ⟨hfound, fun hcost => ?_⟩
    by_contra hsome
    obtain ⟨i, hi⟩ := Option.ne_none_iff_exists'.mp hsome
    obtain ⟨_, _, c, _, rfl, hc, _⟩ := hfound i hi
    simp [isPositiveFinite, hc] at hcost
  · intro hfull
    have hword : 2 < wordBound := by decide
    constructor
    · exact (Ladder.rungOf?_cases hstep hpos _).mpr ⟨by omega, Or.inr ⟨rfl, by omega⟩⟩
    · intro cost i hi
      obtain ⟨hlt, hmeets | ⟨hlast, hover⟩⟩ := Ladder.meets_or_over hstep hpos hi
      · exact ⟨hlt, Or.inl hmeets⟩
      · exact ⟨hlt, Or.inr ⟨by omega, hover⟩⟩

theorem lookup_is_total_twoRungs :
    twoRungs.actionIndex? (twoRungs.action 1) = some 1 ∧
      twoRungs.ladder.rungOf? .posInf = none ∧ twoRungs.ladder.lookup? .nan = none := by
  have hword : 3 < wordBound := by decide
  obtain ⟨hnumbers, hroom, _, hlookup⟩ :=
    lookup_is_total twoRungs_check (Nat.lt_of_succ_lt hword)
  refine ⟨hnumbers.lookup 1 (by decide), ?_, ?_⟩
  · exact (hroom hword .posInf).2 rfl
  · exact hlookup .nan

end World

end SolverPortfolio

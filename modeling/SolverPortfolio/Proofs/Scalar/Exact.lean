import Mathlib
import SolverPortfolio.Proofs.Planner
import SolverPortfolio.Scalar.Double

/-!
# Exact arithmetic

The real numbers as scalars, with the special values a computation with doubles can
meet: two infinities and a value that is not a number. Operations on reals are exact;
on special values they follow the rules of doubles, with one zero instead of two.

This is the instance in which the rules of the library can be compared with the
mathematics they stand for: the same definitions run on doubles and are read here
without rounding. Exact numbers have no written form, so their texts are empty.
-/

namespace SolverPortfolio

/-- The nearest integer; half a unit goes away from zero. -/
noncomputable def roundAway (x : ℝ) : ℤ := if 0 ≤ x then round x else -round (-x)

inductive Exact where
  | real (x : ℝ)
  | posInf
  | negInf
  | nan

namespace Exact

noncomputable section

open Classical in
instance : DecidableEq Exact := inferInstance

def sign : Exact → SignType
  | real x => SignType.sign x
  | posInf => 1
  | negInf => -1
  | nan => 0

/-- The infinity of a sign; zero times an infinity is not a number. -/
def infinite : SignType → Exact
  | .pos => posInf
  | .neg => negInf
  | .zero => nan

/-- The place of a number among the extended reals. -/
def toEReal : Exact → EReal
  | real x => x
  | posInf => ⊤
  | negInf => ⊥
  | nan => 0

/-- The number as a real, if it is one. -/
def toReal : Exact → ℝ
  | real x => x
  | _ => 0

def neg : Exact → Exact
  | real x => real (-x)
  | posInf => negInf
  | negInf => posInf
  | nan => nan

def add : Exact → Exact → Exact
  | real x, real y => real (x + y)
  | nan, _ => nan
  | _, nan => nan
  | posInf, negInf => nan
  | negInf, posInf => nan
  | posInf, _ => posInf
  | _, posInf => posInf
  | negInf, _ => negInf
  | _, negInf => negInf

def mul : Exact → Exact → Exact
  | real x, real y => real (x * y)
  | a, b => infinite (a.sign * b.sign)

def div : Exact → Exact → Exact
  | real x, real y => if y = 0 then infinite (SignType.sign x) else real (x / y)
  | nan, _ => nan
  | _, nan => nan
  | real _, _ => real 0
  | a, real y => if y = 0 then a else infinite (a.sign * SignType.sign y)
  | _, _ => nan

instance : Add Exact := ⟨add⟩

instance : Sub Exact := ⟨fun a b => add a (neg b)⟩

instance : Mul Exact := ⟨mul⟩

instance : Div Exact := ⟨div⟩

instance : Neg Exact := ⟨neg⟩

instance : LT Exact := ⟨fun a b => a ≠ nan ∧ b ≠ nan ∧ a.toEReal < b.toEReal⟩

instance : LE Exact := ⟨fun a b => a ≠ nan ∧ b ≠ nan ∧ a.toEReal ≤ b.toEReal⟩

instance : BEq Exact := ⟨fun a b => decide (a ≠ nan ∧ a = b)⟩

instance : OfScientific Exact := ⟨fun m s e => real (OfScientific.ofScientific m s e)⟩

def isNaN : Exact → Bool
  | nan => true
  | _ => false

def isFinite : Exact → Bool
  | real _ => true
  | _ => false

def round : Exact → Exact
  | real x => real (roundAway x)
  | a => a

def wholePart : Exact → Nat
  | real x => min ⌊x⌋₊ (Scalar.wordBound - 1)
  | posInf => Scalar.wordBound - 1
  | negInf => 0
  | nan => 0

/-- Numbers in their order, and what is not a number after them. -/
def rank (a : Exact) : WithTop EReal := if a = nan then ⊤ else (a.toEReal : WithTop EReal)

instance : Scalar Exact where
  decideLt _ _ := Classical.propDecidable _
  decideLe _ _ := Classical.propDecidable _
  ofNat n := real n
  infinity := posInf
  isNaN := isNaN
  isFinite := isFinite
  round := round
  wholePart := wholePart
  precedes a b := decide (a.rank ≤ b.rank)
  text _ := ""
  detailedText _ := ""

def exp : Exact → Exact
  | real x => real (Real.exp x)
  | posInf => posInf
  | negInf => real 0
  | nan => nan

def ln : Exact → Exact
  | real x => if 0 < x then real (Real.log x) else if x = 0 then negInf else nan
  | posInf => posInf
  | _ => nan

def sqrt : Exact → Exact
  | real x => if 0 ≤ x then real (Real.sqrt x) else nan
  | posInf => posInf
  | _ => nan

def sin : Exact → Exact
  | real x => real (Real.sin x)
  | _ => nan

open Classical in
/-- Powers of real numbers; infinite bases and exponents do not arise. -/
def pow : Exact → Exact → Exact
  | real x, real y =>
    if x = 0 ∧ y < 0 then posInf
    else if x < 0 ∧ ¬∃ n : ℤ, y = n then nan
    else real (x ^ y)
  | _, _ => nan

instance : Analytic Exact where
  exp := exp
  ln := ln
  sqrt := sqrt
  sin := sin
  pi := real Real.pi
  pow := pow

/-! ## Reals stay reals -/

section reals

variable (x y : ℝ)

@[simp] theorem real_add : real x + real y = real (x + y) := rfl

@[simp] theorem real_sub : real x - real y = real (x - y) :=
  congrArg real (sub_eq_add_neg x y).symm

@[simp] theorem real_mul : real x * real y = real (x * y) := rfl

@[simp] theorem real_neg : -real x = real (-x) := rfl

theorem real_div {y : ℝ} (hy : y ≠ 0) : real x / real y = real (x / y) :=
  if_neg hy

@[simp] theorem real_lt : real x < real y ↔ x < y := by
  show _ ∧ _ ∧ ((x : EReal) < (y : EReal)) ↔ _
  simp

@[simp] theorem real_le : real x ≤ real y ↔ x ≤ y := by
  show _ ∧ _ ∧ ((x : EReal) ≤ (y : EReal)) ↔ _
  simp

@[simp] theorem ofNat_eq (n : ℕ) : (Scalar.ofNat n : Exact) = real n := rfl

@[simp] theorem zero_eq : (0 : Exact) = real 0 := congrArg real Nat.cast_zero

@[simp] theorem one_eq : (1 : Exact) = real 1 := congrArg real Nat.cast_one

@[simp] theorem isNaN_real : Scalar.isNaN (real x) = false := rfl

@[simp] theorem isFinite_real : Scalar.isFinite (real x) = true := rfl

@[simp] theorem real_le_posInf : real x ≤ posInf := by
  refine ⟨by simp, by simp, ?_⟩
  exact le_top

@[simp] theorem real_lt_posInf : real x < posInf := by
  refine ⟨by simp, by simp, ?_⟩
  exact EReal.coe_lt_top x

@[simp] theorem not_posInf_lt (a : Exact) : ¬posInf < a := fun h => not_top_lt h.2.2

@[simp] theorem not_real_le_negInf : ¬real x ≤ negInf := fun h =>
  (EReal.bot_lt_coe x).not_ge h.2.2

@[simp] theorem precedes_real : Scalar.precedes (real x) (real y) = decide (x ≤ y) := by
  show decide (rank (real x) ≤ rank (real y)) = _
  simp [rank, toEReal]

theorem max_real : Scalar.max (real x) (real y) = real (max x y) := by
  rw [Scalar.max, isNaN_real, if_neg Bool.false_ne_true]
  split
  · rename_i hlt
    rw [real_lt] at hlt
    rw [max_eq_right hlt.le]
  · rename_i hlt
    rw [real_lt, not_lt] at hlt
    rw [max_eq_left hlt]

theorem pow_real {x : ℝ} (hx : 0 < x) (y : ℝ) :
    Analytic.pow (real x) (real y) = real (x ^ y) := by
  show pow (real x) (real y) = _
  rw [pow, if_neg (fun h => hx.ne' h.1), if_neg (fun h => hx.not_gt h.1)]

end reals

instance : IsStrictOrder Exact (· < ·) where
  irrefl _ h := lt_irrefl _ h.2.2
  trans _ _ _ h h' := ⟨h.1, h'.2.1, h.2.2.trans h'.2.2⟩

protected theorem le_trans {a b c : Exact} (h : a ≤ b) (h' : b ≤ c) : a ≤ c :=
  ⟨h.1, h'.2.1, h.2.2.trans h'.2.2⟩

theorem not_lt_iff {a b : Exact} (ha : a ≠ nan) (hb : b ≠ nan) : ¬a < b ↔ b ≤ a :=
  ⟨fun h => ⟨hb, ha, not_lt.mp fun hlt => h ⟨ha, hb, hlt⟩⟩,
    fun h hlt => not_lt.mpr h.2.2 hlt.2.2⟩

@[simp] protected theorem neg_neg (a : Exact) : - -a = a := by
  cases a with
  | real x => rw [real_neg, real_neg, neg_neg]
  | posInf => rfl
  | negInf => rfl
  | nan => rfl

protected theorem neg_le_neg {a b : Exact} (h : a ≤ b) : -b ≤ -a := by
  have hneg : ∀ c : Exact, c ≠ nan → -c ≠ nan ∧ (-c).toEReal = -c.toEReal := by
    intro c hc
    cases c with
    | real x => exact ⟨Exact.noConfusion, EReal.coe_neg x⟩
    | posInf => exact ⟨Exact.noConfusion, EReal.neg_top.symm⟩
    | negInf => exact ⟨Exact.noConfusion, EReal.neg_bot.symm⟩
    | nan => exact absurd rfl hc
  obtain ⟨ha, ha'⟩ := hneg a h.1
  obtain ⟨hb, hb'⟩ := hneg b h.2.1
  exact ⟨hb, ha, by rw [ha', hb']; exact EReal.neg_le_neg_iff.mpr h.2.2⟩

/-- What lies between two reals is one. -/
theorem eq_real_of_between {a : Exact} {x y : ℝ} (hlow : real x ≤ a) (hhigh : a ≤ real y) :
    ∃ z, a = real z ∧ x ≤ z ∧ z ≤ y := by
  cases a with
  | real z => exact ⟨z, rfl, (real_le _ _).mp hlow, (real_le _ _).mp hhigh⟩
  | posInf => exact absurd hhigh.2.2 (by simp [toEReal])
  | negInf => exact absurd hlow.2.2 (by simp [toEReal])
  | nan => exact absurd rfl hlow.2.1

theorem precedes_total (a b : Exact) : (Scalar.precedes a b || Scalar.precedes b a) = true := by
  show (decide (a.rank ≤ b.rank) || decide (b.rank ≤ a.rank)) = true
  simpa using le_total a.rank b.rank

theorem precedes_trans {a b c : Exact} (h : Scalar.precedes a b = true)
    (h' : Scalar.precedes b c = true) : Scalar.precedes a c = true :=
  decide_eq_true ((of_decide_eq_true h).trans (of_decide_eq_true h'))

/-- A finite number is a real one. -/
theorem eq_real_of_isFinite {a : Exact} (h : Scalar.isFinite a = true) : ∃ x, a = real x := by
  cases a with
  | real x => exact ⟨x, rfl⟩
  | posInf => cases h
  | negInf => cases h
  | nan => cases h

theorem isBudget_real {x : ℝ} (h : 0 ≤ x) : Scalar.IsBudget (real x) := by
  simp [Scalar.IsBudget, h.not_gt]

theorem eq_real_of_isPositiveFinite {a : Exact} (h : Scalar.isPositiveFinite a = true) :
    ∃ x, 0 < x ∧ a = real x := by
  rw [Scalar.isPositiveFinite, Bool.and_eq_true_iff] at h
  obtain ⟨x, rfl⟩ := eq_real_of_isFinite h.1
  exact ⟨x, by simpa using of_decide_eq_true h.2, rfl⟩

theorem sum_real (xs : List ℝ) : Scalar.sum (xs.map real) = real xs.sum := by
  have hfold : ∀ (ys : List ℝ) (c : ℝ),
      (ys.map real).foldl (· + ·) (real c) = real (c + ys.sum) := by
    intro ys
    induction ys with
    | nil => intro c; rw [List.sum_nil, add_zero]; rfl
    | cons y ys ih =>
        intro c
        rw [List.map_cons, List.foldl_cons, real_add, ih, List.sum_cons, add_assoc]
  rw [Scalar.sum, zero_eq, real_neg, hfold, neg_zero, zero_add]

end

end Exact

noncomputable instance : GammaFunctions Exact where
  lnGamma := Gamma.lnGamma
  digamma := Gamma.digamma

end SolverPortfolio

/-!
# Scalars

Costs, budgets, rates and likelihoods are scalars. Every rule of the library is
written for an arbitrary scalar type, so that the same definitions run on
doubles and can be read in exact arithmetic.

`Scalar` has the field operations, the comparisons and the roundings; `Analytic`
adds the elementary functions, `GammaFunctions` the two special functions that
Dirichlet likelihoods need. None of them carries laws: what a theorem needs, its
instance has to provide.
-/

namespace SolverPortfolio

class Scalar (α : Type) extends
    Add α, Sub α, Mul α, Div α, Neg α, LT α, LE α, BEq α, OfScientific α where
  decideLt : (x y : α) → Decidable (x < y)
  decideLe : (x y : α) → Decidable (x ≤ y)
  ofNat : Nat → α
  infinity : α
  isNaN : α → Bool
  isFinite : α → Bool
  /-- The nearest whole number, halves away from zero. -/
  round : α → α
  /-- The whole part as a natural of 64 bits: the nearest of them when it is
  outside their range, zero when there is none. -/
  wholePart : α → Nat
  /-- A total order that agrees with `<` on distinct numbers. -/
  precedes : α → α → Bool
  /-- The text of messages and descriptions. -/
  text : α → String
  /-- The text inside a row that a message shows. -/
  detailedText : α → String

/-- Exponential, logarithm, powers and what the gamma function needs besides. -/
class Analytic (α : Type) extends Scalar α where
  exp : α → α
  ln : α → α
  sqrt : α → α
  sin : α → α
  pi : α
  pow : α → α → α

/-- The logarithm of the gamma function and its derivative, on positive
arguments. -/
class GammaFunctions (α : Type) where
  lnGamma : α → α
  digamma : α → α

namespace Scalar

variable {α : Type} [Scalar α]

instance (priority := low) (n : Nat) : OfNat α n := ⟨ofNat n⟩

instance (priority := low) (x y : α) : Decidable (x < y) := decideLt x y

instance (priority := low) (x y : α) : Decidable (x ≤ y) := decideLe x y

/-- Whole numbers of 64 bits are the counts and indices of the library. -/
def wordBound : Nat := Nat.pow 2 64

def abs (x : α) : α := if x < 0 then -x else x

/-- The larger of two values; one that is not a number gives way. -/
def max (x y : α) : α := if isNaN x then y else if x < y then y else x

/-- A value that is not a number stays as it is. -/
def clamp (x low high : α) : α := if x < low then low else if high < x then high else x

def square (x : α) : α := x * x

/-- Added from the left, starting with the negative zero: the sum of nothing but
negative zeros is a negative zero. -/
def sum (xs : List α) : α := xs.foldl (· + ·) (-0)

/-- Finite and above zero. -/
def isPositiveFinite (x : α) : Bool := isFinite x && decide (0 < x)

/-- A row as messages show it. -/
def rowText (xs : List α) : String := "[" ++ ", ".intercalate (xs.map detailedText) ++ "]"

/-- A list of budgets as messages show it. -/
def listText (xs : List α) : String := "[" ++ ", ".intercalate (xs.map text) ++ "]"

end Scalar

/-! ## Words

Numbers have no bound here; the library keeps counts and indices in machine words, and it stops
where a result is not a word. -/

/-- The number, if it is a word. -/
def word? (n : Nat) : Option Nat := if n < Scalar.wordBound then some n else none

/-- The difference, if it is a word. -/
def minus? (x y : Nat) : Option Nat := if y ≤ x then some (x - y) else none

end SolverPortfolio

import SolverPortfolio.Decimal.Layout
import SolverPortfolio.Scalar

/-!
# Doubles

The running instance of the scalars, with the gamma function it needs for Dirichlet likelihoods.
-/

namespace SolverPortfolio.Double

/-!
## Doubles as scalars

The running instance. Rounding goes through the whole part, which is exact for
every double below `2 ^ 52`; larger doubles are whole already.
-/

open Decimal (Layout)

/-- From this size on every double is a whole number. -/
def wholeFrom : Float := 4503599627370496.0

def roundMagnitude (x : Float) : Float :=
  let whole := x.toUInt64.toFloat
  if 0.5 ≤ x - whole then whole + 1.0 else whole

def round (x : Float) : Float :=
  if 0.0 ≤ x then if x < wholeFrom then roundMagnitude x else x
  else if -wholeFrom < x then -(roundMagnitude (-x)) else x

/-- The position of a double in the total order of bit patterns: negative
values by falling magnitude, then positive ones by rising magnitude. -/
def orderKey (x : Float) : Int :=
  let bits := x.toBits.toNat
  if bits < Nat.pow 2 63 then bits else -((bits - Nat.pow 2 63 : Nat) : Int) - 1

instance : Scalar Float where
  decideLt x y := inferInstanceAs (Decidable (x < y))
  decideLe x y := inferInstanceAs (Decidable (x ≤ y))
  ofNat n := Float.ofNat n
  infinity := 1.0 / 0.0
  isNaN := Float.isNaN
  isFinite := Float.isFinite
  round := round
  wholePart x := x.toUInt64.toNat
  precedes x y := decide (orderKey x ≤ orderKey y)
  text := Layout.plain.text
  detailedText := Layout.detailed.text

instance : Analytic Float where
  exp := Float.exp
  ln := Float.log
  sqrt := Float.sqrt
  sin := Float.sin
  pi := 3.141592653589793
  pow := Float.pow

end SolverPortfolio.Double

namespace SolverPortfolio.Gamma

/-!
## The gamma function in log space

`lnGamma` is Lanczos' approximation with nine terms and the reflection formula
below one half; `digamma` climbs by its recurrence until the asymptotic series
is accurate.
-/

open Scalar Analytic

variable {α : Type} [Analytic α]

/-- The first Lanczos coefficient; the others go with `1 / (x + 1)`, `1 / (x + 2)`, … -/
def leadCoefficient : α := 0.9999999999998099

def coefficients : List α :=
  [676.5203681218851, -1259.1392167224028, 771.3234287776531, -176.6150291621406,
    12.507343278686905, -0.13857109526572012, 9.984369578019572e-6, 1.5056327351493116e-7]

/-- Add `c / (x + i)` for the coefficients from index `i` on. -/
def addTerms (x : α) : Nat → List α → α → α
  | _, [], total => total
  | i, c :: cs, total => addTerms x (i + 1) cs (total + c / (x + ofNat i))

/-- The approximation from one half on. -/
def lanczos (x : α) : α :=
  let x := x - 1
  let total := addTerms x 1 coefficients leadCoefficient
  let t := x + 7 + 0.5
  0.5 * ln (2 * pi) + (x + 0.5) * ln t - t + ln total

def lnGamma (x : α) : α :=
  if x < 0.5 then ln (pi / sin (pi * x)) - lanczos (1 - x) else lanczos x

/-- Steps up to six; the argument grows by one with each. -/
def climb : Nat → α → α → α × α
  | 0, x, total => (x, total)
  | fuel + 1, x, total =>
    if x < 6 then climb fuel (x + 1) (total - 1 / x) else (x, total)

def asymptotic (x : α) (start : α) : α :=
  let inv := 1 / x
  let inv2 := inv * inv
  start + ln x - 0.5 * inv
    - inv2 * (1 / 12 - inv2 * (1 / 120 - inv2 * (1 / 252 - inv2 * (1 / 240))))

/-- Each step shortens the way to six by one. -/
def digamma (x : α) : α :=
  let (x, total) := climb (wholePart (6 - x) + 1) x 0
  asymptotic x total

instance : GammaFunctions Float where
  lnGamma := lnGamma
  digamma := digamma

end SolverPortfolio.Gamma

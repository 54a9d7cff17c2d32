import SolverPortfolio.Decimal

/-!
# Doubles in decimal

A double is an exact fraction. Its text shows the fewest digits that read back as the same double,
in one of three layouts.
-/

namespace SolverPortfolio.Decimal

/-!
## Doubles as exact fractions

Every finite double is a signed natural times a power of two. That fraction
is read off the bit pattern, so the decimal text of a double and its rounding
can be settled in exact integer arithmetic.
-/

/-- The magnitude `mantissa · 2 ^ exponent` with a sign. `lowest` marks a
mantissa that is the least of its binade, where the next double below is only
half as far away as the next one above. -/
structure BinaryFraction where
  negative : Bool
  mantissa : Nat
  exponent : Int
  lowest : Bool
deriving DecidableEq

/-- What a double is: a fraction, an infinity, or not a number. -/
inductive Magnitude where
  | finite (value : BinaryFraction)
  | infinite (negative : Bool)
  | notANumber
deriving DecidableEq

def fractionBits : Nat := Nat.pow 2 52

/-- The sign, biased exponent and fraction fields of the binary64 layout. -/
def magnitude (x : Float) : Magnitude :=
  let bits := x.toBits.toNat
  let negative := decide (bits / Nat.pow 2 63 = 1)
  let biased : Nat := bits / fractionBits % Nat.pow 2 11
  let fraction : Nat := bits % fractionBits
  if biased = 2047 then
    if fraction = 0 then .infinite negative else .notANumber
  else if biased = 0 then
    .finite ⟨negative, fraction, -1074, false⟩
  else
    .finite ⟨negative, fractionBits + fraction, (biased : Int) - 1075,
      decide (fraction = 0 ∧ 1 < biased)⟩

/-- `2 ^ e` and `10 ^ e` as a numerator and a denominator, for scaling without
leaving the integers. -/
def scaleUp (base : Nat) (e : Int) : Nat := Nat.pow base e.toNat

def scaleDown (base : Nat) (e : Int) : Nat := Nat.pow base (-e).toNat

/-!
## The fewest digits that read back

A double owns the interval of reals that round to it: half way to either
neighbour, ends included when the mantissa is even. The text of a double shows
a point of that interval on the coarsest decimal grid that has one, the nearer
of two. Only an exact tie is left to the format (`Tie`).

On each grid it is enough to test the two points around the value: if any grid
point lies in the interval, one of these does.
-/

/-- Which of two equally near grid points is written. -/
inductive Tie where
  | up
  | toEven
deriving DecidableEq

/-- A positive fraction and its interval on a common scale: the value is
`centre / unit`, the interval runs from `low / unit` to `high / unit`. -/
structure Interval where
  low : Nat
  centre : Nat
  high : Nat
  unit : Nat
  closed : Bool

/-- The interval of `x`, measured in units of the grid `10 ^ e`. -/
def BinaryFraction.interval (x : BinaryFraction) (e : Int) : Interval :=
  let scale := scaleUp 2 (x.exponent - 2) * scaleDown 10 e
  { low := (4 * x.mantissa - if x.lowest then 1 else 2) * scale
    centre := 4 * x.mantissa * scale
    high := (4 * x.mantissa + 2) * scale
    unit := scaleDown 2 (x.exponent - 2) * scaleUp 10 e
    closed := x.mantissa % 2 == 0 }

def Interval.holds (i : Interval) (d : Nat) : Bool :=
  if i.closed then i.low ≤ d * i.unit && d * i.unit ≤ i.high
  else i.low < d * i.unit && d * i.unit < i.high

/-- The nearer of the two grid points around the value. -/
def Interval.nearest (i : Interval) (tie : Tie) : Nat :=
  let d := i.centre / i.unit
  match compare (2 * i.centre) ((2 * d + 1) * i.unit) with
  | .lt => d
  | .gt => d + 1
  | .eq =>
    match tie with
    | .up => d + 1
    | .toEven => if d % 2 = 0 then d else d + 1

/-- The grid point written for the value, if the grid has one in the interval. -/
def Interval.point? (i : Interval) (tie : Tie) : Option Nat :=
  let d := i.centre / i.unit
  match i.holds d, i.holds (d + 1) with
  | true, true => some (i.nearest tie)
  | true, false => some d
  | false, true => some (d + 1)
  | false, false => none

/-- Try the grids `10 ^ e`, `10 ^ (e - 1)`, … and take the first with a point;
after `fuel` grids the nearest point of the last one. -/
def firstPoint (tie : Tie) (x : BinaryFraction) : Nat → Int → Nat × Int
  | 0, e => ((x.interval e).nearest tie, e)
  | fuel + 1, e =>
    match (x.interval e).point? tie with
    | some d => (d, e)
    | none => firstPoint tie x fuel (e - 1)

/-- A power of ten above the value: `0.30103` is just over the logarithm of two. -/
def BinaryFraction.topGrid (x : BinaryFraction) : Int :=
  ((x.mantissa.log2 : Int) + x.exponent) * 30103 / 100000 + 2

/-- The significand `d` and exponent `e` of the decimal `d · 10 ^ e` written for
`x`. Twenty-two grids reach seventeen digits, where a point always lies. -/
def shortest (tie : Tie) (x : BinaryFraction) : Nat × Int :=
  if x.mantissa = 0 then (0, 0) else firstPoint tie x 22 x.topGrid

/-!
## Layouts of doubles

The digits of a double are fixed by `shortest`; a layout decides where the
point goes, when an exponent is written and whether a whole number shows a
fraction. Three layouts are in use: `plain` in messages and descriptions,
`detailed` where a message shows a row of probabilities, and `wire` in JSON.
-/

/-- A value whose leading digit stands for `10 ^ k` is written positionally when
`least ≤ k < limit`; an absent end does not restrict. -/
structure Layout where
  tie : Tie
  least : Option Int
  limit : Option Int
  /-- Whole numbers written positionally end in `.0`. -/
  pointAlways : Bool
  /-- A nonnegative exponent carries a `+`. -/
  exponentSign : Bool

namespace Layout

/-- Messages and descriptions never show an exponent. -/
def plain : Layout := ⟨.up, none, none, false, false⟩

def detailed : Layout := ⟨.up, some (-4), some 16, true, false⟩

def wire : Layout := ⟨.toEven, some (-5), some 16, true, true⟩

def positional (l : Layout) (k : Int) : Bool :=
  l.least.all (· ≤ k) && l.limit.all (k < ·)

/-- The numeral of a fraction under a layout. -/
def numeral (l : Layout) (x : BinaryFraction) : Numeral :=
  let (d, e) := shortest l.tie x
  let ds := digits d
  let k : Int := e + ds.length - 1
  if d = 0 || l.positional k then
    if 0 ≤ e then
      ⟨x.negative, ds ++ (if d = 0 then [] else List.replicate e.toNat 0),
        if l.pointAlways then [0] else [], none⟩
    else if 0 ≤ k then
      ⟨x.negative, ds.take (k.toNat + 1), ds.drop (k.toNat + 1), none⟩
    else
      ⟨x.negative, [0], List.replicate ((-k).toNat - 1) 0 ++ ds, none⟩
  else
    ⟨x.negative, ds.take 1, ds.drop 1, some k⟩

/-- The text of a double; the values that are not finite have fixed names. -/
def text (l : Layout) (x : Float) : String :=
  match magnitude x with
  | .finite v => String.ofList ((l.numeral v).chars l.exponentSign)
  | .infinite negative => if negative then "-inf" else "inf"
  | .notANumber => "NaN"

end Layout

end SolverPortfolio.Decimal

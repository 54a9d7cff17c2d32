/-!
# Decimal numbers

Digits, and the numerals they make up. A numeral is the written form of a number; how a double is
laid out as one is the business of `Decimal.Layout`.
-/

namespace SolverPortfolio.Decimal

/-!
## Decimal digits

Naturals written most significant digit first, and the number a digit list
stands for. `ofDigits_digits` is the round trip every written count relies on.
-/

/-- The digits of `n`, without leading zeros (`0` is the single digit `0`). -/
def digits (n : Nat) : List Nat :=
  if n < 10 then [n] else digits (n / 10) ++ [n % 10]
termination_by n

/-- The number whose digits, most significant first, continue those of `start`. -/
def ofDigitsFrom (start : Nat) (ds : List Nat) : Nat :=
  ds.foldl (fun n d => 10 * n + d) start

def ofDigits (ds : List Nat) : Nat := ofDigitsFrom 0 ds

theorem ofDigits_append_singleton (ds : List Nat) (d : Nat) :
    ofDigits (ds ++ [d]) = 10 * ofDigits ds + d := by
  simp [ofDigits, ofDigitsFrom]

theorem ofDigits_digits (n : Nat) : ofDigits (digits n) = n := by
  induction n using Nat.strongRecOn with
  | _ n ih =>
    rw [digits]
    split
    · simp [ofDigits, ofDigitsFrom]
    · rw [ofDigits_append_singleton, ih (n / 10) (by omega)]
      omega

theorem digits_ne_nil (n : Nat) : digits n ≠ [] := by
  rw [digits]
  split <;> simp

/-! ### Digits as characters -/

/-- The digit a character stands for, if it is one of `0` to `9`. -/
def digitOf? (c : Char) : Option Nat :=
  if '0' ≤ c ∧ c ≤ '9' then some (c.toNat - 48) else none

def isDigit (c : Char) : Bool := (digitOf? c).isSome

def digitChar (d : Nat) : Char := Char.ofNat (48 + d)

def digitChars (ds : List Nat) : List Char := ds.map digitChar

/-- The digits at the front of a text, and what follows them. -/
def spanDigits : List Char → List Nat × List Char
  | [] => ([], [])
  | c :: cs =>
    match digitOf? c with
    | some d => (d :: (spanDigits cs).1, (spanDigits cs).2)
    | none => ([], c :: cs)

/-!
## Numerals

A numeral is the written form of a number: sign, digits before and after the
point, exponent. Which numeral a number is given is decided by a layout
(`Decimal.Layout`), which number a numeral means by its reader.
-/

/-- An empty `fraction` stands for no decimal point. -/
structure Numeral where
  negative : Bool
  whole : List Nat
  fraction : List Nat
  exponent : Option Int
deriving DecidableEq

namespace Numeral

def ofNat (n : Nat) : Numeral := ⟨false, digits n, [], none⟩

def ofInt : Int → Numeral
  | .ofNat n => ofNat n
  | .negSucc n => ⟨true, digits (n + 1), [], none⟩

/-- A numeral without point and exponent. -/
def isWhole (n : Numeral) : Bool := n.fraction.isEmpty && n.exponent.isNone

/-- All digits as one natural, the point left out. -/
def significand (n : Numeral) : Nat := ofDigits (n.whole ++ n.fraction)

/-- The power of ten the significand is scaled by. -/
def scale (n : Numeral) : Int := n.exponent.getD 0 - n.fraction.length

/-! ### Written form -/

def exponentText (positiveSign : Bool) : Int → List Char
  | .ofNat n => 'e' :: (if positiveSign then ['+'] else []) ++ digitChars (digits n)
  | .negSucc n => 'e' :: '-' :: digitChars (digits (n + 1))

/-- `positiveSign` says whether a nonnegative exponent carries a `+`. -/
def chars (positiveSign : Bool) (n : Numeral) : List Char :=
  (if n.negative then ['-'] else []) ++ digitChars n.whole ++
    (if n.fraction.isEmpty then [] else '.' :: digitChars n.fraction) ++
    match n.exponent with
    | none => []
    | some e => exponentText positiveSign e

/-! ### Value -/

/-- The double nearest to the numeral. Exponents beyond any double are cut off,
so that the power of ten stays small. -/
def nearest (n : Numeral) : Float :=
  let m := n.significand
  let size : Int := n.whole.length + n.fraction.length
  let x :=
    if m = 0 then 0.0
    else if n.scale > 400 then 1.0 / 0.0
    else if n.scale + size < -400 then 0.0
    else Float.ofScientific m (n.scale < 0) n.scale.natAbs
  if n.negative then -x else x

end Numeral

/-!
## Loosely written numerals

Outside of JSON, numerals are written more freely: with a sign of either kind,
leading zeros, and a point that needs digits on one side only.
-/

/-- Sign and rest of a text; no sign stands for plus. -/
def splitSign : List Char → Bool × List Char
  | '-' :: cs => (true, cs)
  | '+' :: cs => (false, cs)
  | cs => (false, cs)

/-- Digits alone, at least one. -/
def readNatural? (cs : List Char) : Option Nat :=
  match spanDigits cs with
  | ([], _) => none
  | (ds, []) => some (ofDigits ds)
  | _ => none

/-- A sign, if any, and digits. -/
def readInteger? (cs : List Char) : Option Int :=
  let (negative, cs) := splitSign cs
  (readNatural? cs).map fun n => if negative then -(n : Int) else n

def looseFraction : List Char → List Nat × List Char
  | '.' :: cs => spanDigits cs
  | cs => ([], cs)

def looseExponent? : List Char → Option (Option Int)
  | [] => some none
  | c :: cs => if c = 'e' ∨ c = 'E' then (readInteger? cs).map some else none

/-- The numeral a whole text is. -/
def readLoose? (cs : List Char) : Option Numeral :=
  let (negative, cs) := splitSign cs
  let (whole, cs) := spanDigits cs
  let (fraction, cs) := looseFraction cs
  if whole.isEmpty && fraction.isEmpty then none
  else (looseExponent? cs).map fun e => ⟨negative, whole, fraction, e⟩

end SolverPortfolio.Decimal

import SolverPortfolio.Decimal.Layout
import SolverPortfolio.Document
import SolverPortfolio.Json

/-!
# JSON as it is read

The numbers behind numerals, and values as documents.
-/

namespace SolverPortfolio.Json

/-!
## The numbers JSON numerals stand for

A numeral without point and exponent is a whole number as long as it fits in 64
bits; every other numeral is a double. The double is found from the leading
digits that fit in 64 bits and one multiplication or division by a power of
ten. That is exact for the digits of every double of moderate size, and can be
off by the last bit elsewhere.
-/

open Decimal (Numeral Layout magnitude)

/-- The reading of a numeral. -/
inductive Number where
  | natural (n : Nat)
  | negative (n : Int)
  | double (x : Float)

/-! ### The digits that fit -/

def wordLimit : Nat := Nat.pow 2 64

/-- Append digits to a significand as long as it fits in a word; the digits that
are left over. -/
def takeDigits (significand : Nat) : List Nat → Nat × List Nat
  | [] => (significand, [])
  | d :: ds =>
    if 10 * significand + d < wordLimit then takeDigits (10 * significand + d) ds
    else (significand, d :: ds)

/-- The significand of a numeral and the power of ten that belongs to it, its
exponent left out. -/
def leadingDigits (n : Numeral) : Nat × Int :=
  let (whole, dropped) := takeDigits 0 n.whole
  let (all, unused) := takeDigits whole n.fraction
  (all, (dropped.length : Int) - (n.fraction.length - unused.length))

/-! ### Scaling -/

def powerOfTen (k : Nat) : Float := Float.ofScientific 1 false k

/-- Divide by `10 ^ 308` until the exponent is one a double can hold. -/
def descend : Nat → Float → Int → Float
  | 0, x, _ => x
  | fuel + 1, x, e =>
    if -308 ≤ e then x / powerOfTen (-e).toNat
    else if x == 0.0 then x
    else descend fuel (x / powerOfTen 308) (e + 308)

/-- `significand · 10 ^ e` as a double, unless it is too large for one. -/
def scaled (significand : Nat) (e : Int) : Option Float :=
  let x := Float.ofNat significand
  if 0 ≤ e then
    if e ≤ 308 then
      let y := x * powerOfTen e.toNat
      if y.isInf then none else some y
    else if significand = 0 then some x
    else none
  else some (descend ((-e).toNat / 308 + 1) x e)

/-- An exponent this large is not added up any more. -/
def exponentLimit : Int := Nat.pow 2 31

def magnitude? (n : Numeral) : Option Float :=
  let (significand, e) := leadingDigits n
  let given := n.exponent.getD 0
  if exponentLimit ≤ given then
    if significand = 0 then some 0.0 else none
  else if given ≤ -exponentLimit then some 0.0
  else scaled significand (e + given)

def double? (n : Numeral) : Option Number :=
  (magnitude? n).map fun x => .double (if n.negative then -x else x)

/-- The number a numeral stands for; none when it is too large for a double. -/
def number? (n : Numeral) : Option Number :=
  let (significand, dropped) := takeDigits 0 n.whole
  if n.isWhole && dropped.isEmpty then
    if !n.negative then some (.natural significand)
    else if significand = 0 then some (.double (-0.0))
    else if significand ≤ Nat.pow 2 63 then some (.negative (-(significand : Int)))
    else some (.double (-(Float.ofNat significand)))
  else double? n

/-! ### Writing doubles -/

/-- Infinities and values that are not numbers have no JSON form. -/
def double (x : Float) : Json :=
  match magnitude x with
  | .finite v => .number (Layout.wire.numeral v)
  | _ => .null

/-! ### Readings -/

/-- Whole numbers serve as doubles. -/
def Number.toDouble : Number → Float
  | .natural n => Float.ofNat n
  | .negative n => -(Float.ofNat n.natAbs)
  | .double x => x

/-- A point or an exponent is refused. -/
def Number.toWhole? : Number → Option Int
  | .natural n => some n
  | .negative n => some n
  | .double _ => none

/-! ### Values that can be held

A value that is kept before its meaning is known has every number in it read at
once, so one that is too large for a double spoils the whole. -/

mutual

def holdable : Json → Bool
  | .number n => (number? n).isSome
  | .broken => false
  | .array items => holdableItems items
  | .object fields => holdableFields fields
  | _ => true

def holdableItems : List Json → Bool
  | [] => true
  | x :: xs => holdable x && holdableItems xs

def holdableFields : List (String × Json) → Bool
  | [] => true
  | (_, v) :: fs => holdable v && holdableFields fs

end

end SolverPortfolio.Json

namespace SolverPortfolio.Json

/-!
## JSON as documents

A JSON value is a document whose numbers are read when a reader asks for them.
A tagged record is one whose other fields depend on the value of one of them.
-/

/-- The items of a list of at most `n` items. -/
def upTo? {α : Type} (n : Nat) (items : List α) : Option (List α) :=
  if items.length ≤ n then some items else none

/-- A choice is written as its name, or as an object with nothing but null under
the name. -/
instance : Document Json where
  isNull
    | .null => true
    | _ => false
  toBool?
    | .bool b => some b
    | _ => none
  toText?
    | .string s => some s
    | _ => none
  toWhole?
    | .number n => (number? n).bind Number.toWhole?
    | _ => none
  toDouble?
    | .number n => (number? n).map Number.toDouble
    | _ => none
  toItems?
    | .array items => some items
    | _ => none
  toEntries?
    | .object fields => some fields
    | _ => none
  toPositions?
    | n, .array items => upTo? n items
    | _, _ => none
  toChoice?
    | .string s => some s
    | .object [(s, .null)] => some s
    | _ => none

/-! ### Values that are held -/

/-- A value that was read before it was known what it is for. -/
structure Held where
  value : Json

open Document

/-- Under the name of a choice, an empty object may stand in for null. -/
instance : Document Held where
  isNull h := isNull h.value
  toBool? h := toBool? h.value
  toText? h := toText? h.value
  toWhole? h := toWhole? h.value
  toDouble? h := toDouble? h.value
  toItems? h := (toItems? h.value).map (List.map Held.mk)
  toEntries? h := (toEntries? h.value).map (List.map fun (k, v) => (k, Held.mk v))
  toPositions? n h := (toPositions? n h.value).map (List.map Held.mk)
  toChoice? h :=
    match h.value with
    | .object [(s, .object [])] => some s
    | j => toChoice? j

/-- The tag of a tagged record, wherever it stands, and the record without it.
The record is held until the tag is known. -/
def tagged? (tag : String) : Json → Option (String × Held)
  | .object fs =>
    match fs.filter fun e => e.1 == tag with
    | [(_, .string s)] =>
      let rest := Json.object (fs.filter fun e => !(e.1 == tag))
      if rest.holdable then some (s, ⟨rest⟩) else none
    | _ => none
  | .array (.string s :: items) =>
    let rest := Json.array items
    if rest.holdable then some (s, ⟨rest⟩) else none
  | _ => none

end SolverPortfolio.Json

/-!
# Documents

What is read from outside is a tree of values, whatever notation it was written
in. `Document` says what a reader may ask of such a tree, so that a record is
read the same way from every notation.

A record is read by field name, or from a list by position. A field may be
required, optional (absent or null means none) or have a default. Unknown
fields are passed over; a repeated known field is refused, as it is not clear
which one is meant.
-/

namespace SolverPortfolio

class Document (δ : Type) where
  isNull : δ → Bool
  toBool? : δ → Option Bool
  toText? : δ → Option String
  /-- Numbers written without point and exponent. -/
  toWhole? : δ → Option Int
  /-- Whole numbers serve as doubles. -/
  toDouble? : δ → Option Float
  toItems? : δ → Option (List δ)
  toEntries? : δ → Option (List (String × δ))
  /-- The values of the fields of a record that is written as a list, when there
  are as many fields as the number says. -/
  toPositions? : Nat → δ → Option (List δ)
  /-- The name of a choice from several. -/
  toChoice? : δ → Option String

namespace Document

/-! ## Records -/

/-- The fields a record is read from. By position, a field can be missing only
at the end, and only if it has a default. -/
structure Fields (δ : Type) where
  positional : Bool
  entries : List (String × δ)

section

variable {δ α : Type} [Document δ]

def fields? (names : List String) (d : δ) : Option (Fields δ) :=
  match toEntries? d with
  | some entries => some ⟨false, entries⟩
  | none =>
    match toPositions? names.length d with
    | some items => some ⟨true, names.zip items⟩
    | none => none

/-! ## Readers of the parts -/

/-- A natural below `limit`. -/
def toNat? (limit : Nat) (d : δ) : Option Nat := do
  let k ← toWhole? d
  if 0 ≤ k ∧ k < limit then some k.toNat else none

/-- A whole number of 32 bits with sign. -/
def toInt32? (d : δ) : Option Int := do
  let k ← toWhole? d
  if -(Nat.pow 2 31 : Int) ≤ k ∧ k < Nat.pow 2 31 then some k else none

def toList? (read : δ → Option α) (d : δ) : Option (List α) := do
  let items ← toItems? d
  items.mapM read

def toOption? (read : δ → Option α) (d : δ) : Option (Option α) :=
  if isNull d then some none else (read d).map some

/-- A member of a list of named values. -/
def toNamed? (table : List (String × α)) (d : δ) : Option α :=
  (toChoice? d).bind fun s => table.lookup s

namespace Fields

/-- The value of a field if it is there; none at all when it is repeated. -/
def find? (f : Fields δ) (name : String) : Option (Option δ) :=
  match f.entries.filter fun e => e.1 == name with
  | [] => some none
  | [e] => some (some e.2)
  | _ => none

def required (f : Fields δ) (name : String) (read : δ → Option α) : Option α :=
  match f.find? name with
  | some (some v) => read v
  | _ => none

def defaulted (f : Fields δ) (name : String) (fallback : α) (read : δ → Option α) :
    Option α :=
  match f.find? name with
  | some (some v) => read v
  | some none => some fallback
  | none => none

/-- An optional field by name; by position it has to be written. -/
def optional (f : Fields δ) (name : String) (read : δ → Option α) : Option (Option α) :=
  if f.positional then f.required name (toOption? read)
  else f.defaulted name none (toOption? read)

end Fields

end

end Document

end SolverPortfolio

import SolverPortfolio.Decimal
import SolverPortfolio.Document
import SolverPortfolio.Json
import SolverPortfolio.Text

/-!
# Values of YAML

Nodes, and what the scalars among them mean.
-/

namespace SolverPortfolio

/-!
## YAML nodes

A YAML text denotes a tree of scalars, lists and mappings. A scalar keeps its
characters and whether they stand without quotes, because what a plain scalar
means is up to its reader. A node may have an anchor, by which other places refer
to it, so a node is looked at together with the nodes of its text that have one.
-/

inductive Yaml where
  | scalar (tag : Option (List UInt8)) (plain : Bool) (text : String)
  | list (tag : Option (List UInt8)) (items : List Yaml)
  | mapping (tag : Option (List UInt8)) (entries : List (Yaml × Yaml))
  /-- The node whose anchor has this number. -/
  | reference (anchor : Nat)

namespace Yaml

/-- A value that is left out. -/
def blank : Yaml := .scalar none true ""

/-! ### Tags -/

/-- The tag names a type that is the business of the reader alone. -/
def isLocal (tag : List UInt8) : Bool := tag.head? = some 33

/-- The name in a local tag, if it is a text; a mark alone is a name. -/
def localName? (tag : Option (List UInt8)) : Option String := do
  let tag ← tag
  if !isLocal tag then none
  else if tag.length = 1 then some "!"
  else Text.ofOctets? (tag.drop 1)

/-! ### Size -/

mutual

/-- How many scalars, references, starts and ends there are. -/
def size : Yaml → Nat
  | .list _ items => 2 + sizeItems items
  | .mapping _ entries => 2 + sizeEntries entries
  | _ => 1

def sizeItems : List Yaml → Nat
  | [] => 0
  | y :: ys => size y + sizeItems ys

def sizeEntries : List (Yaml × Yaml) → Nat
  | [] => 0
  | (k, v) :: rest => size k + size v + sizeEntries rest

end

/-! ### Views -/

def nullTexts : List String := ["", "~", "null", "Null", "NULL"]

/-- A node, and the nodes of its text by the numbers of their anchors. -/
structure View where
  anchored : List (Nat × Yaml)
  node : Yaml

namespace View

/-- Another node of the same text. -/
def moved (v : View) (y : Yaml) : View := ⟨v.anchored, y⟩

/-- The node, or the one it refers to. An anchor is never that of a reference. -/
def target (v : View) : Yaml :=
  match v.node with
  | .reference n => (v.anchored.lookup n).getD blank
  | y => y

def isBlank (v : View) : Bool :=
  match v.target with
  | .scalar _ plain text => plain && text == ""
  | _ => false

def text? (v : View) : Option String :=
  match v.target with
  | .scalar _ _ text => some text
  | _ => none

/-- The entries of a mapping whose keys are all scalars. -/
def members? (v : View) (entries : List (Yaml × Yaml)) : Option (List (String × View)) :=
  entries.mapM fun (k, y) => (v.moved k).text?.map fun name => (name, v.moved y)

/-! ### References

Nodes can be referred to over and over, so how many references a reader follows
is limited by the size of the text. -/

/-- How many references are followed to get at a node. -/
def references (v : View) : Nat :=
  match v.node with
  | .reference _ => 1
  | _ => 0

/-- How many are followed in reading a list, with so many in each item. -/
def listReferences (inItem : View → Nat) (v : View) : Nat :=
  match v.target with
  | .list _ items => items.foldl (fun n y => n + inItem (v.moved y)) v.references
  | _ => v.references

/-- How many are followed in reading a record; only fields with these names are
looked at. -/
def recordReferences (inField : List (String × (View → Nat))) (v : View) : Nat :=
  match v.target with
  | .mapping _ entries =>
    entries.foldl (fun n (k, y) =>
      n + (v.moved k).references +
        match (v.moved k).text?.bind fun name => inField.lookup name with
        | some inValue => inValue (v.moved y)
        | none => 0) v.references
  | _ => v.references

end View

/-- How many references may be followed in a text of a given size. -/
def referenceLimit (size : Nat) : Nat := 100 * size

/-- Read as a document without a schema: a scalar is its characters, and nothing
is null. What is left out is an empty list or record. A choice may also be
written as a tag of its own with nothing behind it. -/
instance : Document View where
  isNull _ := false
  toBool? _ := none
  toText? := View.text?
  toWhole? _ := none
  toDouble? _ := none
  toItems? v :=
    match v.target with
    | .list _ items => some (items.map v.moved)
    | _ => if v.isBlank then some [] else none
  toEntries? v :=
    match v.target with
    | .mapping _ entries => v.members? entries
    | _ => if v.isBlank then some [] else none
  toPositions? _ _ := none
  toChoice? v :=
    match v.target with
    | .scalar tag plain text =>
      match localName? tag with
      | some name => if plain && nullTexts.contains text then some name else none
      | none => some text
    | _ => none

end Yaml

end SolverPortfolio

namespace SolverPortfolio.Yaml

/-!
## The core schema of YAML

What a plain scalar means: nothing, a truth value, a whole number in one of
four bases, a real number, or else its own text. Digits behind a leading zero
are text. A tag can ask for one of these meanings.
-/

open Decimal

inductive CoreValue where
  | null
  | flag (value : Bool)
  | whole (value : Int)
  | real (value : Float)
  | text (value : String)

namespace CoreValue

def trueTexts : List String := ["true", "True", "TRUE"]

def falseTexts : List String := ["false", "False", "FALSE"]

/-- A whole number has to fit in 128 bits, the sign included if there is one. -/
def wholeBound : Nat := Nat.pow 2 128

/-- Digits of a base up to sixteen. -/
def natOfBase? (base : Nat) (cs : List Char) : Option Nat :=
  if cs.isEmpty then none
  else do
    let ds ← cs.mapM Json.hexValue?
    if ds.all (· < base) then some (ds.foldl (fun n d => base * n + d) 0) else none

def magnitude? : List Char → Option Nat
  | '0' :: 'x' :: cs => natOfBase? 16 cs
  | '0' :: 'o' :: cs => natOfBase? 8 cs
  | '0' :: 'b' :: cs => natOfBase? 2 cs
  | '0' :: _ :: _ => none
  | cs => natOfBase? 10 cs

def whole? (cs : List Char) : Option Int := do
  let (negative, digits) := splitSign cs
  let n ← magnitude? digits
  if negative then
    if n ≤ wholeBound / 2 then some (-(n : Int)) else none
  else if n < wholeBound then some (n : Int)
  else none

/-- Digits that a leading zero keeps from being a number. -/
def isPadded (cs : List Char) : Bool :=
  match (splitSign cs).2 with
  | '0' :: d :: ds => (d :: ds).all isDigit
  | _ => false

/-- Infinities and the value that is not a number are spelled out. -/
def special? (cs : List Char) : Option Float :=
  let text := String.ofList cs
  if [".inf", ".Inf", ".INF", "+.inf", "+.Inf", "+.INF"].contains text then some (1.0 / 0.0)
  else if ["-.inf", "-.Inf", "-.INF"].contains text then some (-1.0 / 0.0)
  else if [".nan", ".NaN", ".NAN"].contains text then some (0.0 / 0.0)
  else none

/-- A numeral too large for a double is not a number. -/
def real? (cs : List Char) : Option Float :=
  match special? cs with
  | some x => some x
  | none => do
    let n ← readLoose? cs
    if n.nearest.isFinite then some n.nearest else none

def flag? (text : String) : Option Bool :=
  if trueTexts.contains text then some true
  else if falseTexts.contains text then some false
  else none

def ofText (text : String) : CoreValue :=
  if nullTexts.contains text then .null
  else
    match flag? text, whole? text.toList with
    | some b, _ => .flag b
    | none, some n => .whole n
    | none, none =>
      match if isPadded text.toList then none else real? text.toList with
      | some x => .real x
      | none => .text text

/-! ### Tags -/

def tagPrefix : String := "tag:yaml.org,2002:"

def commonTag (type : String) : List UInt8 := Text.octets (tagPrefix ++ type)

/-- The meaning a tag asks for; a text that does not have it is refused. A local
tag asks for nothing. What has another tag or stands in quotes is text. -/
def ofScalar? (tag : Option (List UInt8)) (plain : Bool) (text : String) : Option CoreValue :=
  match tag with
  | none => some (if plain then ofText text else .text text)
  | some tag =>
    if isLocal tag then some (if plain then ofText text else .text text)
    else if tag = commonTag "bool" then (flag? text).map .flag
    else if tag = commonTag "int" then (whole? text.toList).map .whole
    else if tag = commonTag "float" then (real? text.toList).map .real
    else if tag = commonTag "null" then
      if text != "" && nullTexts.contains text then some .null else none
    else some (.text text)

end CoreValue

end SolverPortfolio.Yaml

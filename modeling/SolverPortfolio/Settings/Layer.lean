import SolverPortfolio.Scalar
import SolverPortfolio.Text
import SolverPortfolio.Yaml.Node

/-!
# Sources of settings

Settings come in layers, from files and from the environment.
-/

namespace SolverPortfolio

/-!
## Layers of settings

What one source says about the settings is a layer: a tree of groups whose
leaves are values of a known type. Layers are laid over one another; of two
values for the same place the upper one counts, and groups are joined.
-/

inductive Layer where
  | empty
  | flag (value : Bool)
  | whole (value : Int)
  | real (value : Float)
  | text (value : String)
  | list (items : List Layer)
  | group (entries : List (String × Layer))

namespace Layer

/-! ### Groups -/

/-- Put a value in a place, replacing the old one. -/
def put (name : String) (value : Layer) : List (String × Layer) → List (String × Layer)
  | [] => [(name, value)]
  | (n, v) :: rest => if n = name then (n, value) :: rest else (n, v) :: put name value rest

/-- Of repeated names, the last value counts. -/
def ofEntries (entries : List (String × Layer)) : Layer :=
  .group (entries.foldl (fun es (n, v) => put n v es) [])

/-- A value at a path of group names. -/
def nest (value : Layer) : List String → Layer
  | [] => value
  | name :: path => .group [(name, nest value path)]

mutual

/-- The upper layer laid over the lower one. -/
def cover : Layer → Layer → Layer
  | .group upper, .group lower => .group (coverEntries upper lower)
  | upper, _ => upper

def coverEntries : List (String × Layer) → List (String × Layer) → List (String × Layer)
  | [], lower => lower
  | (n, v) :: upper, lower =>
    let joined :=
      match lower.lookup n with
      | some w => cover v w
      | none => v
    coverEntries upper (put n joined lower)

end

/-- Layers from the lowest to the uppermost. -/
def stack (layers : List Layer) : Layer :=
  layers.foldl (fun lower upper => cover upper lower) (.group [])

/-! ### As documents -/

/-- Whole numbers of more than 64 bits serve as nothing. -/
def wordToDouble? (n : Int) : Option Float :=
  if -(Nat.pow 2 63 : Int) ≤ n ∧ n < Scalar.wordBound then
    some (if n < 0 then -(Float.ofNat n.natAbs) else Float.ofNat n.toNat)
  else none

/-- The name that comes first in a group, if nothing is under it. -/
def choiceOf? : List (String × Layer) → Option String
  | [] => none
  | e :: es =>
    match es.foldl (fun first e => if e.1 < first.1 then e else first) e with
    | (name, .empty) => some name
    | _ => none

/-- Values keep their type: a text is no number, and a number is no text. A list
that stands for a record may be longer than it. -/
instance : Document Layer where
  isNull
    | .empty => true
    | _ => false
  toBool?
    | .flag b => some b
    | _ => none
  toText?
    | .text s => some s
    | _ => none
  toWhole?
    | .whole n => some n
    | _ => none
  toDouble?
    | .whole n => wordToDouble? n
    | .real x => some x
    | _ => none
  toItems?
    | .list items => some items
    | _ => none
  toEntries?
    | .group entries => some entries
    | _ => none
  toPositions?
    | n, .list items => some (items.take n)
    | _, _ => none
  toChoice?
    | .text s => some s
    | .group entries => choiceOf? entries
    | _ => none

/-! ### From YAML -/

def ofCore : Yaml.CoreValue → Layer
  | .null => .empty
  | .flag b => .flag b
  | .whole n => .whole n
  | .real x => .real x
  | .text s => .text s

/-- How deeply the values of a layer may be nested. -/
def depthLimit : Nat := 128

/-- Reading that may follow so many more references. -/
abbrev Following := StateT Nat Option

/-- The node that is meant, behind a reference at most. -/
def follow (v : Yaml.View) : Following Yaml := do
  match v.node with
  | .reference _ =>
    match ← get with
    | 0 => failure
    | left + 1 =>
      set left
      return v.target
  | y => return y

def ofName (v : Yaml.View) : Following String := do
  match ← follow v with
  | .scalar _ _ s => return s
  | _ => failure

def ofScalar (tag : Option (List UInt8)) (plain : Bool) (s : String) : Following Layer :=
  match Yaml.CoreValue.ofScalar? tag plain s with
  | some v => return ofCore v
  | none => failure

/-- A value with a local tag is that value at the path the tag spells, points
between the groups; an empty part ends the path. -/
def underTag (tag : Option (List UInt8)) (value : Layer) : Layer :=
  match Yaml.localName? tag with
  | some name => nest value ((Text.parts '.' name).takeWhile (· ≠ ""))
  | none => value

/-! ### Reserved names

A group may stand for a single value, which it has under a reserved name. A
source may be given as well, by its number, which says nothing about the value. -/

def valueName : String := "___figment_value_value"

def sourceName : String := "___figment_value_id"

/-- The last value under the reserved name, or the group if there is none. -/
def ofMembers (entries : List (String × Layer)) : Layer :=
  match (entries.filter fun e => e.1 == valueName).getLast? with
  | some (_, value) => value
  | none => ofEntries (entries.filter fun e => e.1 != sourceName)

/-- The number of a source. -/
def ofSource (v : Yaml.View) : Following Layer := do
  match ← follow v with
  | .scalar tag plain s =>
    match Yaml.localName? tag, ← ofScalar tag plain s with
    | none, .whole n => if 0 ≤ n && n < Scalar.wordBound then return .whole n else failure
    | _, _ => failure
  | _ => failure

/-! ### Nodes -/

/-- The entries of a mapping, whose values are read by their names. -/
def readEntries (read : String → Yaml.View → Following Layer) (v : Yaml.View)
    (entries : List (Yaml × Yaml)) : Following (List (String × Layer)) :=
  entries.mapM fun (k, y) => do
    let name ← ofName (v.moved k)
    return (name, ← read name (v.moved y))

/-- The layer a node stands for; `depth` is how deeply it may be nested. -/
def ofYaml (depth : Nat) (v : Yaml.View) : Following Layer := do
  match depth, ← follow v with
  | _, .scalar tag plain s => return underTag tag (← ofScalar tag plain s)
  | depth + 1, .list tag items =>
    return underTag tag (.list (← items.mapM fun y => ofYaml depth (v.moved y)))
  | depth + 1, .mapping tag entries =>
    let read name := if name = sourceName then ofSource else ofYaml depth
    return underTag tag (ofMembers (← readEntries read v entries))
  | _, _ => failure

/-- The layer of a settings file: a mapping, or nothing at all. No name in it is
reserved. -/
def ofFile? (v : Yaml.View) : Option Layer :=
  match v.node with
  | .mapping _ entries =>
    let root := readEntries (fun _ => ofYaml (depthLimit - 1)) v entries
    (root.run (Yaml.referenceLimit v.node.size)).map fun (es, _) => ofEntries es
  | _ => if v.isBlank then some (.group []) else none

end Layer

end SolverPortfolio

namespace SolverPortfolio.Environment

/-!
## Settings from the environment

A variable whose name begins with `BUDGETFOLIO_`, in any case, sets the value at
the path that the rest of its name spells, two underscores between groups. Its
text is a truth value, a number, a string in double quotes, a list in brackets,
a group in braces, or else just text.
-/

open Decimal Text

def mark : String := "budgetfolio_"

/-! ### Names -/

def lower (s : String) : List Char := s.toList.map Char.toLower

/-- The path a variable name stands for. A point separates like two
underscores; no part may be empty. -/
def path? (name : String) : Option (List String) := do
  let rest ← after? mark.toList (trim (lower name))
  let names := parts '.' (String.ofList (trim (replaceFrom ['_', '_'] ['.'] 0 rest)))
  if names.contains "" then none else some names

/-! ### Scalars -/

def isBlank (c : Char) : Bool := c = ' ' || c = '\t' || c = '\n' || c = '\x0c' || c = '\r'

def skip (cs : List Char) : List Char := cs.dropWhile isBlank

def isSeparator (c : Char) : Bool := ",[]\x7b\x7d".toList.contains c

/-- Numbers of a word; one with a point is a real number. -/
def number? (cs : List Char) : Option Layer :=
  let whole? : Option Layer := do
    let n ← readInteger? cs
    if -(Nat.pow 2 63 : Int) ≤ n ∧ n < Scalar.wordBound then some (.whole n) else none
  if cs.contains '.' then
    match readLoose? cs with
    | some n => some (.real n.nearest)
    | none => whole?
  else whole?

def plain (cs : List Char) : Layer :=
  let word := trim cs
  (number? word).getD (.text (String.ofList word))

/-- The character of a one-letter escape. -/
def escapeTarget? : Char → Option Char
  | 'b' => some '\x08'
  | 't' => some '\t'
  | 'n' => some '\n'
  | 'f' => some '\x0c'
  | 'r' => some '\r'
  | '"' => some '"'
  | '\\' => some '\\'
  | _ => none

/-- The number of hexadecimal digits of a numeric escape. -/
def escapeLength? : Char → Option Nat
  | 'u' => some 4
  | 'U' => some 8
  | _ => none

/-- Controls have to be escaped, but for the tab. -/
def isLegal (c : Char) : Bool := c = '\t' || (' ' ≤ c && c ≠ '\x7f')

def escapes : Escapes := ⟨escapeTarget?, escapeLength?, isLegal⟩

/-- The characters up to the closing quote, and what follows it. What stands in
front of the first escape keeps as many octets as it has characters. -/
def readQuoted (cs : List Char) : Option (List Char × List Char) :=
  (escapes.read 0 cs).map fun (text, rest) =>
    let front := cs.takeWhile fun c => c ≠ '"' && c ≠ '\\'
    if cs[front.length]? = some '\\' then
      (fitting front.length front ++ text.drop front.length, rest)
    else (text, rest)

/-! ### Values -/

def isKeyChar (c : Char) : Bool := c.isAlphanum || c = '_' || c = '-'

/-- A key and what follows its equals sign. -/
def readKey (cs : List Char) : Option (String × List Char) := do
  let (key, rest) ← match skip cs with
    | '"' :: cs => readQuoted cs
    | cs =>
      match cs.takeWhile isKeyChar with
      | [] => none
      | key => some (key, cs.dropWhile isKeyChar)
  match skip rest with
  | '=' :: rest => some (String.ofList key, rest)
  | _ => none

mutual

/-- A value and what follows it and its blanks. -/
def readValue : Nat → List Char → Option (Layer × List Char)
  | 0, _ => none
  | fuel + 1, cs => do
    let (value, rest) ← match skip cs with
      | 't' :: 'r' :: 'u' :: 'e' :: rest => some (.flag true, rest)
      | 'f' :: 'a' :: 'l' :: 's' :: 'e' :: rest => some (.flag false, rest)
      | '\x7b' :: rest => readGroup fuel [] rest
      | '[' :: rest => readList fuel rest
      | '"' :: rest => (readQuoted rest).map fun (s, rest) => (.text (String.ofList s), rest)
      | '\'' :: c :: '\'' :: rest => some (.text (String.singleton c), rest)
      | '\'' :: _ => none
      | rest => some (plain (rest.takeWhile (!isSeparator ·)), rest.dropWhile (!isSeparator ·))
    return (value, skip rest)

/-- The items of a list up to its closing bracket. -/
def readItems : Nat → List Char → Option (List Layer × List Char)
  | 0, _ => none
  | _ + 1, ']' :: rest => some ([], rest)
  | fuel + 1, cs => do
    let (item, rest) ← readValue fuel cs
    match rest with
    | ',' :: rest => do
      let (items, rest) ← readItems fuel rest
      return (item :: items, rest)
    | ']' :: rest => some ([item], rest)
    | _ => none

def readList : Nat → List Char → Option (Layer × List Char)
  | 0, _ => none
  | fuel + 1, cs => (readItems fuel cs).map fun (items, rest) => (.list items, rest)

/-- The entries of a group up to its closing brace, after those read before. -/
def readGroup : Nat → List (String × Layer) → List Char → Option (Layer × List Char)
  | 0, _, _ => none
  | _ + 1, entries, '\x7d' :: rest => some (.ofEntries entries.reverse, rest)
  | fuel + 1, entries, cs => do
    let (key, rest) ← readKey cs
    let (value, rest) ← readValue fuel rest
    match rest with
    | ',' :: rest => readGroup fuel ((key, value) :: entries) rest
    | '\x7d' :: rest => some (.ofEntries ((key, value) :: entries).reverse, rest)
    | _ => none

end

/-- A text that is not a value as a whole stands for itself. -/
def value (text : String) : Layer :=
  match readValue (2 * text.length + 4) text.toList with
  | some (v, []) => v
  | _ => .text text

/-- What the variables say, those that come later over those before. -/
def layer (bindings : List (String × String)) : Layer :=
  .stack (bindings.filterMap fun (name, text) =>
    (path? name).map (Layer.nest (value text)))

end SolverPortfolio.Environment

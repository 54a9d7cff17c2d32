import SolverPortfolio.Yaml.Layout
import SolverPortfolio.Yaml.Node

/-!
# Reading YAML

A reader takes tokens from the front and returns what they denote with the
tokens that follow. The nesting of the readers is bounded by a fuel computed
from the number of tokens, as every third call consumes one. A text holds one
document at most.
-/

namespace SolverPortfolio.Yaml

/-- What is left to read, and the anchors so far, newest first. Anchors are
numbered by how many names there are before them; where a name has come twice,
the next new one takes over the number of the second. -/
structure Rest where
  tokens : List Token
  names : List (String × Nat)
  /-- The number of every anchor, and its node once that has been read. -/
  slots : List (Nat × Option Yaml)

namespace Rest

def start (ts : List Token) : Rest := ⟨ts, [], []⟩

def tail (r : Rest) : Rest := { r with tokens := r.tokens.tail }

/-- None of the tokens is the next one; neither is the end of the text. -/
def nextIs (r : Rest) (ts : List Token) : Bool :=
  match r.tokens with
  | t :: _ => ts.contains t
  | [] => false

/-- The name is now that of a node about to be read. -/
def announce (name : String) (r : Rest) : Rest :=
  let number := r.names.length
  { r with
    names := (name, number) :: r.names.filter fun e => e.1 != name
    slots := (number, none) :: r.slots }

/-- Put a node into the slot that has `before` slots before it. -/
def settle (before : Nat) (y : Yaml) (r : Rest) : Rest :=
  { r with slots := r.slots.modify (r.slots.length - before - 1) fun e => (e.1, some y) }

/-- The nodes by the numbers of their anchors; of one number, the newest counts. -/
def anchored (r : Rest) : List (Nat × Yaml) :=
  r.slots.filterMap fun (n, y) => y.map fun y => (n, y)

end Rest

/-! ## Properties -/

/-- What the handles of tags stand for. -/
abbrev Shorthands := List (String × List UInt8)

def defaultShorthands : Shorthands :=
  [("!", Text.octets "!"), ("!!", Text.octets "tag:yaml.org,2002:")]

/-- A tag in full; without a handle it is in full already. -/
def fullTag? (handles : Shorthands) (handle : String) (suffix : List UInt8) :
    Option (List UInt8) :=
  if handle = "" then some suffix else (handles.lookup handle).map (· ++ suffix)

/-- Tag and anchor of a node, in either order. -/
structure Properties where
  tag : Option (List UInt8)
  anchor : Option String

def Properties.isEmpty (p : Properties) : Bool := p.tag.isNone && p.anchor.isNone

def readProperties? (handles : Shorthands) : List Token → Option (Properties × List Token)
  | .anchor a :: .tag h s :: ts => (fullTag? handles h s).map fun t => (⟨some t, some a⟩, ts)
  | .tag h s :: .anchor a :: ts => (fullTag? handles h s).map fun t => (⟨some t, some a⟩, ts)
  | .anchor a :: ts => some (⟨none, some a⟩, ts)
  | .tag h s :: ts => (fullTag? handles h s).map fun t => (⟨some t, none⟩, ts)
  | ts => some (⟨none, none⟩, ts)

/-! ## Nodes -/

mutual

/-- A node; blocks may begin if `inBlock`, and a list may stand at the column of
its key if `afterKey`. -/
def readNode (handles : Shorthands) :
    Nat → (inBlock afterKey : Bool) → Rest → Option (Yaml × Rest)
  | 0, _, _, _ => none
  | fuel + 1, inBlock, afterKey, r =>
    match r.tokens with
    | .alias name :: _ => (r.names.lookup name).map fun n => (.reference n, r.tail)
    | _ => do
      let (p, tokens) ← readProperties? handles r.tokens
      let r := { r with tokens := tokens }
      match p.anchor with
      | none => readContent handles fuel inBlock afterKey p r
      | some name =>
        let (y, after) ← readContent handles fuel inBlock afterKey p (r.announce name)
        return (y, after.settle r.slots.length y)

/-- What stands behind the properties of a node. -/
def readContent (handles : Shorthands) :
    Nat → (inBlock afterKey : Bool) → Properties → Rest → Option (Yaml × Rest)
  | 0, _, _, _, _ => none
  | fuel + 1, inBlock, afterKey, p, r =>
    match r.tokens with
    | .dash :: _ =>
      if afterKey then do
        let (items, r) ← readDashes handles fuel r
        return (.list p.tag items, r)
      else if p.isEmpty then none
      else some (.scalar p.tag true "", r)
    | .scalar plain text :: _ => some (.scalar p.tag plain text, r.tail)
    | .openBracket :: _ => do
      let (items, r) ← readBracketed handles fuel true r.tail
      return (.list p.tag items, r)
    | .openBrace :: _ => do
      let (entries, r) ← readBraced handles fuel true r.tail
      return (.mapping p.tag entries, r)
    | t :: _ =>
      if inBlock && t = .listStart then do
        let (items, r) ← readItems handles fuel r.tail
        return (.list p.tag items, r)
      else if inBlock && t = .mappingStart then do
        let (entries, r) ← readEntries handles fuel r.tail
        return (.mapping p.tag entries, r)
      else if p.isEmpty then none
      else some (.scalar p.tag true "", r)
    | [] => if p.isEmpty then none else some (.scalar p.tag true "", r)

/-- A node of a block, or nothing before certain marks. -/
def readUnless (handles : Shorthands) :
    Nat → List Token → (inBlock afterKey : Bool) → Rest → Option (Yaml × Rest)
  | 0, _, _, _, _ => none
  | fuel + 1, ends, inBlock, afterKey, r =>
    if r.nextIs ends then some (blank, r) else readNode handles fuel inBlock afterKey r

/-- The items of a list that is a block. -/
def readItems (handles : Shorthands) : Nat → Rest → Option (List Yaml × Rest)
  | 0, _ => none
  | fuel + 1, r =>
    match r.tokens with
    | .blockEnd :: _ => some ([], r.tail)
    | .dash :: _ => do
      let (y, r) ← readUnless handles fuel [.dash, .blockEnd] true false r.tail
      let (ys, r) ← readItems handles fuel r
      return (y :: ys, r)
    | _ => none

/-- The items of a list at the column of its key; any other token ends it. -/
def readDashes (handles : Shorthands) : Nat → Rest → Option (List Yaml × Rest)
  | 0, _ => none
  | fuel + 1, r =>
    match r.tokens with
    | .dash :: _ => do
      let (y, r) ← readUnless handles fuel [.dash, .key, .value, .blockEnd] true false r.tail
      let (ys, r) ← readDashes handles fuel r
      return (y :: ys, r)
    | _ => some ([], r)

/-- The entries of a mapping that is a block. -/
def readEntries (handles : Shorthands) : Nat → Rest → Option (List (Yaml × Yaml) × Rest)
  | 0, _ => none
  | fuel + 1, r =>
    match r.tokens with
    | .blockEnd :: _ => some ([], r.tail)
    | .key :: _ => do
      let (k, r) ← readUnless handles fuel [.key, .value, .blockEnd] true true r.tail
      let (v, r) ← readValue handles fuel [.key, .value, .blockEnd] true r
      let (rest, r) ← readEntries handles fuel r
      return ((k, v) :: rest, r)
    | _ => none

/-- The value behind a key; it may be left out together with its mark. -/
def readValue (handles : Shorthands) :
    Nat → List Token → (inBlock : Bool) → Rest → Option (Yaml × Rest)
  | 0, _, _, _ => none
  | fuel + 1, ends, inBlock, r =>
    match r.tokens with
    | .value :: _ => readUnless handles fuel ends inBlock inBlock r.tail
    | _ => some (blank, r)

/-- The items of a list in brackets. An item with a key is a mapping of one
entry. -/
def readBracketed (handles : Shorthands) :
    Nat → (first : Bool) → Rest → Option (List Yaml × Rest)
  | 0, _, _ => none
  | fuel + 1, first, r =>
    match r.tokens, first with
    | .closeBracket :: _, _ => some ([], r.tail)
    | .comma :: .closeBracket :: _, false => some ([], r.tail.tail)
    | .comma :: _, false => readBracketedItem handles fuel r.tail
    | _, false => none
    | _, true => readBracketedItem handles fuel r

/-- The items from the next one on. -/
def readBracketedItem (handles : Shorthands) : Nat → Rest → Option (List Yaml × Rest)
  | 0, _ => none
  | fuel + 1, r => do
    let (y, r) ←
      match r.tokens with
      | .key :: _ => readPair handles fuel r.tail
      | _ => readNode handles fuel false false r
    let (ys, r) ← readBracketed handles fuel false r
    return (y :: ys, r)

/-- A mapping of one entry, behind the mark of its key. A key that is left out
takes the next mark with it. -/
def readPair (handles : Shorthands) : Nat → Rest → Option (Yaml × Rest)
  | 0, _ => none
  | fuel + 1, r => do
    let (k, r) ←
      if r.nextIs [.value, .comma, .closeBracket] then some (blank, r.tail)
      else readNode handles fuel false false r
    let (v, r) ← readValue handles fuel [.comma, .closeBracket] false r
    return (.mapping none [(k, v)], r)

/-- The entries of a mapping in braces. -/
def readBraced (handles : Shorthands) :
    Nat → (first : Bool) → Rest → Option (List (Yaml × Yaml) × Rest)
  | 0, _, _ => none
  | fuel + 1, first, r =>
    match r.tokens, first with
    | .closeBrace :: _, _ => some ([], r.tail)
    | .comma :: .closeBrace :: _, false => some ([], r.tail.tail)
    | .comma :: _, false => readBracedEntry handles fuel r.tail
    | _, false => none
    | _, true => readBracedEntry handles fuel r

/-- The entries from the next one on; a key that is not marked has no value. -/
def readBracedEntry (handles : Shorthands) : Nat → Rest → Option (List (Yaml × Yaml) × Rest)
  | 0, _ => none
  | fuel + 1, r => do
    let (entry, r) ←
      match r.tokens with
      | .key :: _ => do
        let (k, r) ← readUnless handles fuel [.value, .comma, .closeBrace] false false r.tail
        let (v, r) ← readValue handles fuel [.comma, .closeBrace] false r
        pure ((k, v), r)
      | _ => do
        let (k, r) ← readNode handles fuel false false r
        pure ((k, blank), r)
    let (rest, r) ← readBraced handles fuel false r
    return (entry :: rest, r)

end

/-! ## Documents -/

/-- The directives of a document: at most one version, which has to be one that
is known, and no handle twice. -/
def readDirectives? (versioned : Bool) (handles : Shorthands) :
    List Token → Option (Shorthands × List Token)
  | .version major minor :: ts =>
    if versioned || major != 1 || (minor != 1 && minor != 2) then none
    else readDirectives? true handles ts
  | .shorthand handle start :: ts =>
    if (handles.lookup handle).isSome then none
    else readDirectives? versioned ((handle, start) :: handles) ts
  | ts => some (handles, ts)

/-- The content of a document behind its opening mark may be left out. -/
def endsDocument : List Token → Bool
  | [] => true
  | t :: _ => t.isDirective || t = .opening || t = .closing

def readRoot? (handles : Shorthands) (ts : List Token) : Option View := do
  let (y, r) ← readNode (handles ++ defaultShorthands) (4 * ts.length + 4) true false (.start ts)
  if r.tokens.all (· = .closing) then some ⟨r.anchored, y⟩ else none

def readDocument? (ts : List Token) : Option View :=
  match ts with
  | [] => some ⟨[], blank⟩
  | t :: _ =>
    if t.isDirective || t = .opening then do
      let (handles, ts) ← readDirectives? false [] ts
      match ts with
      | .opening :: ts =>
        if endsDocument ts then
          if ts.all (· = .closing) then some ⟨[], blank⟩ else none
        else readRoot? handles ts
      | _ => none
    else readRoot? [] ts

/-- The root of a text, if it can be read; that of an empty text is blank. -/
def parse (text : String) : Option View := (tokens? text).bind readDocument?

end SolverPortfolio.Yaml

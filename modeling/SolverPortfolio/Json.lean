import SolverPortfolio.Decimal

/-!
# JSON

Values, the texts that are written for them, and the reading of such texts.
-/

namespace SolverPortfolio

/-!
## JSON values

A JSON text denotes a tree. Numbers keep their written form, because whether
`2`, `2.0` or `1e999` is acceptable depends on the field that reads it; objects
keep every field in order, because a repeated field is the reader's business. What is
well formed but cannot be read is kept as such, because a reader that has no use
for it passes over it.
-/

open Decimal (Numeral)

inductive Json where
  | null
  | bool (value : Bool)
  | number (numeral : Numeral)
  | string (text : String)
  | array (items : List Json)
  | object (fields : List (String × Json))
  /-- A text with half a surrogate pair, an object with such a name, or something
  that is nested too deeply. -/
  | broken

namespace Json

def nat (n : Nat) : Json := .number (Numeral.ofNat n)

def int (n : Int) : Json := .number (Numeral.ofInt n)

/-- An absent value is written as `null`. -/
def option {α : Type} (write : α → Json) : Option α → Json
  | none => .null
  | some a => write a

def list {α : Type} (write : α → Json) (xs : List α) : Json := .array (xs.map write)

def strings (xs : List String) : Json := list .string xs

end Json

end SolverPortfolio

namespace SolverPortfolio.Json

/-!
## Quoted JSON strings

`encode` writes the characters of a string between quotes, `decode` reads them
back up to the closing quote. Escapes are written only where they have to be;
every escape of the format is read, including surrogate pairs. A string whose
surrogates do not pair up is well formed, but has no characters.
-/

def hexDigit (d : Nat) : Char := Char.ofNat (if d < 10 then 48 + d else 87 + d)

def hexValue? (c : Char) : Option Nat :=
  if '0' ≤ c ∧ c ≤ '9' then some (c.toNat - 48)
  else if 'a' ≤ c ∧ c ≤ 'f' then some (c.toNat - 87)
  else if 'A' ≤ c ∧ c ≤ 'F' then some (c.toNat - 55)
  else none

/-- The sixteen-bit unit written by four hexadecimal digits. -/
def unit? (a b c d : Char) : Option Nat := do
  let a ← hexValue? a
  let b ← hexValue? b
  let c ← hexValue? c
  let d ← hexValue? d
  return ((a * 16 + b) * 16 + c) * 16 + d

/-- The character of a one-letter escape. -/
def escapeTarget? : Char → Option Char
  | '"' => some '"'
  | '\\' => some '\\'
  | '/' => some '/'
  | 'b' => some '\x08'
  | 'f' => some '\x0c'
  | 'n' => some '\n'
  | 'r' => some '\r'
  | 't' => some '\t'
  | _ => none

def encodeChar (c : Char) : List Char :=
  if c = '"' then ['\\', '"']
  else if c = '\\' then ['\\', '\\']
  else if c = '\x08' then ['\\', 'b']
  else if c = '\x0c' then ['\\', 'f']
  else if c = '\n' then ['\\', 'n']
  else if c = '\r' then ['\\', 'r']
  else if c = '\t' then ['\\', 't']
  else if c.toNat < 32 then
    ['\\', 'u', '0', '0', hexDigit (c.toNat / 16), hexDigit (c.toNat % 16)]
  else [c]

def encode : List Char → List Char
  | [] => []
  | c :: cs => encodeChar c ++ encode cs

def isHighSurrogate (u : Nat) : Bool := 0xD800 ≤ u && u < 0xDC00

def isLowSurrogate (u : Nat) : Bool := 0xDC00 ≤ u && u < 0xE000

def pairedCodePoint (high low : Nat) : Nat :=
  0x10000 + (high - 0xD800) * 0x400 + (low - 0xDC00)

/-- What stands between quotes: characters, and the sixteen-bit units of numeric
escapes. -/
inductive Piece where
  | char (c : Char)
  | unit (u : Nat)

/-- The pieces up to the closing quote, and what follows it. Control characters
have to be escaped. -/
def pieces : List Char → Option (List Piece × List Char)
  | [] => none
  | '"' :: rest => some ([], rest)
  | '\\' :: 'u' :: a :: b :: c :: d :: rest => do
    let u ← unit? a b c d
    let (ps, rest) ← pieces rest
    return (.unit u :: ps, rest)
  | '\\' :: e :: rest => do
    let c ← escapeTarget? e
    let (ps, rest) ← pieces rest
    return (.char c :: ps, rest)
  | c :: rest =>
    if c.toNat < 32 || c = '\\' then none
    else do
      let (ps, rest) ← pieces rest
      return (.char c :: ps, rest)

/-- The characters the pieces spell. Half a surrogate pair is no character. -/
def spell? : List Piece → Option (List Char)
  | [] => some []
  | .char c :: ps => (spell? ps).map (c :: ·)
  | [.unit u] =>
    if isHighSurrogate u || isLowSurrogate u then none else some [Char.ofNat u]
  | .unit u :: .unit v :: ps =>
    if isHighSurrogate u then
      if isLowSurrogate v then (spell? ps).map (Char.ofNat (pairedCodePoint u v) :: ·) else none
    else if isLowSurrogate u then none
    else (spell? (.unit v :: ps)).map (Char.ofNat u :: ·)
  | .unit u :: .char c :: ps =>
    if isHighSurrogate u || isLowSurrogate u then none
    else (spell? ps).map fun cs => Char.ofNat u :: c :: cs

/-- The characters up to the closing quote, if they can be spelled, and what
follows it. -/
def decode (cs : List Char) : Option (Option (List Char) × List Char) :=
  (pieces cs).map fun (ps, rest) => (spell? ps, rest)

/-!
## Writing JSON

Two written forms: `compact` without blanks, and `pretty` with one element a
line, indented by two spaces. What cannot be read is written as `null`.
-/

def quotedChars (s : String) : List Char := '"' :: (encode s.toList ++ ['"'])

def boolChars (b : Bool) : List Char :=
  if b then ['t', 'r', 'u', 'e'] else ['f', 'a', 'l', 's', 'e']

/-! ### Compact form -/

mutual

def compactChars : Json → List Char
  | .null => ['n', 'u', 'l', 'l']
  | .bool b => boolChars b
  | .number n => n.chars true
  | .string s => quotedChars s
  | .broken => ['n', 'u', 'l', 'l']
  | .array [] => ['[', ']']
  | .array (x :: xs) => '[' :: (compactChars x ++ compactItems xs)
  | .object [] => ['\x7b', '\x7d']
  | .object ((k, v) :: fs) =>
    '\x7b' :: (quotedChars k ++ ':' :: (compactChars v ++ compactFields fs))

/-- The items after the first, and the closing bracket. -/
def compactItems : List Json → List Char
  | [] => [']']
  | x :: xs => ',' :: (compactChars x ++ compactItems xs)

/-- The fields after the first, and the closing brace. -/
def compactFields : List (String × Json) → List Char
  | [] => ['\x7d']
  | (k, v) :: fs => ',' :: (quotedChars k ++ ':' :: (compactChars v ++ compactFields fs))

end

def compact (j : Json) : String := String.ofList j.compactChars

/-! ### Indented form -/

/-- A new line, indented for nesting depth `depth`. -/
def newline (depth : Nat) : List Char := '\n' :: List.replicate (2 * depth) ' '

mutual

def prettyChars (depth : Nat) : Json → List Char
  | .null => ['n', 'u', 'l', 'l']
  | .bool b => boolChars b
  | .number n => n.chars true
  | .string s => quotedChars s
  | .broken => ['n', 'u', 'l', 'l']
  | .array [] => ['[', ']']
  | .array (x :: xs) =>
    '[' :: (newline (depth + 1) ++ (prettyChars (depth + 1) x ++ prettyItems depth xs))
  | .object [] => ['\x7b', '\x7d']
  | .object ((k, v) :: fs) =>
    '\x7b' :: (newline (depth + 1) ++ (quotedChars k ++ ':' :: ' ' ::
      (prettyChars (depth + 1) v ++ prettyFields depth fs)))

def prettyItems (depth : Nat) : List Json → List Char
  | [] => newline depth ++ [']']
  | x :: xs =>
    ',' :: (newline (depth + 1) ++ (prettyChars (depth + 1) x ++ prettyItems depth xs))

def prettyFields (depth : Nat) : List (String × Json) → List Char
  | [] => newline depth ++ ['\x7d']
  | (k, v) :: fs =>
    ',' :: (newline (depth + 1) ++ (quotedChars k ++ ':' :: ' ' ::
      (prettyChars (depth + 1) v ++ prettyFields depth fs)))

end

def pretty (j : Json) : String := String.ofList (j.prettyChars 0)

/-!
## Reading JSON

A reader takes the characters at the front of a text and returns what they
denote with the characters that follow. `parse` reads one value that fills the
whole text but for blanks, and gives up what is nested too deeply in it. The
nesting of the readers is bounded by a fuel of twice the length of the text, as
every second call consumes a character.
-/

open Decimal (Numeral spanDigits ofDigits)

def isBlank (c : Char) : Bool := c = ' ' || c = '\n' || c = '\t' || c = '\r'

def skipBlanks : List Char → List Char
  | [] => []
  | c :: cs => if isBlank c then skipBlanks cs else c :: cs

/-! ### Numerals -/

/-- At least one digit. -/
def readDigits (cs : List Char) : Option (List Nat × List Char) :=
  match spanDigits cs with
  | ([], _) => none
  | (ds, rest) => some (ds, rest)

/-- A whole part has no leading zero. -/
def readWhole (cs : List Char) : Option (List Nat × List Char) :=
  match readDigits cs with
  | some (0 :: _ :: _, _) => none
  | other => other

def readFraction : List Char → Option (List Nat × List Char)
  | '.' :: cs => readDigits cs
  | cs => some ([], cs)

def readExponent : List Char → Option (Option Int × List Char)
  | c :: cs =>
    if c = 'e' || c = 'E' then
      match cs with
      | '-' :: cs => (readDigits cs).map fun (ds, rest) => (some (-(ofDigits ds : Int)), rest)
      | '+' :: cs => (readDigits cs).map fun (ds, rest) => (some (ofDigits ds : Int), rest)
      | cs => (readDigits cs).map fun (ds, rest) => (some (ofDigits ds : Int), rest)
    else some (none, c :: cs)
  | [] => some (none, [])

def readUnsigned (negative : Bool) (cs : List Char) : Option (Numeral × List Char) := do
  let (whole, cs) ← readWhole cs
  let (fraction, cs) ← readFraction cs
  let (exponent, cs) ← readExponent cs
  return (⟨negative, whole, fraction, exponent⟩, cs)

def readNumeral : List Char → Option (Numeral × List Char)
  | '-' :: cs => readUnsigned true cs
  | cs => readUnsigned false cs

/-! ### Values -/

def ofSpelling : Option (List Char) → Json
  | some cs => .string (String.ofList cs)
  | none => .broken

def ofFields : Option (List (String × Json)) → Json
  | some fs => .object fs
  | none => .broken

/-- One more field, if its name and those of the others can be spelled. -/
def consField (name : Option (List Char)) (value : Json) (fields : Option (List (String × Json))) :
    Option (List (String × Json)) :=
  match name, fields with
  | some k, some fs => some ((String.ofList k, value) :: fs)
  | _, _ => none

mutual

def readValue : Nat → List Char → Option (Json × List Char)
  | 0, _ => none
  | fuel + 1, cs =>
    match skipBlanks cs with
    | 'n' :: 'u' :: 'l' :: 'l' :: rest => some (.null, rest)
    | 't' :: 'r' :: 'u' :: 'e' :: rest => some (.bool true, rest)
    | 'f' :: 'a' :: 'l' :: 's' :: 'e' :: rest => some (.bool false, rest)
    | '"' :: rest => do
      let (s, rest) ← decode rest
      return (ofSpelling s, rest)
    | '[' :: rest =>
      match skipBlanks rest with
      | ']' :: rest => some (.array [], rest)
      | rest => do
        let (xs, rest) ← readItems fuel rest
        return (.array xs, rest)
    | '\x7b' :: rest =>
      match skipBlanks rest with
      | '\x7d' :: rest => some (.object [], rest)
      | rest => do
        let (fs, rest) ← readFields fuel rest
        return (ofFields fs, rest)
    | rest => do
      let (n, rest) ← readNumeral rest
      return (.number n, rest)

/-- The items of an array from the first one on, up to the closing bracket. -/
def readItems : Nat → List Char → Option (List Json × List Char)
  | 0, _ => none
  | fuel + 1, cs => do
    let (x, rest) ← readValue fuel cs
    match skipBlanks rest with
    | ',' :: rest => do
      let (xs, rest) ← readItems fuel rest
      return (x :: xs, rest)
    | ']' :: rest => return ([x], rest)
    | _ => none

/-- The fields of an object from the first one on, if all their names can be
spelled, up to the closing brace. -/
def readFields : Nat → List Char → Option (Option (List (String × Json)) × List Char)
  | 0, _ => none
  | fuel + 1, cs =>
    match skipBlanks cs with
    | '"' :: rest => do
      let (k, rest) ← decode rest
      match skipBlanks rest with
      | ':' :: rest => do
        let (v, rest) ← readValue fuel rest
        match skipBlanks rest with
        | ',' :: rest => do
          let (fs, rest) ← readFields fuel rest
          return (consField k v fs, rest)
        | '\x7d' :: rest => return (consField k v (some []), rest)
        | _ => none
      | _ => none
    | _ => none

end

def parseChars (cs : List Char) : Option Json :=
  match readValue (2 * cs.length + 2) cs with
  | some (j, rest) => if (skipBlanks rest).isEmpty then some j else none
  | none => none

/-! ### Depth -/

mutual

/-- Arrays and objects can be read if they are nested at most `n` deep. -/
def cut : Nat → Json → Json
  | 0, .array _ => .broken
  | 0, .object _ => .broken
  | n + 1, .array items => .array (cutItems n items)
  | n + 1, .object fields => .object (cutFields n fields)
  | _, j => j

def cutItems (n : Nat) : List Json → List Json
  | [] => []
  | x :: xs => cut n x :: cutItems n xs

def cutFields (n : Nat) : List (String × Json) → List (String × Json)
  | [] => []
  | (k, v) :: fs => (k, cut n v) :: cutFields n fs

end

def depthLimit : Nat := 127

/-- The value a text denotes, if it is a JSON text. -/
def parse (text : String) : Option Json := (parseChars text.toList).map (cut depthLimit)

end SolverPortfolio.Json

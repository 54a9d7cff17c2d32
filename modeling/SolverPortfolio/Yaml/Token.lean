import SolverPortfolio.Json
import SolverPortfolio.Text

/-!
# Tokens of YAML

Positions in a text, the tokens that are found there, and those among them that begin with a mark
of their own.
-/

namespace SolverPortfolio.Yaml

/-!
## Positions in a YAML text

Layout matters in YAML, so a reader of it keeps the line and the column next to
the characters ahead. Lines end in five ways; a carriage return and the line
feed behind it are one end.
-/

/-! ### Characters -/

/-- Controls, half surrogates and the last two characters of the basic plane
may not occur. -/
def isAllowed (c : Char) : Bool :=
  c = '\t' || c = '\n' || c = '\r' || c = '\u0085' || (' ' ≤ c && c ≤ '~') ||
    (0xA0 ≤ c.toNat && c.toNat ≤ 0xFFFD) || 0x10000 ≤ c.toNat

def isSpace (c : Char) : Bool := c = ' ' || c = '\t'

def isBreak (c : Char) : Bool :=
  c = '\n' || c = '\r' || c = '\u0085' || c = '\u2028' || c = '\u2029'

/-- Letters, digits and the two marks that names are made of. -/
def isWordChar (c : Char) : Bool := c.isAlphanum || c = '_' || c = '-'

def isBracket (c : Char) : Bool := "[]\x7b\x7d".toList.contains c

/-- What a line end is read as: a line feed, unless it is a separator that has a
meaning of its own. -/
def breakText (c : Char) : Char := if c = '\u2028' || c = '\u2029' then c else '\n'

/-- The text ends here, or a space or a line end follows. -/
def atBlank : List Char → Bool
  | [] => true
  | c :: _ => isSpace c || isBreak c

def atLineEnd : List Char → Bool
  | [] => true
  | c :: _ => isBreak c

def atSpace : List Char → Bool
  | [] => false
  | c :: _ => isSpace c

/-! ### Places -/

/-- How many characters and lines were passed, and how many characters of the
current line. -/
structure Place where
  index : Nat
  line : Nat
  column : Nat

namespace Place

def start : Place := ⟨0, 0, 0⟩

def next (p : Place) : Place := ⟨p.index + 1, p.line, p.column + 1⟩

/-- Behind a line end of so many characters. -/
def nextLine (p : Place) (width : Nat) : Place := ⟨p.index + width, p.line + 1, 0⟩

end Place

/-- A place and the characters ahead. -/
structure Cursor where
  place : Place
  ahead : List Char

namespace Cursor

def column (c : Cursor) : Nat := c.place.column

/-- Pass over a character that does not end a line. -/
def skip (c : Cursor) : Cursor := ⟨c.place.next, c.ahead.tail⟩

def skipMany (n : Nat) (c : Cursor) : Cursor := Nat.repeat skip n c

/-- Pass over a line end, if there is one. -/
def skipBreak (c : Cursor) : Cursor :=
  match c.ahead with
  | '\r' :: '\n' :: cs => ⟨c.place.nextLine 2, cs⟩
  | b :: cs => if isBreak b then ⟨c.place.nextLine 1, cs⟩ else c
  | [] => c

/-- The characters up to the first one that fails `p` or ends the line, and what
follows them. -/
def span (p : Char → Bool) (c : Cursor) : List Char × Cursor :=
  let cs := c.ahead.takeWhile fun x => p x && !isBreak x
  (cs, c.skipMany cs.length)

def skipWhile (p : Char → Bool) (c : Cursor) : Cursor := (c.span p).2

def skipSpaces (c : Cursor) : Cursor := c.skipWhile isSpace

/-- A comment, if there is one, up to the end of its line. -/
def skipComment (c : Cursor) : Cursor :=
  if c.ahead.head? = some '#' then c.skipWhile fun _ => true else c

/-- Spaces and a comment up to the end of the line, and the line end. -/
def skipLine? (c : Cursor) : Option Cursor :=
  let c := c.skipSpaces.skipComment
  if atLineEnd c.ahead then some c.skipBreak else none

/-- Three hyphens at the start of a line open a document. -/
def atOpening (c : Cursor) : Bool :=
  match c.ahead with
  | '-' :: '-' :: '-' :: cs => c.column == 0 && atBlank cs
  | _ => false

/-- Three points at the start of a line close a document. -/
def atClosing (c : Cursor) : Bool :=
  match c.ahead with
  | '.' :: '.' :: '.' :: cs => c.column == 0 && atBlank cs
  | _ => false

/-- No scalar goes on over a mark of a document. -/
def atMark (c : Cursor) : Bool := c.atOpening || c.atClosing

end Cursor

/-!
## YAML tokens

A token is a mark, a property or a scalar. Blocks have no marks of their own in
the text: their starts and ends are found from the indentation, as are the marks
of keys that stand before a colon. Tags are octets, which need not form a text.
-/

inductive Token where
  | version (major minor : Nat)
  | shorthand (handle : String) (start : List UInt8)
  | opening
  | closing
  | listStart
  | mappingStart
  | blockEnd
  | openBracket
  | closeBracket
  | openBrace
  | closeBrace
  | dash
  | comma
  | key
  | value
  | alias (name : String)
  | anchor (name : String)
  | tag (handle : String) (suffix : List UInt8)
  | scalar (plain : Bool) (text : String)
deriving DecidableEq

namespace Token

def isDirective : Token → Bool
  | .version _ _ => true
  | .shorthand _ _ => true
  | _ => false

end Token

/-!
## Tags, anchors and directives

A value may carry a tag, which names its type, and an anchor, under which other
places refer to it. Directives before a document say which version of the
notation it is in and what shorthands its tags use.
-/

/-! ### Names -/

/-- After the name of an anchor stands a blank or one of these. -/
def endsName : List Char → Bool
  | [] => true
  | c :: cs => atBlank (c :: cs) || "?:,]\x7d%@\x60".toList.contains c

/-- A name behind its indicator. -/
def readName? (c : Cursor) : Option (String × Cursor) :=
  let (name, c) := c.skip.span isWordChar
  if name.isEmpty || !endsName c.ahead then none else some (String.ofList name, c)

/-! ### Tags -/

open Text (octets)

/-- The characters of a tag; within angle brackets there may be more. -/
def isTagChar (enclosed : Bool) (c : Char) : Bool :=
  isWordChar c || ";/?:@&=+$.%!~*'()".toList.contains c ||
    (enclosed && ",[]".toList.contains c)

/-- An octet written as two hexadecimal digits behind a percent sign. -/
def octet? : List Char → Option Nat
  | '%' :: a :: b :: _ => do
    let a ← Json.hexValue? a
    let b ← Json.hexValue? b
    return 16 * a + b
  | _ => none

/-- How many octets follow the first one of a character. -/
def following? (o : Nat) : Option Nat :=
  if o < 0x80 then some 0
  else if 0xC0 ≤ o ∧ o < 0xE0 then some 1
  else if 0xE0 ≤ o ∧ o < 0xF0 then some 2
  else if 0xF0 ≤ o ∧ o < 0xF8 then some 3
  else none

/-- So many octets of a character after the first one. -/
def readFollowing? : Nat → Cursor → Option (List UInt8 × Cursor)
  | 0, c => some ([], c)
  | n + 1, c => do
    let o ← octet? c.ahead
    if o / 64 = 2 then
      let (os, c) ← readFollowing? n (c.skipMany 3)
      return (o.toUInt8 :: os, c)
    else none

/-- A character written as its octets. -/
def readEncoded? (c : Cursor) : Option (List UInt8 × Cursor) := do
  let o ← octet? c.ahead
  let (os, c) ← readFollowing? (← following? o) (c.skipMany 3)
  return (o.toUInt8 :: os, c)

/-- The octets of a tag from here on. -/
def readTagOctets (enclosed : Bool) : Nat → Cursor → Option (List UInt8 × Cursor)
  | 0, _ => none
  | fuel + 1, c =>
    match c.ahead with
    | [] => some ([], c)
    | x :: _ =>
      if !isTagChar enclosed x then some ([], c)
      else do
        let (os, c) ← if x = '%' then readEncoded? c else some ([x.toNat.toUInt8], c.skip)
        let (rest, c) ← readTagOctets enclosed fuel c
        return (os ++ rest, c)

def readTagText (enclosed : Bool) (c : Cursor) : Option (List UInt8 × Cursor) :=
  readTagOctets enclosed (c.ahead.length + 1) c

/-- A tag ends before the octet zero, whatever comes behind it. -/
def untilZero (os : List UInt8) : List UInt8 := os.takeWhile (· ≠ 0)

/-- At least one character. -/
def readSuffix? (enclosed : Bool) (c : Cursor) : Option (List UInt8 × Cursor) := do
  let (os, c) ← readTagText enclosed c
  if os.isEmpty then none else some (untilZero os, c)

/-- An exclamation mark, the word behind it, and a second mark if there is
one. -/
def readHandle? (c : Cursor) : Option (List Char × Bool × Cursor) :=
  match c.ahead with
  | '!' :: _ =>
    let (word, c) := c.skip.span isWordChar
    if c.ahead.head? = some '!' then some (word, true, c.skip) else some (word, false, c)
  | _ => none

def endsTag (inBrackets : Bool) (cs : List Char) : Bool :=
  atBlank cs || (inBrackets && cs.head? = some ',')

/-- Handle and suffix of a tag: in full between angle brackets, behind a handle
of two marks, or behind a single mark. A mark alone is its own suffix. -/
def readTagBody? (c : Cursor) : Option (String × List UInt8 × Cursor) :=
  match c.ahead with
  | '!' :: '<' :: _ => do
    let (suffix, c) ← readSuffix? true (c.skipMany 2)
    if c.ahead.head? = some '>' then some ("", suffix, c.skip) else none
  | _ => do
    let (word, closed, after) ← readHandle? c
    if closed then do
      let (suffix, c) ← readSuffix? false after
      return ("!" ++ String.ofList word ++ "!", suffix, c)
    else do
      let (rest, c) ← readTagText false after
      let suffix := untilZero (octets (String.ofList word) ++ rest)
      if suffix.isEmpty then return ("", octets "!", c)
      return ("!", suffix, c)

def readTag? (inBrackets : Bool) (c : Cursor) : Option (Token × Cursor) := do
  let (handle, suffix, c) ← readTagBody? c
  if endsTag inBrackets c.ahead then some (.tag handle suffix, c) else none

/-! ### Directives -/

/-- A number of at most nine digits. -/
def readVersionNumber? (c : Cursor) : Option (Nat × Cursor) :=
  let (digits, c) := c.span Char.isDigit
  if digits.isEmpty || 9 < digits.length then none
  else some (digits.foldl (fun n d => 10 * n + (d.toNat - '0'.toNat)) 0, c)

def readVersion? (c : Cursor) : Option (Token × Cursor) := do
  let (major, c) ← readVersionNumber? c.skipSpaces
  if c.ahead.head? = some '.' then
    let (minor, c) ← readVersionNumber? c.skip
    return (.version major minor, c)
  else none

def readShorthand? (c : Cursor) : Option (Token × Cursor) := do
  let (word, closed, c) ← readHandle? c.skipSpaces
  if !closed && !word.isEmpty then none
  else if !atSpace c.ahead then none
  else
    let (start, c) ← readSuffix? true c.skipSpaces
    let handle := "!" ++ String.ofList word ++ (if closed then "!" else "")
    if atBlank c.ahead then some (.shorthand handle start, c) else none

/-- A directive from its percent sign to the end of its line. -/
def readDirective? (c : Cursor) : Option (Token × Cursor) := do
  let (name, c) := c.skip.span isWordChar
  if name.isEmpty || !atBlank c.ahead then none
  else
    let (token, c) ←
      if name = "YAML".toList then readVersion? c
      else if name = "TAG".toList then readShorthand? c
      else none
    return (token, ← c.skipLine?)

end SolverPortfolio.Yaml

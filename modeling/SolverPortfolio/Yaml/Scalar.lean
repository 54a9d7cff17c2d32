import SolverPortfolio.Text
import SolverPortfolio.Yaml.Token

/-!
# Scalars of YAML

A scalar is written plainly, between quotes or as a block. The first two join their lines in the
same way.
-/

namespace SolverPortfolio.Yaml

/-!
## Gaps between the words of a scalar

A scalar may go on over several lines. Spaces between two words of a line stay;
where a line ends between them, the spaces around the line end are dropped, a
single line end becomes a space, and of several all but the first stay.
-/

structure Gap where
  /-- A line ends in the gap. -/
  broken : Bool
  /-- The spaces of a gap within a line. -/
  spaces : List Char
  /-- The first line end, and those after it. -/
  first : List Char
  later : List Char

namespace Gap

def empty : Gap := ⟨false, [], [], []⟩

/-- The gap that begins with an escaped line end, which leaves nothing behind. -/
def escaped : Gap := ⟨true, [], [], []⟩

def addSpace (g : Gap) (c : Char) : Gap :=
  if g.broken then g else { g with spaces := g.spaces ++ [c] }

def addBreak (g : Gap) (c : Char) : Gap :=
  if g.broken then { g with later := g.later ++ [breakText c] }
  else { g with broken := true, first := [breakText c] }

/-- The rest of a gap. A tab is no indentation: on a new line, none may stand
before column `least`. -/
def readFrom (least : Nat) (g : Gap) (p : Place) : List Char → Option (Gap × Cursor)
  | [] => some (g, ⟨p, []⟩)
  | '\r' :: '\n' :: cs => readFrom least (g.addBreak '\n') (p.nextLine 2) cs
  | c :: cs =>
    if isBreak c then readFrom least (g.addBreak c) (p.nextLine 1) cs
    else if isSpace c then
      if g.broken && c = '\t' && p.column < least then none
      else readFrom least (g.addSpace c) p.next cs
    else some (g, ⟨p, c :: cs⟩)

/-- The rest of a gap, and where the next word begins. -/
def read (least : Nat) (g : Gap) (c : Cursor) : Option (Gap × Cursor) :=
  readFrom least g c.place c.ahead

/-- What a gap contributes to its scalar. -/
def text (g : Gap) : List Char :=
  if !g.broken then g.spaces
  else if g.first = ['\n'] then if g.later.isEmpty then [' '] else g.later
  else g.first ++ g.later

end Gap

/-!
## Plain scalars

A plain scalar stands without quotes. It ends before a comment, before a colon
that makes it a key, inside brackets before their punctuation, and before a line
that is not indented enough.
-/

/-- The characters that mean something else at the front of a value. -/
def isIndicator (c : Char) : Bool := "-?:,[]\x7b\x7d#&*!|>'\"%@\x60".toList.contains c

/-- A hyphen, a question mark or a colon may begin a plain scalar if they cannot
mean anything else there. -/
def beginsPlain (inBrackets : Bool) : List Char → Bool
  | [] => false
  | c :: cs =>
    (!isSpace c && !isBreak c && !isIndicator c) || (c = '-' && !atSpace cs) ||
      (!inBrackets && (c = '?' || c = ':') && !atBlank cs)

/-- Punctuation of brackets may not follow a colon in them. -/
def isCrowded (inBrackets : Bool) : List Char → Bool
  | [] => false
  | c :: _ => inBrackets && (isBracket c || c = ',' || c = '?')

/-- The word at the front of a text, up to a blank or to what ends the scalar. -/
def plainWord? (inBrackets : Bool) : List Char → Option (List Char)
  | [] => some []
  | c :: cs =>
    if isSpace c || isBreak c then some []
    else if c = ':' && isCrowded inBrackets cs then none
    else if c = ':' && atBlank cs then some []
    else if inBrackets && (isBracket c || c = ',') then some []
    else (plainWord? inBrackets cs).map (c :: ·)

/-- The words of a scalar from the next one on; `gap` is what stands before it.
The answer is the text with its gaps, whether a line end follows it, and where it
ends. -/
def readWords (inBrackets : Bool) (least : Nat) :
    Nat → Gap → Cursor → Option (List Char × Bool × Cursor)
  | 0, _, _ => none
  | fuel + 1, gap, c =>
    if c.atMark || c.ahead.head? = some '#' then some ([], gap.broken, c)
    else do
      let word ← plainWord? inBrackets c.ahead
      if word.isEmpty then return ([], gap.broken, c)
      let (next, c) ← Gap.read least .empty (c.skipMany word.length)
      if !inBrackets && c.column < least then return (gap.text ++ word, next.broken, c)
      let (text, broken, c) ← readWords inBrackets least fuel next c
      return (gap.text ++ word ++ text, broken, c)

/-- A plain scalar; new lines of it are indented by `least` at least. -/
def readPlain (inBrackets : Bool) (least : Nat) (c : Cursor) :
    Option (List Char × Bool × Cursor) :=
  readWords inBrackets least (c.ahead.length + 1) .empty c

/-!
## Quoted scalars

Between single quotes a quote is written twice; between double quotes there are
escapes, also for a line end. Lines are joined as in plain scalars, but need not
be indented.
-/

/-- The character of a one-letter escape. -/
def escapeTarget? : Char → Option Char
  | '0' => some '\x00'
  | 'a' => some '\x07'
  | 'b' => some '\x08'
  | 't' => some '\t'
  | '\t' => some '\t'
  | 'n' => some '\n'
  | 'v' => some '\x0b'
  | 'f' => some '\x0c'
  | 'r' => some '\r'
  | 'e' => some '\x1b'
  | ' ' => some ' '
  | '"' => some '"'
  | '/' => some '/'
  | '\\' => some '\\'
  | 'N' => some '\u0085'
  | '_' => some '\u00a0'
  | 'L' => some '\u2028'
  | 'P' => some '\u2029'
  | _ => none

/-- The number of hexadecimal digits of a numeric escape. -/
def escapeLength? : Char → Option Nat
  | 'x' => some 2
  | 'u' => some 4
  | 'U' => some 8
  | _ => none

/-- An escape: its character, and where it ends. -/
def readEscape? (c : Cursor) : Option (Char × Cursor) :=
  match c.ahead with
  | '\\' :: letter :: cs =>
    match escapeTarget? letter, escapeLength? letter with
    | some x, _ => some (x, c.skipMany 2)
    | none, some n =>
      if cs.length < n then none
      else (Text.charOfHex? (cs.take n)).map fun x => (x, c.skipMany (n + 2))
    | none, none => none
  | _ => none

def isEscapedBreak : List Char → Bool
  | '\\' :: b :: _ => isBreak b
  | _ => false

/-- A piece of text in front of the rest. -/
def putBefore (piece : List Char) (rest : Option (List Char × Cursor)) :
    Option (List Char × Cursor) :=
  rest.map fun (text, c) => (piece ++ text, c)

/-- The text up to the closing quote, and where the scalar ends. -/
def readQuotedRest (quote : Char) : Nat → Cursor → Option (List Char × Cursor)
  | 0, _ => none
  | fuel + 1, c =>
    if c.atMark then none
    else
      match c.ahead with
      | [] => none
      | x :: cs =>
        if x = quote then
          if quote = '\'' && cs.head? = some '\'' then
            putBefore ['\''] (readQuotedRest quote fuel (c.skipMany 2))
          else some ([], c.skip)
        else if quote = '"' && isEscapedBreak c.ahead then do
          let (gap, c) ← Gap.read 0 .escaped c.skip.skipBreak
          putBefore gap.text (readQuotedRest quote fuel c)
        else if quote = '"' && x = '\\' then do
          let (x, c) ← readEscape? c
          putBefore [x] (readQuotedRest quote fuel c)
        else if isSpace x || isBreak x then do
          let (gap, c) ← Gap.read 0 .empty c
          putBefore gap.text (readQuotedRest quote fuel c)
        else putBefore [x] (readQuotedRest quote fuel c.skip)

/-- A scalar from its opening quote on. -/
def readQuoted (quote : Char) (c : Cursor) : Option (List Char × Cursor) :=
  readQuotedRest quote (c.ahead.length + 1) c.skip

/-!
## Block scalars

A bar introduces lines that are taken as they are, an angle bracket lines that
are folded into one where neither begins with a space. The indentation is that
of the first line with something on it, or what the header adds to that of the
block around. The header also says what happens to the line ends at the end.
-/

/-- What happens to line ends at the end: one stays, none, or all. -/
inductive Chomping where
  | clip
  | strip
  | keep

structure BlockHeader where
  folded : Bool
  chomping : Chomping
  /-- The indentation the header adds to that of the block around; zero when it
  is up to the first line. -/
  added : Nat

/-! ### Header -/

def chomping? : Char → Option Chomping
  | '+' => some .keep
  | '-' => some .strip
  | _ => none

def added? (c : Char) : Option Nat := if c.isDigit then some (c.toNat - '0'.toNat) else none

/-- Chomping and indentation, in either order; an indentation of zero is none. -/
def headerMarks? : List Char → Option (Chomping × Nat × Nat)
  | x :: y :: _ =>
    match chomping? x, added? x, chomping? y, added? y with
    | some h, _, _, some n => if n = 0 then none else some (h, n, 2)
    | some h, _, _, none => some (h, 0, 1)
    | none, some n, some h, _ => if n = 0 then none else some (h, n, 2)
    | none, some n, none, _ => if n = 0 then none else some (.clip, n, 1)
    | none, none, _, _ => some (.clip, 0, 0)
  | [x] =>
    match chomping? x, added? x with
    | some h, _ => some (h, 0, 1)
    | none, some n => if n = 0 then none else some (.clip, n, 1)
    | none, none => some (.clip, 0, 0)
  | [] => some (.clip, 0, 0)

/-- The header of a scalar, up to the end of its line. -/
def readHeader? (folded : Bool) (c : Cursor) : Option (BlockHeader × Cursor) := do
  let c := c.skip
  let (chomping, added, width) ← headerMarks? c.ahead
  let c ← (c.skipMany width).skipLine?
  return (⟨folded, chomping, added⟩, c)

/-! ### Lines -/

/-- Empty lines and the indentation of the next line: the line ends, the widest
indentation seen, and where the line goes on. While `indent` is zero, all spaces
are indentation. -/
def readEmptyLines (indent : Nat) (breaks : List Char) (widest : Nat) (p : Place) :
    List Char → Option (List Char × Nat × Cursor)
  | [] => some (breaks, widest, ⟨p, []⟩)
  | '\r' :: '\n' :: cs => readEmptyLines indent (breaks ++ ['\n']) widest (p.nextLine 2) cs
  | c :: cs =>
    if isBreak c then readEmptyLines indent (breaks ++ [breakText c]) widest (p.nextLine 1) cs
    else if (indent = 0 || p.column < indent) && isSpace c then
      if c = '\t' then none
      else readEmptyLines indent breaks (max widest (p.column + 1)) p.next cs
    else some (breaks, widest, ⟨p, c :: cs⟩)

/-- The line end at the front of a text. -/
def breakAhead : List Char → List Char
  | '\r' :: '\n' :: _ => ['\n']
  | c :: _ => if isBreak c then [breakText c] else []
  | [] => []

/-- The text so far, the end of its last line, the empty lines after that, and
whether the last line begins with a space. -/
structure BlockText where
  text : List Char
  lineEnd : List Char
  empties : List Char
  spaced : Bool

/-- The text with what stands between it and a further line; `spaced` says
whether that line begins with a space. -/
def BlockText.joined (b : BlockText) (folded spaced : Bool) : List Char :=
  if folded && b.lineEnd = ['\n'] && !b.spaced && !spaced then
    b.text ++ (if b.empties.isEmpty then [' '] else b.empties)
  else b.text ++ b.lineEnd ++ b.empties

def readBlockLines (folded : Bool) (indent : Nat) :
    Nat → BlockText → Cursor → Option (BlockText × Cursor)
  | 0, _, _ => none
  | fuel + 1, b, c =>
    if c.column = indent && !c.ahead.isEmpty then do
      let spaced := atSpace c.ahead
      let (line, c) := c.span fun _ => true
      let after := c.skipBreak
      let (empties, _, rest) ← readEmptyLines indent [] 0 after.place after.ahead
      readBlockLines folded indent fuel
        ⟨b.joined folded spaced ++ line, breakAhead c.ahead, empties, spaced⟩ rest
    else some (b, c)

def BlockText.chomped (b : BlockText) : Chomping → List Char
  | .strip => b.text
  | .clip => b.text ++ b.lineEnd
  | .keep => b.text ++ b.lineEnd ++ b.empties

/-- A block scalar from its indicator on; `around` is the indentation of the
block around it, one more than it is. -/
def readBlockScalar (folded : Bool) (around : Nat) (c : Cursor) : Option (List Char × Cursor) := do
  let (header, c) ← readHeader? folded c
  let given := if header.added = 0 then 0 else around - 1 + header.added
  let (empties, widest, c) ← readEmptyLines given [] 0 c.place c.ahead
  let indent := if given = 0 then max widest (max around 1) else given
  let (b, c) ← readBlockLines folded indent (c.ahead.length + 1) ⟨[], [], empties, false⟩ c
  return (b.chomped header.chomping, c)

end SolverPortfolio.Yaml

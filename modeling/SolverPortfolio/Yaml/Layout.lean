import SolverPortfolio.Yaml.Scalar
import SolverPortfolio.Yaml.Token

/-!
# From layout to tokens

`tokens` reads a text from left to right. A colon turns what stands before it
into a key, so the place of the last thing that could be a key is kept, and the
marks are put in there when the colon comes. A key stands on one line and has at
most 1024 characters. Outside of brackets, the columns of keys and dashes open
and close blocks.
-/

namespace SolverPortfolio.Yaml

/-- A place where a key may have begun. -/
structure Candidate where
  /-- Nothing but a key may begin here. -/
  required : Bool
  /-- How many tokens stand before it. -/
  before : Nat
  start : Place

structure Scanner where
  cursor : Cursor
  /-- The tokens so far, newest first, and how many there are. -/
  tokens : List Token
  count : Nat
  /-- The column of the innermost block and of those around it; outside of all
  blocks it is `-1`. -/
  indent : Int
  outer : List Int
  keyAllowed : Bool
  /-- The candidate within the innermost brackets and those around them. -/
  candidate : Option Candidate
  enclosing : List (Option Candidate)

namespace Scanner

def start (cs : List Char) : Scanner where
  cursor := ⟨.start, cs⟩
  tokens := []
  count := 0
  indent := -1
  outer := []
  keyAllowed := true
  candidate := none
  enclosing := []

def inBrackets (s : Scanner) : Bool := !s.enclosing.isEmpty

def emit (t : Token) (s : Scanner) : Scanner :=
  { s with tokens := t :: s.tokens, count := s.count + 1 }

/-- Put in a token that has `before` tokens before it. -/
def insert (t : Token) (before : Nat) (s : Scanner) : Scanner :=
  let newer := s.count - before
  { s with tokens := s.tokens.take newer ++ t :: s.tokens.drop newer, count := s.count + 1 }

/-- Emit a mark and pass over its characters. -/
def mark (t : Token) (width : Nat) (s : Scanner) : Scanner :=
  { s.emit t with cursor := s.cursor.skipMany width }

def allowKey (allowed : Bool) (s : Scanner) : Scanner := { s with keyAllowed := allowed }

/-! ## Blocks -/

/-- Open a block at a column that is further right than the block around; its
mark has `before` tokens before it. -/
def openBlock (t : Token) (column before : Nat) (s : Scanner) : Scanner :=
  if !s.inBrackets && s.indent < column then
    { s.insert t before with indent := column, outer := s.indent :: s.outer }
  else s

/-- The blocks that are left when those to the right of a column are closed, and
how many are. -/
def closeTo (column indent : Int) : List Int → Int × List Int × Nat
  | [] => (indent, [], 0)
  | o :: os =>
    if column < indent then
      let (indent, outer, n) := closeTo column o os
      (indent, outer, n + 1)
    else (indent, o :: os, 0)

def closeBlocks (column : Int) (s : Scanner) : Scanner :=
  if s.inBrackets then s
  else
    let (indent, outer, n) := closeTo column s.indent s.outer
    Nat.repeat (emit .blockEnd) n { s with indent := indent, outer := outer }

/-! ## Keys -/

def keyLength : Nat := 1024

/-- Give up a candidate, unless it is required. -/
def giveUp? : Option Candidate → Option (Option Candidate)
  | some k => if k.required then none else some none
  | none => some none

/-- A candidate is given up behind its line or its length. -/
def refresh? (p : Place) (k : Option Candidate) : Option (Option Candidate) :=
  match k with
  | some c =>
    if c.start.line < p.line || c.start.index + keyLength < p.index then giveUp? k else some k
  | none => some none

def refreshKeys? (s : Scanner) : Option Scanner := do
  let candidate ← refresh? s.cursor.place s.candidate
  let enclosing ← s.enclosing.mapM (refresh? s.cursor.place)
  return { s with candidate := candidate, enclosing := enclosing }

def dropKey? (s : Scanner) : Option Scanner := do
  return { s with candidate := ← giveUp? s.candidate }

/-- A key may begin here. At the column of a block, it has to. -/
def noteKey? (s : Scanner) : Option Scanner :=
  if s.keyAllowed then do
    let s ← s.dropKey?
    let required := !s.inBrackets && s.indent == s.cursor.column
    return { s with candidate := some ⟨required, s.count, s.cursor.place⟩ }
  else some s

/-! ## Marks -/

/-- A mark outside of all blocks. -/
def outermost? (s : Scanner) : Option Scanner := (s.closeBlocks (-1)).dropKey?

def documentMark? (t : Token) (s : Scanner) : Option Scanner := do
  let s ← s.outermost?
  return (s.mark t 3).allowKey false

def directive? (s : Scanner) : Option Scanner := do
  let s ← s.outermost?
  let (t, c) ← readDirective? s.cursor
  return { s.emit t with cursor := c, keyAllowed := false }

def openBrackets? (t : Token) (s : Scanner) : Option Scanner := do
  let s ← s.noteKey?
  return { s.mark t 1 with
    keyAllowed := true, candidate := none, enclosing := s.candidate :: s.enclosing }

def closeBrackets? (t : Token) (s : Scanner) : Option Scanner := do
  let s ← s.dropKey?
  let s := (s.mark t 1).allowKey false
  match s.enclosing with
  | k :: ks => return { s with candidate := k, enclosing := ks }
  | [] => return s

def comma? (s : Scanner) : Option Scanner := do
  let s ← s.dropKey?
  return (s.mark .comma 1).allowKey true

/-- A dash or a question mark opens a block where a key might begin. -/
def openAt? (block : Token) (s : Scanner) : Option Scanner :=
  if s.inBrackets then some s
  else if s.keyAllowed then some (s.openBlock block s.cursor.column s.count)
  else none

def dash? (s : Scanner) : Option Scanner := do
  let s ← (← s.openAt? .listStart).dropKey?
  return (s.mark .dash 1).allowKey true

def explicitKey? (s : Scanner) : Option Scanner := do
  let s ← (← s.openAt? .mappingStart).dropKey?
  return (s.mark .key 1).allowKey (!s.inBrackets)

/-- A colon makes a key of the candidate; without one it goes with a key that is
marked or left out. -/
def colon? (s : Scanner) : Option Scanner :=
  match s.candidate with
  | some k =>
    let s := (s.insert .key k.before).openBlock .mappingStart k.start.column k.before
    some ({ s with candidate := none, keyAllowed := false }.mark .value 1)
  | none => do
    let s ← s.openAt? .mappingStart
    return (s.mark .value 1).allowKey (!s.inBrackets)

/-! ## Scalars and properties -/

def name? (t : String → Token) (s : Scanner) : Option Scanner := do
  let s ← s.noteKey?
  let (name, c) ← readName? s.cursor
  return { s.emit (t name) with cursor := c, keyAllowed := false }

def tag? (s : Scanner) : Option Scanner := do
  let s ← s.noteKey?
  let (t, c) ← readTag? s.inBrackets s.cursor
  return { s.emit t with cursor := c, keyAllowed := false }

def blockScalar? (folded : Bool) (s : Scanner) : Option Scanner := do
  let s ← s.dropKey?
  let (text, c) ← readBlockScalar folded (s.indent + 1).toNat s.cursor
  return { s.emit (.scalar false (String.ofList text)) with cursor := c, keyAllowed := true }

def quoted? (quote : Char) (s : Scanner) : Option Scanner := do
  let s ← s.noteKey?
  let (text, c) ← readQuoted quote s.cursor
  return { s.emit (.scalar false (String.ofList text)) with cursor := c, keyAllowed := false }

/-- A key may begin on the line after a plain scalar. -/
def plain? (s : Scanner) : Option Scanner := do
  let s ← s.noteKey?
  let (text, broken, c) ← readPlain s.inBrackets (s.indent + 1).toNat s.cursor
  return { s.emit (.scalar true (String.ofList text)) with cursor := c, keyAllowed := broken }

/-! ## The whole text -/

/-- Pass over spaces, comments and line ends up to the next token. A tab counts
as a space where no key can begin, a byte order mark at the start of a line. -/
def skipBlanks : Nat → Scanner → Scanner
  | 0, s => s
  | fuel + 1, s =>
    let c := s.cursor
    let c := if c.column = 0 && c.ahead.head? = some '\ufeff' then c.skip else c
    let tabs := s.inBrackets || !s.keyAllowed
    let c := (c.skipWhile fun x => x = ' ' || (tabs && x = '\t')).skipComment
    match c.ahead with
    | x :: _ =>
      if isBreak x then
        skipBlanks fuel
          { s with cursor := c.skipBreak, keyAllowed := s.keyAllowed || !s.inBrackets }
      else { s with cursor := c }
    | [] => { s with cursor := c }

/-- Read the token ahead, which begins with `x`. -/
def token? (s : Scanner) (x : Char) (after : List Char) : Option Scanner :=
  if s.cursor.column = 0 && x = '%' then s.directive?
  else if s.cursor.atOpening then s.documentMark? .opening
  else if s.cursor.atClosing then s.documentMark? .closing
  else if x = '[' then s.openBrackets? .openBracket
  else if x = '\x7b' then s.openBrackets? .openBrace
  else if x = ']' then s.closeBrackets? .closeBracket
  else if x = '\x7d' then s.closeBrackets? .closeBrace
  else if x = ',' then s.comma?
  else if x = '-' && atBlank after then s.dash?
  else if x = '?' && (s.inBrackets || atBlank after) then s.explicitKey?
  else if x = ':' && (s.inBrackets || atBlank after) then s.colon?
  else if x = '*' then s.name? .alias
  else if x = '&' then s.name? .anchor
  else if x = '!' then s.tag?
  else if x = '|' && !s.inBrackets then s.blockScalar? false
  else if x = '>' && !s.inBrackets then s.blockScalar? true
  else if x = '\'' || x = '"' then s.quoted? x
  else if beginsPlain s.inBrackets (x :: after) then s.plain?
  else none

/-- The tokens from here to the end of the text. -/
def run? : Nat → Scanner → Option (List Token)
  | 0, _ => none
  | fuel + 1, s => do
    let s ← (skipBlanks (s.cursor.ahead.length + 1) s).refreshKeys?
    let s := s.closeBlocks s.cursor.column
    match s.cursor.ahead with
    | [] => return (← s.outermost?).tokens.reverse
    | x :: after => run? fuel (← s.token? x after)

end Scanner

/-- The tokens of a text, if it is made of them. -/
def tokens? (text : String) : Option (List Token) :=
  let cs := text.toList
  if cs.all isAllowed then (Scanner.start cs).run? (cs.length + 1) else none

end SolverPortfolio.Yaml

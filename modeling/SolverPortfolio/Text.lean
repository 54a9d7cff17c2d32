import SolverPortfolio.Json

/-!
# Texts

What the library asks of texts: their octets, the parts between separators, phrases that are
replaced, the words between blanks, patterns that lines match, and escapes in double quotes.
-/

namespace SolverPortfolio.Text

/-!
## Octets

A text as the octets of its UTF-8 form.
-/

def octets (s : String) : List UInt8 := s.toUTF8.data.toList

/-- The text some octets are the form of, if they are that of any. -/
def ofOctets? (os : List UInt8) : Option String := String.fromUTF8? ⟨os.toArray⟩

/-- The characters at the front that fit in `n` octets. -/
def fitting : Nat → List Char → List Char
  | _, [] => []
  | n, c :: cs => if c.utf8Size ≤ n then c :: fitting (n - c.utf8Size) cs else []

/-!
## Parts of a text

The parts between the separators in a text; there is one part more than there
are separators, and any of them may be empty.
-/

/-- The parts of a text; the first characters of the first part, newest first,
are read. -/
def partsAfter (separator : Char) (part : List Char) : List Char → List (List Char)
  | [] => [part.reverse]
  | c :: cs =>
    if c = separator then part.reverse :: partsAfter separator [] cs
    else partsAfter separator (c :: part) cs

def parts (separator : Char) (text : String) : List String :=
  (partsAfter separator [] text.toList).map String.ofList

/-!
## Replacing a phrase

Occurrences are taken from the left and do not overlap. What is put in is not
searched again.
-/

/-- The text behind a phrase it begins with. -/
def after? : List Char → List Char → Option (List Char)
  | [], cs => some cs
  | _ :: _, [] => none
  | p :: ps, c :: cs => if p = c then after? ps cs else none

/-- Replace every occurrence; the first `skip` characters belong to an
occurrence that has been replaced. -/
def replaceFrom (phrase put : List Char) : Nat → List Char → List Char
  | _, [] => []
  | skip + 1, _ :: cs => replaceFrom phrase put skip cs
  | 0, c :: cs =>
    if (after? phrase (c :: cs)).isSome then put ++ replaceFrom phrase put (phrase.length - 1) cs
    else c :: replaceFrom phrase put 0 cs

/-- For a phrase of at least one character. -/
def replaceAll (phrase replacement : String) (text : String) : String :=
  String.ofList (replaceFrom phrase.toList replacement.toList 0 text.toList)

/-!
## Blanks and words

The characters of the Unicode property White_Space, and the words they
separate: the longest runs of other characters.
-/

/-- First and last code point of every range of White_Space. -/
def blankRanges : List (Nat × Nat) :=
  [(0x0009, 0x000D), (0x0020, 0x0020), (0x0085, 0x0085), (0x00A0, 0x00A0), (0x1680, 0x1680),
    (0x2000, 0x200A), (0x2028, 0x2029), (0x202F, 0x202F), (0x205F, 0x205F), (0x3000, 0x3000)]

def isBlank (c : Char) : Bool :=
  blankRanges.any fun (first, last) => first ≤ c.toNat && c.toNat ≤ last

/-- The words of a text whose first characters `word`, newest first, are read. -/
def wordsAfter (word : List Char) : List Char → List (List Char)
  | [] => if word.isEmpty then [] else [word.reverse]
  | c :: cs =>
    if isBlank c then
      if word.isEmpty then wordsAfter [] cs else word.reverse :: wordsAfter [] cs
    else wordsAfter (c :: word) cs

def words (cs : List Char) : List (List Char) := wordsAfter [] cs

/-- The text without the blanks at its ends. -/
def trim (cs : List Char) : List Char :=
  ((cs.dropWhile isBlank).reverse.dropWhile isBlank).reverse

/-!
## Patterns

A pattern is put together from its end: each part is given the pattern of what follows it. Where a
part can take more or fewer characters it tries them in its order, until what follows matches. One
part of a pattern may be its group; a match tells what the group has taken, and how many characters
there are in all.

A pattern is searched for at the beginnings of lines. The search goes on behind a match, so matches
do not overlap.
-/

/-- What the group has taken at the beginning of a text, and the length of the match. -/
abbrev Pattern (α : Type) := List Char → Option (α × Nat)

namespace Pattern

variable {α β : Type}

/-- A match behind `n` further characters. -/
def behind (n : Nat) (found : Option (α × Nat)) : Option (α × Nat) :=
  found.map fun (group, taken) => (group, taken + n)

/-- The end of a line: what comes next is a line feed or nothing. -/
def lineEnd : Pattern Unit
  | [] => some ((), 0)
  | c :: _ => if c = '\n' then some ((), 0) else none

def char (expected : Char) (next : Pattern α) : Pattern α
  | [] => none
  | c :: cs => if c = expected then behind 1 (next cs) else none

/-- Characters of one kind, rather more than fewer. -/
def many (kind : Char → Bool) (next : Pattern α) : Pattern α
  | [] => next []
  | c :: cs =>
    if kind c then (behind 1 (many kind next cs)).or (next (c :: cs)) else next (c :: cs)

/-- The group of characters of one kind, rather fewer than more. -/
def few (kind : Char → Bool) (next : Pattern Unit) : Pattern (List Char)
  | [] => (next []).map fun (_, taken) => ([], taken)
  | c :: cs =>
    match next (c :: cs) with
    | some (_, taken) => some ([], taken)
    | none =>
      if kind c then (few kind next cs).map fun (group, taken) => (c :: group, taken + 1) else none

/-- The group of one of several phrases, in their order. -/
def oneOf (phrases : List β) (text : β → String) (next : Pattern Unit) : Pattern β := fun cs =>
  phrases.findSome? fun phrase => do
    let rest ← after? (text phrase).toList cs
    let (_, taken) ← next rest
    return (phrase, taken + (text phrase).length)

/-- The groups of all matches that begin a line; the first `skip` characters belong to a match
already, and `atStart` says whether a line begins at the first character. A match is not empty. -/
def findAllFrom (pattern : Pattern α) : Nat → Bool → List Char → List α
  | _, _, [] => []
  | skip + 1, _, c :: cs => findAllFrom pattern skip (c == '\n') cs
  | 0, atStart, c :: cs =>
    match if atStart then pattern (c :: cs) else none with
    | some (group, taken) => group :: findAllFrom pattern (taken - 1) (c == '\n') cs
    | none => findAllFrom pattern 0 (c == '\n') cs

def findAll (pattern : Pattern α) (text : String) : List α :=
  findAllFrom pattern 0 true text.toList

end Pattern

/-!
## Escapes in double quotes

Between double quotes a backslash begins an escape: a letter that stands for a
character, or a letter followed by hexadecimal digits of a code point. Which
letters there are differs from notation to notation.
-/

structure Escapes where
  /-- The character a letter stands for. -/
  target? : Char → Option Char
  /-- How many digits follow a letter. -/
  digits? : Char → Option Nat
  /-- What may stand between the quotes without an escape. -/
  legal : Char → Bool

/-- The character with a code written in hexadecimal. -/
def charOfHex? (digits : List Char) : Option Char := do
  let ds ← digits.mapM Json.hexValue?
  let code := ds.foldl (fun n d => 16 * n + d) 0
  if code.isValidChar then some (Char.ofNat code) else none

/-- The characters up to the closing quote, and what follows it; the first
`skip` characters belong to an escape that has been read. -/
def Escapes.read (e : Escapes) : Nat → List Char → Option (List Char × List Char)
  | _, [] => none
  | skip + 1, _ :: cs => e.read skip cs
  | 0, '"' :: cs => some ([], cs)
  | 0, '\\' :: letter :: cs =>
    match e.target? letter, e.digits? letter with
    | some c, _ => (e.read 0 cs).map fun (s, rest) => (c :: s, rest)
    | none, some n => do
      if cs.length < n then none
      else
        let c ← charOfHex? (cs.take n)
        let (s, rest) ← e.read n cs
        return (c :: s, rest)
    | none, none => none
  | 0, c :: cs =>
    if c = '\\' || !e.legal c then none else (e.read 0 cs).map fun (s, rest) => (c :: s, rest)

end SolverPortfolio.Text

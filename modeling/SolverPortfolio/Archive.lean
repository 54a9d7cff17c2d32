import SolverPortfolio.Decimal
import SolverPortfolio.Json
import SolverPortfolio.Run
import SolverPortfolio.Text

/-!
# The archive

Sessions are kept under identifiers, with the times they began and ended. Days, points in time and
identifiers have texts that are read back.
-/

namespace SolverPortfolio

/-!
## Days of the calendar

The Gregorian calendar, run backwards past its beginning: the year 0 is there,
and so are the years before it.
-/

structure Day where
  year : Int
  month : Nat
  day : Nat
deriving DecidableEq

namespace Day

def isLeapYear (year : Int) : Bool :=
  year % 4 = 0 && (year % 100 != 0 || year % 400 = 0)

def daysIn (year : Int) (month : Nat) : Nat :=
  if month = 2 then if isLeapYear year then 29 else 28
  else if [4, 6, 9, 11].contains month then 30
  else 31

/-- The first and the last year that are told apart. -/
def firstYear : Int := -262143

def lastYear : Int := 262142

def isValid (d : Day) : Bool :=
  firstYear ≤ d.year && d.year ≤ lastYear && 1 ≤ d.month && d.month ≤ 12 && 1 ≤ d.day &&
    d.day ≤ daysIn d.year d.month

/-! ### Neighbours -/

def previous (d : Day) : Day :=
  if 1 < d.day then { d with day := d.day - 1 }
  else if 1 < d.month then ⟨d.year, d.month - 1, daysIn d.year (d.month - 1)⟩
  else ⟨d.year - 1, 12, 31⟩

def next (d : Day) : Day :=
  if d.day < daysIn d.year d.month then { d with day := d.day + 1 }
  else if d.month < 12 then ⟨d.year, d.month + 1, 1⟩
  else ⟨d.year + 1, 1, 1⟩

/-- Going on within a month and back again changes nothing. -/
theorem previous_next (d : Day) (h : d.day < daysIn d.year d.month) (hd : 1 ≤ d.day) :
    d.next.previous = d := by
  simp only [next, if_pos h, previous]
  rw [if_pos (by omega)]
  simp

end Day

/-!
## Points in time

Universal time to the nanosecond, written as `2024-01-02T03:04:05.250Z`: the
fraction has three, six or nine digits, as many as it takes, or is left out. A
year beyond four digits has its sign.

Reading is more generous: numbers may be short and have blanks around them, and
a time told with the offset of its zone is moved to universal time.
-/

open Decimal

/-- A second of 60 is a leap second. -/
structure Instant where
  date : Day
  hour : Nat
  minute : Nat
  second : Nat
  nanosecond : Nat
deriving DecidableEq

namespace Instant

def isValid (t : Instant) : Bool :=
  t.date.isValid && t.hour < 24 && t.minute < 60 && t.second ≤ 60

/-! ### Writing -/

/-- At least `width` digits, with leading zeros. -/
def padded (width n : Nat) : List Char :=
  let ds := digits n
  digitChars (List.replicate (width - ds.length) 0 ++ ds)

def yearChars (year : Int) : List Char :=
  if year < 0 then '-' :: padded 4 year.natAbs
  else if 9999 < year then '+' :: padded 4 year.natAbs
  else padded 4 year.natAbs

def fractionChars (nanosecond : Nat) : List Char :=
  if nanosecond = 0 then []
  else if nanosecond % 1000000 = 0 then '.' :: padded 3 (nanosecond / 1000000)
  else if nanosecond % 1000 = 0 then '.' :: padded 6 (nanosecond / 1000)
  else '.' :: padded 9 nanosecond

def chars (t : Instant) : List Char :=
  yearChars t.date.year ++ '-' :: padded 2 t.date.month ++ '-' :: padded 2 t.date.day ++
    'T' :: padded 2 t.hour ++ ':' :: padded 2 t.minute ++ ':' :: padded 2 t.second ++
    fractionChars t.nanosecond ++ ['Z']

def text (t : Instant) : String := String.ofList t.chars

/-! ### Reading the parts -/

def skipBlanks (cs : List Char) : List Char := cs.dropWhile Text.isBlank

/-- A number of one digit to `width` digits, which begins here. -/
def readDigits? (width : Nat) (cs : List Char) : Option (Nat × List Char) :=
  match (spanDigits (cs.take width)).1 with
  | [] => none
  | ds => some (ofDigits ds, cs.drop ds.length)

/-- A number that may have blanks in front of it. -/
def readNumber? (width : Nat) (cs : List Char) : Option (Nat × List Char) :=
  readDigits? width (skipBlanks cs)

/-- A year has four digits at most, unless it has a sign. -/
def readYear? (cs : List Char) : Option (Int × List Char) :=
  match skipBlanks cs with
  | '-' :: cs => (readDigits? cs.length cs).map fun (n, rest) => (-Int.ofNat n, rest)
  | '+' :: cs => (readDigits? cs.length cs).map fun (n, rest) => (Int.ofNat n, rest)
  | cs => (readDigits? 4 cs).map fun (n, rest) => (Int.ofNat n, rest)

/-- A number of two digits at most behind a mark. -/
def readAfter? (mark : Char) (cs : List Char) : Option (Nat × List Char) :=
  match skipBlanks cs with
  | c :: cs => if c = mark then readNumber? 2 cs else none
  | [] => none

/-- What stands behind the mark between the day and the hour. -/
def skipDivide? : List Char → Option (List Char)
  | 'T' :: cs | 't' :: cs | ' ' :: cs => some cs
  | _ => none

/-- A fraction to nine digits; further ones are dropped. -/
def readFraction? (cs : List Char) : Option (Nat × List Char) :=
  match cs with
  | '.' :: cs =>
    match spanDigits cs with
    | ([], _) => none
    | (ds, rest) => some (ofDigits ((ds ++ List.replicate 9 0).take 9), rest)
  | cs => some (0, cs)

/-! ### Zones -/

/-- A number of exactly two digits. -/
def readPair? : List Char → Option (Nat × List Char)
  | c :: d :: cs => do
    let m ← digitOf? c
    let n ← digitOf? d
    return (10 * m + n, cs)
  | _ => none

/-- Hours and minutes, as minutes; colons and blanks may part them. -/
def readOffset? (cs : List Char) : Option (Nat × List Char) := do
  let (hours, cs) ← readPair? cs
  let (minutes, cs) ← readPair? (cs.dropWhile fun c => c = ':' || Text.isBlank c)
  if hours < 24 ∧ minutes < 60 then some (60 * hours + minutes, cs) else none

/-- How many minutes the clock of a zone is ahead. -/
def readZone? (cs : List Char) : Option (Int × List Char) :=
  if (cs.take 3).map Char.toUpper = ['U', 'T', 'C'] then some (0, cs.drop 3)
  else
    match cs with
    | 'Z' :: cs | 'z' :: cs => some (0, cs)
    | '+' :: cs => (readOffset? cs).map fun (n, rest) => (Int.ofNat n, rest)
    | '-' :: cs | '−' :: cs => (readOffset? cs).map fun (n, rest) => (-Int.ofNat n, rest)
    | _ => none

/-- The point in time that a clock shows which is `ahead` minutes ahead, by less
than a day. -/
def behind (t : Instant) (ahead : Int) : Instant :=
  let minutes := Int.ofNat (60 * t.hour + t.minute) - ahead
  let date :=
    if minutes < 0 then t.date.previous
    else if minutes < 1440 then t.date
    else t.date.next
  { t with date := date, hour := (minutes % 1440 / 60).toNat, minute := (minutes % 60).toNat }

/-! ### Reading -/

def parse (s : String) : Option Instant := do
  let (year, cs) ← readYear? s.toList
  let (month, cs) ← readAfter? '-' cs
  let (day, cs) ← readAfter? '-' cs
  let (hour, cs) ← readNumber? 2 (← skipDivide? cs)
  let (minute, cs) ← readAfter? ':' cs
  let (second, cs) ← readAfter? ':' cs
  let (nanosecond, cs) ← readFraction? cs
  let (ahead, cs) ← readZone? (skipBlanks cs)
  let clock : Instant := ⟨⟨year, month, day⟩, hour, minute, second, nanosecond⟩
  if cs.all Text.isBlank ∧ clock.isValid ∧ (clock.behind ahead).isValid then
    some (clock.behind ahead)
  else none

end Instant

end SolverPortfolio

namespace SolverPortfolio

/-!
## Identifiers of records

Thirty-two hexadecimal digits, written in lower case and in five groups. They
may be read without the groups, and the groups in braces or behind the name of
their scheme.
-/

structure RecordId where
  digits : List Nat
deriving DecidableEq

namespace RecordId

/-- The sizes of the groups before the last one. -/
def groups : List Nat := [8, 4, 4, 4]

/-- The digits with a dash behind each of the groups. -/
def dashed : List Nat → List Char → List Char
  | [], cs => cs
  | n :: ns, cs => cs.take n ++ '-' :: dashed ns (cs.drop n)

def text (id : RecordId) : String :=
  String.ofList (dashed groups (id.digits.map Json.hexDigit))

/-! ### Reading -/

/-- The digits without the dashes, each of which has to be in its place. -/
def undashed? : List Nat → List Char → Option (List Char)
  | [], cs => some cs
  | n :: ns, cs =>
    match cs.drop n with
    | '-' :: rest => (undashed? ns rest).map (cs.take n ++ ·)
    | _ => none

def ofHex? (cs : List Char) : Option RecordId := do
  let ds ← cs.mapM Json.hexValue?
  if ds.length = 32 then some ⟨ds⟩ else none

def scheme : List Char := "urn:uuid:".toList

/-- The groups that braces may be around, or the name of the scheme in front of. -/
def bare (cs : List Char) : List Char :=
  if (cs.take scheme.length).map Char.toLower = scheme then cs.drop scheme.length
  else
    match cs with
    | '\x7b' :: rest => if rest.getLast? = some '\x7d' then rest.dropLast else cs
    | cs => cs

def parse (s : String) : Option RecordId :=
  let cs := s.toList
  if cs.length = 32 then ofHex? cs
  else (undashed? groups (bare cs)).bind ofHex?

end RecordId

/-!
## Archived sessions

The record of a session as it is kept: under an identifier, with the times it
began and ended.
-/

structure ArchivedSession (α : Type) where
  id : RecordId
  record : SessionRecord α
  startedAt : Instant
  finishedAt : Instant

end SolverPortfolio

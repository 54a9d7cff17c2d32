import SolverPortfolio.Error
import SolverPortfolio.Run

/-!
# Outcome counts

A count array has a row per action and a column per outcome, stored row by row.
Cells are words of 32 bits. So are row totals where the library adds them up (`total?`); it stops
at a row with more observations (`hasTotals`), and at one more outcome in a full cell (`increment`).
-/

namespace SolverPortfolio

structure Counts where
  nactions : Nat
  noutcomes : Nat
  cells : List UInt32
deriving DecidableEq

namespace Counts

def zeros (nactions noutcomes : Nat) : Counts :=
  ⟨nactions, noutcomes, List.replicate (nactions * noutcomes) 0⟩

/-- The first row sets the number of columns; a row of another length is
reported with it. -/
def ofRows (rows : List (List UInt32)) : Except ShapeMismatch Counts :=
  let width := (rows.head?.map List.length).getD 0
  match rows.find? fun row => row.length != width with
  | some row => .error ⟨rows.length, width, rows.length, row.length⟩
  | none => .ok ⟨rows.length, width, rows.flatten⟩

/-- The place of a cell in storage order. -/
def place (c : Counts) (action outcome : Nat) : Nat := action * c.noutcomes + outcome

def get (c : Counts) (action outcome : Nat) : UInt32 := c.cells.getD (c.place action outcome) 0

def row (c : Counts) (action : Nat) : List UInt32 :=
  (c.cells.drop (action * c.noutcomes)).take c.noutcomes

def rows (c : Counts) : List (List UInt32) := (List.range c.nactions).map c.row

def isZero (c : Counts) : Bool := c.cells.all (· == 0)

/-! ## Totals -/

/-- The number of observations of an action. -/
def total (c : Counts) (action : Nat) : Nat :=
  (c.row action).foldl (fun total x => total + x.toNat) 0

/-- The sum of two counts, if it is a count. -/
def plus? (x y : UInt32) : Option UInt32 :=
  if x.toNat + y.toNat < Nat.pow 2 32 then some (x + y) else none

/-- The total of a row as it is added up. -/
def total? (c : Counts) (action : Nat) : Option UInt32 := (c.row action).foldlM plus? 0

/-- The rows of the first actions can be added up. -/
def hasTotals (c : Counts) (nactions : Nat) : Bool :=
  (List.range nactions).all fun a => (c.total? a).isSome

/-- The actions that were run at all. -/
def observed (c : Counts) (nactions : Nat) : List Nat :=
  (List.range nactions).filter fun a => c.total a != 0

/-! ## One more outcome -/

/-- There is room for one more in a cell. -/
def hasRoom (c : Counts) (action outcome : Nat) : Bool :=
  (plus? (c.get action outcome) 1).isSome

/-- The counts with one more in a cell that has room for it. -/
def bump (c : Counts) (action outcome : Nat) : Counts :=
  { c with cells := c.cells.modify (c.place action outcome) (· + 1) }

def increment (c : Counts) (action outcome : Nat) : Option Counts :=
  if c.hasRoom action outcome then some (c.bump action outcome) else none

/-- One more outcome of an action. -/
def record (c : Counts) (action : Nat) (kind : OutcomeKind) : Option Counts :=
  c.increment action kind.index

/-! ## Shapes -/

def checkShape (c : Counts) (nactions noutcomes : Nat) : Except ShapeMismatch Unit :=
  if c.nactions = nactions ∧ c.noutcomes = noutcomes then .ok ()
  else .error ⟨nactions, noutcomes, c.nactions, c.noutcomes⟩

/-- The history of a session before its first run. -/
def fresh (nactions : Nat) : Counts := zeros nactions OutcomeKind.count

end Counts

/-- A count as a number to calculate with. -/
def ofCount {α : Type} [Scalar α] (c : UInt32) : α := Scalar.ofNat c.toNat

end SolverPortfolio

import SolverPortfolio.Scalar

/-!
# Seeded draws

Draws come from the key stream of ChaCha with six double rounds. The key is
spread from a word of 64 bits; blocks are counted from zero and the nonce is
zero. Two consecutive words of a block make one draw, the low one first.

The sixteen words of a block are held as four rows. A round works on the four
columns at once; turning the rows against each other makes the diagonals
columns.
-/

namespace SolverPortfolio.Randomness

/-! ## Rows of a block -/

structure Row where
  x0 : UInt32
  x1 : UInt32
  x2 : UInt32
  x3 : UInt32
deriving DecidableEq

namespace Row

def zipWith (f : UInt32 → UInt32 → UInt32) (a b : Row) : Row :=
  ⟨f a.x0 b.x0, f a.x1 b.x1, f a.x2 b.x2, f a.x3 b.x3⟩

def rotateWord (n : UInt32) (x : UInt32) : UInt32 := (x <<< n) ||| (x >>> (32 - n))

/-- The sum of two rows rotated into the difference: `(b ^ a) <<< n`. -/
def mix (n : UInt32) (b a : Row) : Row := zipWith (fun x y => rotateWord n (x ^^^ y)) b a

def add (a b : Row) : Row := zipWith (· + ·) a b

def turn (a : Row) : Row := ⟨a.x1, a.x2, a.x3, a.x0⟩

def words (a : Row) : List UInt32 := [a.x0, a.x1, a.x2, a.x3]

end Row

structure Block where
  a : Row
  b : Row
  c : Row
  d : Row
deriving DecidableEq

namespace Block

def columnRound (s : Block) : Block :=
  let a := s.a.add s.b
  let d := s.d.mix 16 a
  let c := s.c.add d
  let b := s.b.mix 12 c
  let a := a.add b
  let d := d.mix 8 a
  let c := c.add d
  let b := b.mix 7 c
  ⟨a, b, c, d⟩

/-- Turn the rows so that diagonals become columns. -/
def slant (s : Block) : Block := ⟨s.a, s.b.turn, s.c.turn.turn, s.d.turn.turn.turn⟩

def unslant (s : Block) : Block := ⟨s.a, s.b.turn.turn.turn, s.c.turn.turn, s.d.turn⟩

def doubleRound (s : Block) : Block := s.columnRound.slant.columnRound.unslant

def add (s t : Block) : Block := ⟨s.a.add t.a, s.b.add t.b, s.c.add t.c, s.d.add t.d⟩

def words (s : Block) : List UInt32 := s.a.words ++ s.b.words ++ s.c.words ++ s.d.words

/-- The key stream block of a state. -/
def output (s : Block) : Block := (Nat.repeat doubleRound 6 s).add s

end Block

/-! ## The key -/

structure Key where
  low : Row
  high : Row
deriving DecidableEq

def spread (s : UInt64) : UInt64 := s * 6364136223846793005 + 11634580027462260723

def keyWord (s : UInt64) : UInt32 :=
  let x := (((s >>> 18) ^^^ s) >>> 27).toUInt32
  Row.rotateWord ((32 : UInt32) - (s >>> 59).toUInt32) x

/-- Four key words, and the state they leave behind. -/
def keyRow (s : UInt64) : Row × UInt64 :=
  let s0 := spread s
  let s1 := spread s0
  let s2 := spread s1
  let s3 := spread s2
  (⟨keyWord s0, keyWord s1, keyWord s2, keyWord s3⟩, s3)

def Key.ofSeed (seed : UInt64) : Key :=
  let (low, s) := keyRow seed
  ⟨low, (keyRow s).1⟩

/-! ## The stream -/

/-- The words `expand 32-byte k`. -/
def constants : Row := ⟨0x61707865, 0x3320646e, 0x79622d32, 0x6b206574⟩

def Key.block (k : Key) (counter : UInt64) : Block :=
  Block.output ⟨constants, k.low, k.high,
    ⟨counter.toUInt32, (counter >>> 32).toUInt32, 0, 0⟩⟩

/-- Words in pairs, the low half first. -/
def pairs : List UInt32 → List UInt64
  | low :: high :: rest => (low.toUInt64 ||| (high.toUInt64 <<< 32)) :: pairs rest
  | _ => []

/-- A key, the number of the next block and the draws left of the last one. -/
structure Stream where
  key : Key
  counter : UInt64
  ready : List UInt64

namespace Stream

def ofSeed (seed : UInt64) : Stream := ⟨Key.ofSeed seed, 0, []⟩

def next (s : Stream) : UInt64 × Stream :=
  match s.ready with
  | u :: rest => (u, { s with ready := rest })
  | [] =>
    let draws := pairs (s.key.block s.counter).words
    (draws.headD 0, ⟨s.key, s.counter + 1, draws.tail⟩)

variable {α : Type} [Scalar α]

/-- The upper 52 bits of a draw as a fraction in `[0, 1)`. -/
def fraction (u : UInt64) : α := Scalar.ofNat (u >>> 12).toNat / Scalar.ofNat (Nat.pow 2 52)

/-- `n` fractions and the stream after them. -/
def take : Nat → Stream → List α × Stream
  | 0, s => ([], s)
  | n + 1, s =>
    let (u, s) := s.next
    let (xs, s) := take n s
    (fraction u :: xs, s)

/-- `n` rows of `m` fractions each. -/
def takeRows (m : Nat) : Nat → Stream → List (List α) × Stream
  | 0, s => ([], s)
  | n + 1, s =>
    let (row, s) := take m s
    let (rows, s) := takeRows m n s
    (row :: rows, s)

end Stream

/-- What the machine supplies where no seed is given: a stream to draw from, and a seed to keep. -/
structure Entropy where
  stream : Stream
  seed : UInt64

namespace Entropy

/-- The stream to draw from. -/
def streamFor (e : Entropy) : Option Nat → Stream
  | some seed => Stream.ofSeed (UInt64.ofNat seed)
  | none => e.stream

/-- The seed to keep. -/
def seedFor (e : Entropy) : Option Nat → UInt64
  | some seed => UInt64.ofNat seed
  | none => e.seed

end Entropy

end SolverPortfolio.Randomness

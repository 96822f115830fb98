/-!
# The random stream

Randomness is a stream of 64-bit words computed from a seed: the ChaCha20 block function over a 256-bit
key, a stream number and a block counter.  A `Generator` is a place in such a stream, and drawing a word
moves it on by one.  The word at a position depends on the key, the stream and the position alone, so a
stream can be entered anywhere.

## Main Definitions

* `Generator` — key, stream number and position
* `Generator.ofSeed` — the stream of a 64-bit seed
* `Generator.word` — the word at the current position
* `Drawing` — computations that draw from a generator
-/

namespace EncryptedReals

-- Powers are those of the core library, whatever else is in scope.
attribute [local instance (2000)] instPowNat

/-- Four words of the block state. -/
structure Row where
  x0 : UInt32
  x1 : UInt32
  x2 : UInt32
  x3 : UInt32
deriving DecidableEq

namespace Row

@[inline]
def add (a b : Row) : Row := ⟨a.x0 + b.x0, a.x1 + b.x1, a.x2 + b.x2, a.x3 + b.x3⟩

/-- Exclusive or, then a rotation of each word to the left. -/
@[inline]
def xorRotate (a b : Row) (k : UInt32) : Row :=
  let turn (x : UInt32) : UInt32 := (x <<< k) ||| (x >>> (32 - k))
  ⟨turn (a.x0 ^^^ b.x0), turn (a.x1 ^^^ b.x1), turn (a.x2 ^^^ b.x2), turn (a.x3 ^^^ b.x3)⟩

/-- The words moved one place to the left. -/
@[inline]
def rotate (a : Row) : Row := ⟨a.x1, a.x2, a.x3, a.x0⟩

end Row

/-- The sixteen words of a block, as four rows. -/
structure Block where
  a : Row
  b : Row
  c : Row
  d : Row
deriving DecidableEq

namespace Block

/-- The quarter round on all four columns. -/
@[inline]
def columnRound (s : Block) : Block :=
  let a := s.a.add s.b
  let d := s.d.xorRotate a 16
  let c := s.c.add d
  let b := s.b.xorRotate c 12
  let a := a.add b
  let d := d.xorRotate a 8
  let c := c.add d
  let b := b.xorRotate c 7
  ⟨a, b, c, d⟩

/-- A round on the columns and one on the diagonals. -/
def doubleRound (s : Block) : Block :=
  let s := s.columnRound
  let s := columnRound ⟨s.a, s.b.rotate, s.c.rotate.rotate, s.d.rotate.rotate.rotate⟩
  ⟨s.a, s.b.rotate.rotate.rotate, s.c.rotate.rotate, s.d.rotate⟩

def rounds : Nat → Block → Block
  | 0, s => s
  | n + 1, s => rounds n s.doubleRound

/-- **The block function**: twenty rounds, and the initial state added. -/
def output (s : Block) : Block :=
  let r := rounds 10 s
  ⟨r.a.add s.a, r.b.add s.b, r.c.add s.c, r.d.add s.d⟩

/-- Two neighbouring words as one, the first of them the low half. -/
def join (low high : UInt32) : UInt64 :=
  high.toUInt64 <<< 32 ||| low.toUInt64

/-- The `i`-th of the eight 64-bit words of a block. -/
def pair (s : Block) : Nat → UInt64
  | 0 => join s.a.x0 s.a.x1
  | 1 => join s.a.x2 s.a.x3
  | 2 => join s.b.x0 s.b.x1
  | 3 => join s.b.x2 s.b.x3
  | 4 => join s.c.x0 s.c.x1
  | 5 => join s.c.x2 s.c.x3
  | 6 => join s.d.x0 s.d.x1
  | _ => join s.d.x2 s.d.x3

end Block

/-- **A place in a random stream.** -/
structure Generator where
  keyLow : Row
  keyHigh : Row
  stream : UInt64
  /-- The number of 64-bit words before this place. -/
  position : Nat
deriving DecidableEq

namespace Generator

/-! ### Seeding -/

/-- One step of the congruential sequence that spreads a seed over the key. -/
def seedStep (state : UInt64) : UInt64 :=
  state * 6364136223846793005 + 11634580027462260723

/-- The word that a state of the sequence gives: its mixed high bits, rotated by the highest five. -/
def seedWord (state : UInt64) : UInt32 :=
  let x := (((state >>> 18) ^^^ state) >>> 27).toUInt32
  let k := (state >>> 59).toUInt32
  (x >>> k) ||| (x <<< ((32 - k) % 32))

/-- Four words of key, and the state they leave. -/
def seedRow (state : UInt64) : Row × UInt64 :=
  let s0 := seedStep state
  let s1 := seedStep s0
  let s2 := seedStep s1
  let s3 := seedStep s2
  (⟨seedWord s0, seedWord s1, seedWord s2, seedWord s3⟩, s3)

/-- **The start of the stream of a seed.** -/
def ofSeed (seed : UInt64) : Generator :=
  let (low, state) := seedRow seed
  let (high, _) := seedRow state
  ⟨low, high, 0, 0⟩

/-- The same key on another stream. -/
def onStream (g : Generator) (stream : UInt64) : Generator :=
  { g with stream }

/-- The same stream at another place. -/
def atPosition (g : Generator) (position : Nat) : Generator :=
  { g with position }

/-! ### Words -/

/-- The initial state of a block. -/
def initial (g : Generator) (counter : UInt64) : Block where
  a := ⟨0x61707865, 0x3320646e, 0x79622d32, 0x6b206574⟩
  b := g.keyLow
  c := g.keyHigh
  d := ⟨counter.toUInt32, (counter >>> 32).toUInt32, g.stream.toUInt32, (g.stream >>> 32).toUInt32⟩

/-- **The word at a generator's place.** -/
def word (g : Generator) : UInt64 :=
  (g.initial (UInt64.ofNat (g.position / 8))).output.pair (g.position % 8)

/-- The next place. -/
def next (g : Generator) : Generator :=
  { g with position := g.position + 1 }

end Generator

/-- **A computation that draws from a generator.** -/
abbrev Drawing := StateM Generator

namespace Drawing

/-- The next word of the stream. -/
def word : Drawing UInt64 :=
  fun g => (g.word, g.next)

/-- A vector of independent draws, appended to those already made. -/
def vectorFrom {α : Type} (d : Drawing α) : (count : Nat) → Array α → Drawing (Array α)
  | 0, acc => pure acc
  | count + 1, acc => do
    let x ← d
    vectorFrom d count (acc.push x)

/-- A vector of independent draws. -/
def vector {α : Type} (count : Nat) (d : Drawing α) : Drawing (Array α) :=
  vectorFrom d count #[]

/-- Repeats a draw until it is accepted, at most `fuel` times, and then takes the fallback. -/
def retry {α : Type} (d : Drawing (Option α)) (fallback : α) : (fuel : Nat) → Drawing α
  | 0 => pure fallback
  | fuel + 1 => do
    match ← d with
    | some x => pure x
    | none => retry d fallback fuel

/-- Tries enough for any acceptance rate that is met in practice. -/
def patience : Nat := 2 ^ (40 : Nat)

/-! ### Distributions -/

/-- A multiple of `2 ^ -53` in `[0, 1)`. -/
def unit : Drawing Float := do
  let w ← word
  return (w >>> 11).toFloat * Float.ofBits 0x3ca0000000000000

/-- A point strictly between 0 and 1. -/
def openUnit : Drawing Float := do
  let w ← word
  return Float.ofBits ((w >>> 12) ||| 0x3ff0000000000000) - Float.ofBits 0x3fefffffffffffff

/-- **A number below `range`**: the high word of a word times `range`.  When the low word leaves the high
one in doubt, a second word decides on the carry. -/
def below (range : Nat) : Drawing Nat := do
  let product := (← word).toNat * range
  let high := product / 2 ^ (64 : Nat)
  let low := product % 2 ^ (64 : Nat)
  if 2 ^ (64 : Nat) - range < low then
    let carry := (← word).toNat * range / 2 ^ (64 : Nat)
    return if 2 ^ (64 : Nat) ≤ low + carry then high + 1 else high
  else
    return high

end Drawing

end EncryptedReals

import EncryptedReals.BitLength

/-!
# Arithmetic modulo one prime

Residues of a `Modulus` are natural numbers; the canonical ones are below the modulus.  The operations
are total and keep canonical residues canonical.  A signed integer enters through `Modulus.reduce` and
leaves through `Modulus.center`, which picks the representative nearest to zero.

## Design Notes

Residues are not a quotient type: a vector of residues may meet another modulus than the one it was
reduced by, and what happens then is part of the behaviour.  Sums and differences are taken in 64-bit words
and wrap around.  Moduli stay below `2 ^ 60` wherever a chain is generated, so on canonical residues
nothing wraps.
-/

namespace EncryptedReals

-- Lists have the sums of the core library, whatever else is in scope.
attribute [local instance (2000)] Zero.ofOfNat0

/-- **A modulus of the chain.** -/
structure Modulus where
  value : Nat
deriving DecidableEq

namespace Modulus

/-- The width of a modulus. -/
def bits (q : Modulus) : Nat :=
  bitLength q.value

/-- A residue is canonical when it is below the modulus. -/
def Canonical (q : Modulus) (a : Nat) : Prop :=
  a < q.value

/-- The modulus as a word. -/
def word (q : Modulus) : UInt64 :=
  q.value.toUInt64

/-! ### Operations on residues -/

/-- Sum of two residues, by one conditional subtraction. -/
def add (q : Modulus) (a b : Nat) : Nat :=
  let sum := a.toUInt64 + b.toUInt64
  if q.word ≤ sum then (sum - q.word).toNat else sum.toNat

/-- Difference of two residues, by one conditional addition. -/
def sub (q : Modulus) (a b : Nat) : Nat :=
  if b ≤ a then a - b else (q.word - b.toUInt64 + a.toUInt64).toNat

/-- Product of two residues. -/
def mul (q : Modulus) (a b : Nat) : Nat :=
  a * b % q.value

/-- Negation of a residue. -/
def neg (q : Modulus) (a : Nat) : Nat :=
  if a = 0 then 0 else (q.word - a.toUInt64).toNat

/-- Square and multiply over the bits of the exponent, lowest first.  `bits` bounds their number. -/
def powBits (q : Modulus) : (bits exponent base result : Nat) → Nat
  | 0, _, _, result => result
  | bits + 1, exponent, base, result =>
    powBits q bits (exponent / 2) (q.mul base base)
      (if exponent % 2 = 1 then q.mul result base else result)

/-- Power of a residue.  The empty product is 1, also modulo 1. -/
def pow (q : Modulus) (base exponent : Nat) : Nat :=
  powBits q (bitLength exponent) exponent (base % q.value) 1

/-- Inverse modulo a prime: the power `q - 2`. -/
def inv (q : Modulus) (a : Nat) : Nat :=
  q.pow a (q.word - 2).toNat

/-! ### Signed integers -/

/-- The canonical residue of an integer. -/
def reduce (q : Modulus) (x : Int) : Nat :=
  (x % (q.value : Int)).toNat

/-- The canonical residue of a signed word. -/
def reduceWord (q : Modulus) (x : Int64) : Nat :=
  q.reduce x.toInt

/-- The canonical residue of an integer of any width: the remainder with the sign of the integer, and the
modulus added to a negative one. -/
def reduceWide (q : Modulus) (x : Int) : Nat :=
  let r := x.tmod q.value
  (if r < 0 then r + q.value else r).toNat

/-- The representative of a residue in `(-q/2, q/2]`. -/
def center (q : Modulus) (a : Nat) : Int :=
  if q.value / 2 < a then (-(q.word - a.toUInt64).toInt64).toInt else a

end Modulus

/-- The bits of a product of moduli, counted as the sum of their widths. -/
def totalBits (moduli : List Modulus) : Nat :=
  (moduli.map Modulus.bits).sum

end EncryptedReals

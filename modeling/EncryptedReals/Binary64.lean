import EncryptedReals.BitLength

/-!
# The exact value of a double

A finite double is `± mantissa * 2 ^ exponent` with natural `mantissa` and integer `exponent`.  This
module reads that value off the bits, rounds it to an integer, measures its width, and goes back from
an integer to the nearest double.  Everything here is exact arithmetic on `Nat` and `Int`, so what the
encoder does with a double can be reasoned about without a theory of rounding errors.

## Main Definitions

* `Binary64.ofFloat?` — the exact value of a double, `none` for NaN and the infinities
* `Binary64.round` — the nearest integer, a half going away from zero
* `Binary64.floorLog2` — the binary exponent of the leading bit
* `Binary64.floorOfLog2` — the integral part of the logarithm, after the logarithm was rounded
* `Binary64.nearest` — the double nearest to an integer, a tie going to the even mantissa
-/

namespace EncryptedReals

-- Powers are those of the core library, whatever else is in scope.
attribute [local instance (2000)] instPowNat

/-- **A finite double, read exactly**: `mantissa * 2 ^ exponent`, negated when `negative`. -/
structure Binary64 where
  negative : Bool
  mantissa : Nat
  exponent : Int
deriving DecidableEq

namespace Binary64

/-- The value of a finite double; NaN and the infinities have none. -/
def ofFloat? (x : Float) : Option Binary64 :=
  let bits := x.toBits.toNat
  let field : Nat := bits / 2 ^ (52 : Nat) % 2048
  let fraction : Nat := bits % 2 ^ (52 : Nat)
  let negative := decide (2 ^ (63 : Nat) ≤ bits)
  if field = 2047 then none
  else if field = 0 then some ⟨negative, fraction, -1074⟩
  else some ⟨negative, 2 ^ (52 : Nat) + fraction, (field : Int) - 1075⟩

/-- Multiplication by `2 ^ k` moves the exponent and nothing else. -/
def shift (x : Binary64) (k : Int) : Binary64 :=
  { x with exponent := x.exponent + k }

/-- The natural number nearest to the absolute value, a half going up. -/
def roundMagnitude (x : Binary64) : Nat :=
  if 0 ≤ x.exponent then
    x.mantissa * 2 ^ x.exponent.toNat
  else
    let den := 2 ^ (-x.exponent).toNat
    (2 * x.mantissa + den) / (2 * den)

/-- **The nearest integer**, a half going away from zero. -/
def round (x : Binary64) : Int :=
  if x.negative then -(x.roundMagnitude : Int) else x.roundMagnitude

/-- The binary exponent of the leading bit: `2 ^ k ≤ |x| < 2 ^ (k + 1)` for a nonzero `x`. -/
def floorLog2 (x : Binary64) : Int :=
  (x.mantissa.log2 : Int) + x.exponent

/-- Whether the logarithm of `2 ^ e * (1 - gap / full)` is `e` once it is rounded to a double.

The logarithm lies `gap / (full * ln 2)` below `e`.  Just below `e` the doubles are `2 ^ (b - 53)` apart,
where `b` is the bit length of `e - 1`, and the logarithm rounds to `e` when it is less than half of
that away.  The constant is `ln 2 / 2`. -/
def logRoundsUp (e gap full : Nat) : Bool :=
  e != 0 && gap * 2 ^ (53 : Nat) * 10 ^ (10 : Nat) < 3465735903 * 2 ^ bitLength (e - 1) * full

/-- **The integral part of the rounded logarithm** to base two, for a nonzero `x`.

This is `floorLog2` except for the values that lie so little below a power of two that their logarithm
is not told apart from an integer. -/
def floorOfLog2 (x : Binary64) : Int :=
  let below := x.floorLog2
  let full := 2 ^ (x.mantissa.log2 + 1)
  if logRoundsUp (below + 1).toNat (full - x.mantissa) full then below + 1 else below

/-- Dividing by `den` and rounding to nearest, a tie going to the even quotient. -/
def divTiesEven (num den : Nat) : Nat :=
  let quotient := num / den
  let twice := 2 * (num % den)
  if twice < den then quotient
  else if den < twice then quotient + 1
  else quotient + quotient % 2

/-- The bits of the double nearest to a natural number; the infinity's bits above the range.

With `k` the position of the leading bit, the mantissa is scaled to 53 bits.  Its leading bit is added
into the exponent field, so a mantissa that rounds up to `2 ^ 53` moves the exponent by itself. -/
def nearestBits (n : Nat) : Nat :=
  if n = 0 then 0
  else
    let k := n.log2
    let mantissa := if k ≤ 52 then n * 2 ^ (52 - k) else divTiesEven n (2 ^ (k - 52))
    min ((k + 1022) * 2 ^ (52 : Nat) + mantissa) (2047 * 2 ^ (52 : Nat))

/-- **The double nearest to an integer**, ties to even, an infinity above the range. -/
def nearest : Int → Float
  | .ofNat n => Float.ofBits (UInt64.ofNat (nearestBits n))
  | .negSucc n => Float.ofBits (UInt64.ofNat (2 ^ (63 : Nat) + nearestBits (n + 1)))

end Binary64

end EncryptedReals

import EncryptedReals.Failure
import EncryptedReals.Ring.Primality

/-!
# Chains of primes for the transform

A chain of primes has one prime per requested width, all congruent to 1 modulo the order of the roots of
unity that the transform needs.  For each width the primes come in descending order from the top of the
width, so equal widths get distinct primes and the choice depends on the list of widths alone.

## Main Definitions

* `PrimeChain.descend` — the largest admissible prime at or below a candidate
* `PrimeChain.generate` — the primes of a list of widths
-/

namespace EncryptedReals.PrimeChain

-- Powers are those of the core library, whatever else is in scope.
attribute [local instance (2000)] instPowNat

/-- Whether a number is a power of two. -/
def isPowerOfTwo (n : Nat) : Bool :=
  n != 0 && 2 ^ n.log2 == n

/-- The first prime of `candidate`, `candidate - order`, … that lies above `lower`.  Each step lowers the
candidate, so `fuel` above `candidate / order` is never used up. -/
def descend (order lower : Nat) : (fuel candidate : Nat) → Option Nat
  | 0, _ => none
  | fuel + 1, candidate =>
    if candidate ≤ lower then none
    else if Primality.isPrime candidate then some candidate
    else descend order lower fuel (candidate - order)

/-- The largest number of a width that is 1 modulo `order`, when the width is wide enough for one.
A power of two above `order` is a multiple of it. -/
def top? (bits order : Nat) : Option Nat :=
  if order ≤ 2 ^ bits then some (2 ^ bits - order + 1) else none

/-- The next prime of one width, at or below the candidate that the width has come down to. -/
def next? (order : Nat) (cursors : List (Nat × Nat)) (bits : Nat) : Option Nat := do
  let candidate ← (cursors.lookup bits).or (top? bits order)
  descend order (2 ^ (bits - 1)) (candidate / order + 1) candidate

/-- The primes of the remaining widths.  `cursors` holds, for each width met so far, the candidate below
its last prime. -/
def generateFrom (order : Nat) (cursors : List (Nat × Nat)) : List Nat → Except Failure (List Modulus)
  | [] => .ok []
  | bits :: widths =>
    match next? order cursors bits with
    | none => .error (.configuration (.primesExhausted bits order))
    | some p => do
      let rest ← generateFrom order ((bits, p - order) :: cursors) widths
      return ⟨p⟩ :: rest

/-- **The chain of a list of widths**: distinct primes that are 1 modulo `order`, in the order asked for. -/
def generate (order : Nat) (widths : List Nat) : Except Failure (List Modulus) :=
  generateFrom order [] widths

end EncryptedReals.PrimeChain

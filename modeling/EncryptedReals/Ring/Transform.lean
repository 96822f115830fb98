import EncryptedReals.Failure
import EncryptedReals.Ring.PrimeChain
import EncryptedReals.Ring.Root

/-!
# The number-theoretic transform

The transform of a vector of `n = 2 ^ k` residues evaluates it, as a polynomial, at the `n` roots of
`X ^ n + 1`.  Modulo `X ^ n + 1` the polynomial splits into its residues modulo `X ^ (n/2) - w` and
`X ^ (n/2) + w`, where `w` is a square root of `-1`; each half splits on.  The recursion is a binary tree
whose node `i` has the children `2i` and `2i + 1`, and node `i` takes its `w` from entry `i` of a table.
Both transforms follow this tree, the forward one from the root and the inverse one from the leaves.

## Main Definitions

* `Transform` — the tables of one length and one modulus
* `Transform.make` — the tables, built from a primitive root
* `Transform.forward`, `Transform.inverse` — the transforms
-/

namespace EncryptedReals

-- Powers are those of the core library, whatever else is in scope.
attribute [local instance (2000)] instPowNat

/-- **The tables of the transform** of one length modulo one prime. -/
structure Transform where
  modulus : Modulus
  size : Nat
  logSize : Nat
  /-- Entry `i` is `psi` to the bit reversal of `i`. -/
  roots : Array Nat
  /-- Entry `i` is the inverse of `psi` to the bit reversal of `i`. -/
  inverseRoots : Array Nat
  sizeInverse : Nat
deriving DecidableEq

namespace Transform

/-- The powers of a root in bit-reversed order. -/
def rootTable (q : Modulus) (logSize root : Nat) : Array Nat :=
  Array.ofFn fun i : Fin (2 ^ logSize) => q.pow root (bitReverse logSize i)

/-- The tables built from one root. -/
def ofRoot (q : Modulus) (size logSize root : Nat) : Transform where
  modulus := q
  size := size
  logSize := logSize
  roots := rootTable q logSize root
  inverseRoots := rootTable q logSize (q.inv root)
  sizeInverse := q.inv size

/-- **The transform of a length and a modulus**, when the length is a power of two and the modulus has a
root for it. -/
def make (size : Nat) (q : Modulus) : Except Failure Transform :=
  if !PrimeChain.isPowerOfTwo size then .error (.configuration (.transformSize size))
  else
    match q.primitiveRoot? size with
    | none => .error (.configuration (.noRoot q.value (2 * size)))
    | some root => .ok (ofRoot q size size.log2 root)

/-! ### The recursion -/

/-- The residues modulo both factors of every node below `node`. -/
def split (q : Modulus) (roots : Array Nat) : (depth node : Nat) → Array Nat → Array Nat
  | 0, _, a => a
  | depth + 1, node, a =>
    let half := 2 ^ depth
    let w := roots.getD node 0
    let low := a.extract 0 half
    let high := (a.extract half (2 * half)).map fun x => q.mul x w
    split q roots depth (2 * node) (Array.zipWith q.add low high) ++
      split q roots depth (2 * node + 1) (Array.zipWith q.sub low high)

/-- The converse of `split`, up to a factor of two for each level. -/
def merge (q : Modulus) (inverseRoots : Array Nat) : (depth node : Nat) → Array Nat → Array Nat
  | 0, _, a => a
  | depth + 1, node, a =>
    let half := 2 ^ depth
    let w := inverseRoots.getD node 0
    let low := merge q inverseRoots depth (2 * node) (a.extract 0 half)
    let high := merge q inverseRoots depth (2 * node + 1) (a.extract half (2 * half))
    Array.zipWith q.add low high ++ Array.zipWith (fun x y => q.mul (q.sub x y) w) low high

/-- **The forward transform.**  Entries beyond the length of the transform stay as they are. -/
def forward (t : Transform) (a : Array Nat) : Array Nat :=
  split t.modulus t.roots t.logSize 1 (a.extract 0 t.size) ++ a.extract t.size a.size

/-- **The inverse transform**, with the factor `1 / n`. -/
def inverse (t : Transform) (a : Array Nat) : Array Nat :=
  (merge t.modulus t.inverseRoots t.logSize 1 (a.extract 0 t.size) ++ a.extract t.size a.size).map
    fun x => t.modulus.mul x t.sizeInverse

end Transform

end EncryptedReals

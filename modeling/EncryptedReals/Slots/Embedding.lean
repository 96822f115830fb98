import EncryptedReals.Ring.Root

/-!
# The canonical embedding

A real polynomial of degree below `N` is determined by its values at the roots of `X ^ N + 1`, which come
in conjugate pairs.  Slot `j` is bound to the root `ζ ^ (5 ^ j)`, with `ζ = exp (πi / N)`, and to its
conjugate, so the automorphism `X ↦ X ^ (5 ^ r)` rotates the slots left by `r`.

Both directions run through one Fourier transform of length `N`: twisting the coefficients by powers of
`ζ` turns the values at the odd powers of `ζ` into a plain transform.

## Main Definitions

* `Embedding.make` — the tables of a ring dimension
* `Embedding.toCoefficients` — slot values to coefficients
* `Embedding.toSlots` — coefficients to slot values
-/

namespace EncryptedReals

-- Powers are those of the core library, whatever else is in scope.
attribute [local instance (2000)] instPowNat

/-- How often a number can be halved, at most `fuel` times. -/
def halvings : (fuel n : Nat) → Nat
  | 0, _ => 0
  | fuel + 1, n => if n % 2 = 0 then halvings fuel (n / 2) + 1 else 0

/-- A complex number in floating point. -/
structure Phasor where
  re : Float
  im : Float

namespace Phasor

def zero : Phasor := ⟨0, 0⟩

def add (a b : Phasor) : Phasor := ⟨a.re + b.re, a.im + b.im⟩

def sub (a b : Phasor) : Phasor := ⟨a.re - b.re, a.im - b.im⟩

def mul (a b : Phasor) : Phasor := ⟨a.re * b.re - a.im * b.im, a.re * b.im + a.im * b.re⟩

/-- The point of the unit circle at an angle. -/
def ofAngle (angle : Float) : Phasor := ⟨angle.cos, angle.sin⟩

end Phasor

/-- Half a turn. -/
def pi : Float := Float.ofBits 0x400921fb54442d18

/-- **The tables of the embedding** for one ring dimension. -/
structure Embedding where
  degree : Nat
  /-- Entry `j` is `ζ ^ j`. -/
  twists : Array Phasor
  /-- Entry `s` holds the roots that join two transforms of length `2 ^ s`. -/
  twiddles : Array (Array Phasor)
  /-- Entry `j` is the position `(5 ^ j mod 2N - 1) / 2` of slot `j` among the odd powers of `ζ`. -/
  slotIndex : Array Nat

namespace Embedding

/-- The positions of the slots, starting from the power `root` of `ζ`. -/
def slotPositions (order : Nat) : (count root : Nat) → List Nat
  | 0, _ => []
  | count + 1, root => (root - 1) / 2 :: slotPositions order count (root * 5 % order)

/-- **The embedding of a ring dimension.** -/
def make (degree : Nat) : Embedding where
  degree := degree
  twists := Array.ofFn fun j : Fin degree =>
    Phasor.ofAngle (pi * Float.ofNat j / Float.ofNat degree)
  twiddles := Array.ofFn fun s : Fin (halvings degree.log2 degree) =>
    Array.ofFn fun k : Fin (2 ^ s.val) =>
      Phasor.ofAngle (-pi * Float.ofNat k / Float.ofNat (2 ^ s.val))
  slotIndex := (slotPositions (2 * degree) (degree / 2) 1).toArray

/-- The number of slots. -/
def slots (e : Embedding) : Nat :=
  e.degree / 2

/-- **The Fourier transform** of `2 ^ depth` points, from those of the even and of the odd positions. -/
def fourier (twiddles : Array (Array Phasor)) : (depth : Nat) → Array Phasor → Array Phasor
  | 0, a => a
  | depth + 1, a =>
    let half := 2 ^ depth
    let even := fourier twiddles depth (Array.ofFn fun i : Fin half => a.getD (2 * i) .zero)
    let odd := fourier twiddles depth (Array.ofFn fun i : Fin half => a.getD (2 * i + 1) .zero)
    let turned := Array.zipWith Phasor.mul (twiddles.getD depth #[]) odd
    Array.zipWith Phasor.add even turned ++ Array.zipWith Phasor.sub even turned

/-- The part of some points that is transformed at once.  Only the first part is in its natural order. -/
def block (e : Embedding) (a : Array Phasor) (i : Nat) : Array Phasor :=
  let depth := e.twiddles.size
  if i = 0 then a
  else Array.ofFn fun j : Fin (2 ^ depth) => a.getD (2 ^ depth * i + bitReverse depth j) .zero

/-- **The transform of the embedding's own length.**  A length that is no power of two is transformed in
blocks of the largest power of two that divides it. -/
def transform (e : Embedding) (a : Array Phasor) : Array Phasor :=
  (List.range (e.degree / 2 ^ e.twiddles.size)).foldl
    (fun out i => out ++ fourier e.twiddles e.twiddles.size (e.block a i)) #[]

/-- Slot values placed at their positions and, for the conjugate roots, at the mirrored ones. -/
def spread (e : Embedding) (values : List Float) : Array Phasor :=
  (e.slotIndex.toList.zip values).foldl
    (fun z (k, v) =>
      (z.setIfInBounds k ⟨v, 0⟩).setIfInBounds (e.degree - 1 - k) ⟨v, 0⟩)
    (Array.replicate e.degree .zero)

/-- **The coefficients of the polynomial with the given slot values**, missing ones being zero. -/
def toCoefficients (e : Embedding) (values : List Float) : Array Float :=
  let share := 1.0 / Float.ofNat e.degree
  Array.zipWith (fun z t => (z.re * t.re + z.im * t.im) * share) (e.transform (e.spread values))
    e.twists

/-- **The slot values of a polynomial.** -/
def toSlots (e : Embedding) (coefficients : Array Float) : Array Float :=
  let values := e.transform (Array.zipWith (fun c t => ⟨c * t.re, -c * t.im⟩) coefficients e.twists)
  e.slotIndex.map fun k => (values.getD k .zero).re

end Embedding

end EncryptedReals

import EncryptedReals.Ring.Transform

/-!
# Polynomials by residues

A polynomial modulo a product of primes is kept as one vector of residues per prime, its *limbs*.  Whether
a limb holds coefficients or values of the transform is for the caller to know; ciphertexts and keys hold
values throughout.

## Design Notes

The binary operations pair limbs and moduli position by position and stop at the shortest.  A product
keeps the common limbs only; a sum keeps the left operand's remaining limbs as they are.  The declared
number of coefficients is the left operand's.
-/

namespace EncryptedReals

/-- **A polynomial by residues.** -/
structure ResiduePoly where
  limbs : List (Array Nat)
  /-- The declared number of coefficients. -/
  degree : Nat
deriving DecidableEq

/-- Combines the entries that both vectors have; the left one's remaining entries stay. -/
def overlayEntries (f : Nat → Nat → Nat) (a b : Array Nat) : Array Nat :=
  a.mapIdx fun i x => match b[i]? with
    | some y => f x y
    | none => x

/-- Combines the members that both lists have; the left one's remaining members stay. -/
def overlay {α β : Type} (f : α → β → α) : List α → List β → List α
  | [], _ => []
  | a :: as, [] => a :: as
  | a :: as, b :: bs => f a b :: overlay f as bs

namespace ResiduePoly

/-- The zero polynomial. -/
def zero (degree limbs : Nat) : ResiduePoly :=
  ⟨List.replicate limbs (Array.replicate degree 0), degree⟩

/-- The residues of signed coefficients, for each modulus. -/
def ofInts (coefficients : Array Int) (moduli : List Modulus) : ResiduePoly :=
  ⟨moduli.map fun q => coefficients.map q.reduce, coefficients.size⟩

/-- The first limbs. -/
def truncate (p : ResiduePoly) (limbs : Nat) : ResiduePoly :=
  { p with limbs := p.limbs.take limbs }

/-! ### Arithmetic -/

/-- Sum, limb by limb. -/
def add (moduli : List Modulus) (p r : ResiduePoly) : ResiduePoly :=
  { p with
    limbs := overlay (fun a (b, q) => overlayEntries q.add a b) p.limbs (r.limbs.zip moduli) }

/-- Difference, limb by limb. -/
def sub (moduli : List Modulus) (p r : ResiduePoly) : ResiduePoly :=
  { p with
    limbs := overlay (fun a (b, q) => overlayEntries q.sub a b) p.limbs (r.limbs.zip moduli) }

/-- Product of the entries of two limbs. -/
def mulEntries (q : Modulus) (a b : Array Nat) : Array Nat :=
  Array.zipWith q.mul a b

/-- Product entry by entry: the product of polynomials where limbs hold values. -/
def mul (moduli : List Modulus) (p r : ResiduePoly) : ResiduePoly :=
  { p with limbs := (p.limbs.zip (r.limbs.zip moduli)).map fun (a, b, q) => mulEntries q a b }

/-- Adds a product to an accumulator. -/
def addMul (moduli : List Modulus) (acc p r : ResiduePoly) : ResiduePoly :=
  { acc with
    limbs := overlay (fun c (a, b, q) => overlayEntries q.add c (mulEntries q a b)) acc.limbs
      (p.limbs.zip (r.limbs.zip moduli)) }

/-- Negation, limb by limb. -/
def neg (moduli : List Modulus) (p : ResiduePoly) : ResiduePoly :=
  { p with limbs := (p.limbs.zip moduli).map fun (a, q) => a.map q.neg }

/-- Product with one scalar per limb. -/
def scale (moduli : List Modulus) (scalars : List Nat) (p : ResiduePoly) : ResiduePoly :=
  { p with limbs := (p.limbs.zip (scalars.zip moduli)).map fun (a, s, q) => a.map fun x => q.mul x s }

/-! ### Transforms -/

/-- The forward transform of each limb that has a transform. -/
def forward (transforms : List Transform) (p : ResiduePoly) : ResiduePoly :=
  { p with limbs := overlay (fun a t => t.forward a) p.limbs transforms }

/-- The inverse transform of each limb that has a transform. -/
def inverse (transforms : List Transform) (p : ResiduePoly) : ResiduePoly :=
  { p with limbs := overlay (fun a t => t.inverse a) p.limbs transforms }

end ResiduePoly

end EncryptedReals

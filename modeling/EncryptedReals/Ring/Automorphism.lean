import EncryptedReals.Ring.ResiduePoly

/-!
# Galois automorphisms

For an odd `g` the map `X ↦ X ^ g` is an automorphism of the polynomials modulo `X ^ n + 1`.  It moves the
coefficient of `X ^ i` to `X ^ (i * g mod 2n)`, with a sign from `X ^ n = -1`.  The powers of 5 rotate the
slots.
-/

namespace EncryptedReals.Automorphism

/-- The power of 5 that rotates the slots of a ring of dimension `degree` left by `step`. -/
def element (step : Int) (degree : Nat) : Nat :=
  (Modulus.mk (2 * degree)).pow 5 (step % ((degree / 2 : Nat) : Int)).toNat

/-- The inverse of an odd number modulo `2 * degree`.  The odd residues modulo a power of two form a group
whose exponent divides `degree`. -/
def inverseElement (g degree : Nat) : Nat :=
  (Modulus.mk (2 * degree)).pow g (degree - 1)

/-- The last of `size` positions that agree with `i` modulo `degree`, or `i` if it is beyond them. -/
def lastPosition (degree size i : Nat) : Nat :=
  i + (size - 1 - i) / degree * degree

/-- The coefficients after `X ↦ X ^ g`: entry `j` comes from a power `i` with `i * g` equal to `j` modulo
`degree`, with the sign of `X ^ (i * g)`.  In a vector longer than `degree` several powers come to the same
entry, and the last one counts. -/
def permute (q : Modulus) (degree g : Nat) (a : Array Nat) : Array Nat :=
  let h := inverseElement g degree
  Array.ofFn fun j : Fin degree =>
    let i := lastPosition degree a.size (j * h % degree)
    let c := a.getD i 0
    if i * g % (2 * degree) < degree then c else q.sub 0 c

/-- **The automorphism on a polynomial in coefficient form.** -/
def apply (moduli : List Modulus) (g : Nat) (p : ResiduePoly) : ResiduePoly :=
  { p with limbs := overlay (fun a q => permute q p.degree g a) p.limbs moduli }

end EncryptedReals.Automorphism

import EncryptedReals.Ring.ResiduePoly

/-!
# Reconstruction of integers from residues

An integer in `(-Q/2, Q/2]`, where `Q` is the product of pairwise distinct primes, is determined by its
residues.  It is the centred representative of `∑ (Q / qᵢ) * (xᵢ * (Q / qᵢ)⁻¹ mod qᵢ)`.
-/

namespace EncryptedReals

-- Lists have the products of the core library, whatever else is in scope.
attribute [local instance (2000)] One.ofOfNat1

/-- **What reconstruction over a list of moduli needs.** -/
structure Reconstruction where
  moduli : List Modulus
  product : Nat
  /-- For each modulus the product of the others. -/
  cofactors : List Nat
  /-- For each modulus the inverse of its cofactor. -/
  inverses : List Nat

namespace Reconstruction

/-- The tables of a list of moduli. -/
def ofModuli (moduli : List Modulus) : Reconstruction :=
  let product := (moduli.map Modulus.value).prod
  let cofactors := moduli.map fun q => product / q.value
  { moduli, product, cofactors
    inverses := List.zipWith (fun c q => q.inv (c % q.value)) cofactors moduli }

/-- The summand of one modulus. -/
def term (residue : Nat) (q : Modulus) (cofactor inverse : Nat) : Nat :=
  cofactor * q.mul residue inverse

/-- The sum of the terms of the residues that are given. -/
def weightedSum (r : Reconstruction) (residues : List Nat) : Nat :=
  ((residues.zip r.moduli).zip (r.cofactors.zip r.inverses)).foldl
    (fun acc ((x, q), c, i) => acc + term x q c i) 0

/-- The representative in `(-Q/2, Q/2]` of a residue modulo the product `Q`. -/
def centered (r : Reconstruction) (x : Nat) : Int :=
  if r.product / 2 < x then (x : Int) - r.product else x

/-- **The centred integer with the given residues.**  A single modulus needs no sum. -/
def compose (r : Reconstruction) (residues : List Nat) : Int :=
  match r.moduli with
  | [q] => q.center (residues.headD 0)
  | _ => r.centered (r.weightedSum residues % r.product)

/-- The residues of one coefficient. -/
def row (p : ResiduePoly) (i : Nat) : List Nat :=
  p.limbs.map fun a => a.getD i 0

/-- The centred coefficients of a polynomial in coefficient form. -/
def composePoly (r : Reconstruction) (p : ResiduePoly) : Array Int :=
  Array.ofFn fun i : Fin p.degree => r.compose (row p i)

end Reconstruction

end EncryptedReals

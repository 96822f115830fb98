import EncryptedReals.Keys

/-!
# Dividing by a modulus, and switching keys

Two operations divide a polynomial by the last of its moduli and round to the nearest integer: rescaling
divides by the last data modulus, and key switching divides by the special prime.  Both take the centred
residue of the dropped limb off the others and multiply by the inverse of the dropped modulus.

Switching a polynomial `d` from a target `t` to the secret multiplies each of its limbs, as a digit lifted
to every modulus, with the pair of that limb, adds up, and divides by the special prime.
-/

namespace EncryptedReals

/-- One limb after division: its entries less the centred residues, times the inverse. -/
def divideLimb (last : Modulus) (centered : Array Int) (limb : Array Nat) (t : Transform) :
    Array Nat :=
  let q := t.modulus
  let inverse := q.inv (last.value % q.value)
  overlayEntries (fun x y => q.mul (q.sub x y) inverse) limb (t.forward (centered.map q.reduce))

/-- **Division by a modulus, rounded to nearest**, on the limbs that remain. -/
def divideByLast (last : Transform) (dropped : Array Nat) (limbs : List (Array Nat))
    (transforms : List Transform) : List (Array Nat) :=
  let centered := (last.inverse dropped).map last.modulus.center
  overlay (divideLimb last.modulus centered) limbs transforms

namespace SwitchKey

/-- A digit under another modulus: its own limb where the modulus is its own, else its coefficients
reduced and transformed. -/
def liftDigit (own : Bool) (values coefficients : Array Nat) (t : Transform) : Array Nat :=
  if own then values else t.forward (coefficients.map fun x => x % t.modulus.value)

/-- The sum of products of pairs of limbs. -/
def sumProducts (q : Modulus) (degree : Nat) (pairs : List (Array Nat × Array Nat)) : Array Nat :=
  pairs.foldl (fun acc (x, y) => overlayEntries q.add acc (ResiduePoly.mulEntries q x y))
    (Array.replicate degree 0)

/-- The digits of a polynomial up to a level: index, values and coefficients of each limb. -/
def digits (ctx : Context) (d : ResiduePoly) (level : Nat) : List (Nat × Array Nat × Array Nat) :=
  ((d.limbs.zip ctx.transforms).take (level + 1)).zipIdx.map fun ((a, t), j) => (j, a, t.inverse a)

/-- The limb of both sums under the modulus at an index of the chain. -/
def accumulate (ctx : Context) (key : SwitchKey) (digits : List (Nat × Array Nat × Array Nat))
    (index : Nat) (t : Transform) : Array Nat × Array Nat :=
  let lifted := digits.map fun (j, values, coefficients) =>
    liftDigit (index == j) values coefficients t
  let limbOf (p : ResiduePoly) : Array Nat := p.limbs.getD index #[]
  (sumProducts t.modulus ctx.degree (lifted.zip (key.parts.map fun (b, _) => limbOf b)),
    sumProducts t.modulus ctx.degree (lifted.zip (key.parts.map fun (_, a) => limbOf a)))

/-- **Switches a polynomial at a level to the secret**: two polynomials `k₀, k₁` with `k₀ + k₁ s ≈ d t`. -/
def apply (ctx : Context) (key : SwitchKey) (d : ResiduePoly) (level : Nat) :
    ResiduePoly × ResiduePoly :=
  let digits := digits ctx d level
  let kept := ctx.transforms.take (level + 1)
  let sums := kept.zipIdx.map fun (t, i) => key.accumulate ctx digits i t
  match ctx.transforms.getLast? with
  | none => (⟨[], ctx.degree⟩, ⟨[], ctx.degree⟩)
  | some special =>
    let (last0, last1) := key.accumulate ctx digits (ctx.transforms.length - 1) special
    (⟨divideByLast special last0 (sums.map Prod.fst) kept, ctx.degree⟩,
      ⟨divideByLast special last1 (sums.map Prod.snd) kept, ctx.degree⟩)

end SwitchKey

end EncryptedReals

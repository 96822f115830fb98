import EncryptedReals.Context
import EncryptedReals.Random.Sampler
import EncryptedReals.Ring.Automorphism

/-!
# Keys

* The secret `s` is ternary and is kept modulo every prime of the chain, the special prime included.
* A public key is a pair `(b, a)` over the data moduli with `b = e - a s`.
* A switching key for a target `t` is one such pair `(bⱼ, aⱼ)` over the whole chain for each data modulus
  `qⱼ`, with `P t` added to the limb `j` of `bⱼ`, where `P` is the special prime.  Its products with the
  digits of a polynomial `d` add up to an encryption of `P d t`.
* Relinearization takes `t = s²`, and the rotation by `r` takes the image of `s` under its automorphism.

## Design Notes

Every key is a function of the drawn polynomials (`ofDraws`), and the drawing is apart from it (`draw`).
Statements about keys quantify over the draws and need no theory of the generator.
-/

namespace EncryptedReals

/-- Computations that draw and may fail.  What was drawn before a failure stays drawn. -/
abbrev FallibleDrawing := ExceptT Failure Drawing

/-- The secret, as values, modulo every prime. -/
structure SecretKey where
  poly : ResiduePoly
  owner : Nat

/-- The encryption key over the data moduli. -/
structure PublicKey where
  b : ResiduePoly
  a : ResiduePoly
  owner : Nat

/-- One pair for each data modulus. -/
structure SwitchKey where
  parts : List (ResiduePoly × ResiduePoly)

/-- The switching key from the square of the secret. -/
structure RelinearizationKey where
  key : SwitchKey
  owner : Nat

/-- The switching keys of rotations, by Galois element in ascending order. -/
structure GaloisKeys where
  keys : List (Nat × SwitchKey)
  owner : Nat

namespace GaloisKeys

/-- The key of a Galois element. -/
def find? (ks : GaloisKeys) (g : Nat) : Option SwitchKey :=
  ks.keys.lookup g

def contains (ks : GaloisKeys) (g : Nat) : Bool :=
  (ks.find? g).isSome

def size (ks : GaloisKeys) : Nat :=
  ks.keys.length

def isEmpty (ks : GaloisKeys) : Bool :=
  ks.keys.isEmpty

/-- A key put at its place in the order. -/
def insert (g : Nat) (key : SwitchKey) : List (Nat × SwitchKey) → List (Nat × SwitchKey)
  | [] => [(g, key)]
  | (h, k) :: rest => if g < h then (g, key) :: (h, k) :: rest else (h, k) :: insert g key rest

end GaloisKeys

namespace Context

/-! ### Draws -/

/-- Uniform residues for each modulus.  Uniform coefficients have uniform values, so the values are drawn. -/
def drawUniform (ctx : Context) (moduli : List Modulus) : Drawing ResiduePoly := do
  let limbs ← moduli.mapM fun q => Sampler.uniform ctx.degree q.value
  return ⟨limbs, ctx.degree⟩

/-- The errors of one polynomial. -/
def drawErrors (ctx : Context) : Drawing (Array Int) :=
  Sampler.errors ctx.degree

/-- The values of signed coefficients modulo the given primes. -/
def lift (ctx : Context) (coefficients : Array Int) (moduli : List Modulus) : ResiduePoly :=
  ctx.forward (ResiduePoly.ofInts coefficients moduli)

end Context

namespace SecretKey

/-- The secret with the given ternary coefficients. -/
def ofDraws (ctx : Context) (coefficients : Array Int) : SecretKey :=
  ⟨ctx.lift coefficients ctx.parameters.moduli, ctx.id⟩

/-- **A fresh secret.** -/
def draw (ctx : Context) : Drawing SecretKey := do
  return ofDraws ctx (← Sampler.ternary ctx.degree)

/-- The secret in coefficient form. -/
def coefficients (ctx : Context) (sk : SecretKey) : ResiduePoly :=
  sk.poly.inverse ctx.transforms

end SecretKey

/-- The first half of a pair under a secret: the errors minus `a s`. -/
def maskedErrors (ctx : Context) (moduli : List Modulus) (s a : ResiduePoly) (e : Array Int) :
    ResiduePoly :=
  (ctx.lift e moduli).sub moduli (a.mul moduli s)

namespace PublicKey

/-- The public key of a secret, from a uniform polynomial and errors. -/
def ofDraws (ctx : Context) (sk : SecretKey) (a : ResiduePoly) (e : Array Int) : PublicKey :=
  let moduli := ctx.parameters.dataModuli
  ⟨maskedErrors ctx moduli (sk.poly.truncate moduli.length) a e, a, ctx.id⟩

/-- **A public key of a secret.** -/
def draw (ctx : Context) (sk : SecretKey) : Drawing PublicKey := do
  let a ← ctx.drawUniform ctx.parameters.dataModuli
  let e ← ctx.drawErrors
  return ofDraws ctx sk a e

end PublicKey

namespace SwitchKey

/-- The pair for the `j`-th data modulus: the target times the special prime enters limb `j`. -/
def pair (ctx : Context) (sk : SecretKey) (special : Modulus) (target : ResiduePoly) (j : Nat)
    (a : ResiduePoly) (e : Array Int) : ResiduePoly × ResiduePoly :=
  let moduli := ctx.parameters.moduli
  let b := maskedErrors ctx moduli sk.poly a e
  let limbs := b.limbs.modify j fun limb =>
    match moduli[j]?, target.limbs[j]? with
    | some q, some t =>
      overlayEntries (fun x y => q.add x (q.mul (special.value % q.value) y)) limb t
    | _, _ => limb
  ({ b with limbs }, a)

/-- The switching key of a target, from the draws of each pair. -/
def ofDraws (ctx : Context) (sk : SecretKey) (special : Modulus) (target : ResiduePoly)
    (draws : List (ResiduePoly × Array Int)) : SwitchKey :=
  ⟨draws.zipIdx.map fun ((a, e), j) => pair ctx sk special target j a e⟩

/-- The draws of one pair. -/
def drawPair (ctx : Context) : Drawing (ResiduePoly × Array Int) := do
  let a ← ctx.drawUniform ctx.parameters.moduli
  let e ← ctx.drawErrors
  return (a, e)

/-- **A switching key from a target to the secret.**  Without a special prime nothing is drawn. -/
def draw (ctx : Context) (sk : SecretKey) (target : ResiduePoly) : FallibleDrawing SwitchKey := do
  match ctx.parameters.special? with
  | none => throw (.configuration .noSpecialPrime)
  | some special =>
    let draws ← (ctx.parameters.dataModuli.mapM fun _ => drawPair ctx : Drawing _)
    return ofDraws ctx sk special target draws

end SwitchKey

namespace RelinearizationKey

/-- The square of the secret. -/
def target (ctx : Context) (sk : SecretKey) : ResiduePoly :=
  sk.poly.mul ctx.parameters.moduli sk.poly

/-- **A relinearization key.** -/
def draw (ctx : Context) (sk : SecretKey) : FallibleDrawing RelinearizationKey := do
  return ⟨← SwitchKey.draw ctx sk (target ctx sk), ctx.id⟩

end RelinearizationKey

namespace GaloisKeys

/-- The image of the secret under an automorphism. -/
def target (ctx : Context) (sk : SecretKey) (g : Nat) : ResiduePoly :=
  ctx.forward (Automorphism.apply ctx.parameters.moduli g (sk.coefficients ctx))

/-- The key of one step, unless the step is a full turn or has its key already. -/
def drawStep (ctx : Context) (sk : SecretKey) (keys : List (Nat × SwitchKey)) (step : Int) :
    FallibleDrawing (List (Nat × SwitchKey)) := do
  let g := Automorphism.element step ctx.degree
  if g == 1 || (keys.lookup g).isSome then
    return keys
  else
    return insert g (← SwitchKey.draw ctx sk (target ctx sk g)) keys

/-- **The keys of a list of rotation steps.** -/
def draw (ctx : Context) (sk : SecretKey) (steps : List Int) : FallibleDrawing GaloisKeys := do
  return ⟨← steps.foldlM (drawStep ctx sk) [], ctx.id⟩

end GaloisKeys

end EncryptedReals

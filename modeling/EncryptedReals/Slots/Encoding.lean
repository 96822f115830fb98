import EncryptedReals.Ring.ResiduePoly
import EncryptedReals.Slots.Embedding

/-!
# Encoding reals as polynomials

A real is encoded by multiplying with the scale and rounding to an integer, which is then reduced modulo
each prime.  A single value becomes a constant polynomial, which has that value in every slot; a list of
values goes through the embedding.

## Main Definitions

* `checkScale` — the scales that a modulus has room for
* `roundCoefficients` — the integers of a list of coefficients, when all of them fit the modulus
* `coefficientResidue` — the residue of such an integer
* `Embedding.encodeScalar`, `Embedding.encodeSlots`, `Embedding.decode`
-/

namespace EncryptedReals

/-- The bits that a double takes: one more than the integral part of its logarithm, none if it has no
value. -/
def bitsTaken (x : Float) : Int :=
  match Binary64.ofFloat? x with
  | some v => v.floorOfLog2 + 1
  | none => 0

/-- **A scale fits a modulus** when it takes fewer bits.  A scale that is not positive takes none. -/
def scaleFits (scale : Float) (modulusBits : Nat) : Bool :=
  !(scale > 0) || bitsTaken scale < modulusBits

/-- **A scale is finite, positive, and narrower than the modulus it is used under.** -/
def checkScale (scale : Float) (moduli : List Modulus) : Except Failure Unit :=
  if !(scale.isFinite && scale > 0) then
    .error (.overflow (.invalidScale scale))
  else if scaleFits scale (totalBits moduli) then .ok ()
  else .error (.scaleOutOfBounds scale.log2 (totalBits moduli))

/-- The integer nearest to a coefficient, when it is finite and narrower than the modulus. -/
def roundCoefficient (modulusBits : Nat) (index : Nat) (c : Float) : Except Failure Int :=
  match Binary64.ofFloat? c with
  | none => .error (.overflow (.notFinite index c))
  | some v =>
    let z := v.round
    if z = 0 then .ok 0
    else
      let bits := ((Binary64.mk false z.natAbs 0).floorOfLog2 + 1).toNat
      if modulusBits ≤ bits then .error (.overflow (.tooWide bits modulusBits)) else .ok z

/-- The integers of a list of coefficients, failing at the first that has none. -/
def roundCoefficients (modulusBits : Nat) (coefficients : Array Float) :
    Except Failure (Array Int) := do
  let integers ← coefficients.toList.zipIdx.mapM fun (c, i) => roundCoefficient modulusBits i c
  return integers.toArray

/-- Rounded coefficients below this magnitude are words. -/
def wordLimit : Nat := 9200000000000000000

/-- The residue of a rounded coefficient, as a word or as a wide integer. -/
def coefficientResidue (q : Modulus) (z : Int) : Nat :=
  if z.natAbs < wordLimit then q.reduceWord z.toInt64 else q.reduceWide z

/-- **The polynomial of real coefficients**, rounded and reduced modulo each prime. -/
def liftCoefficients (coefficients : Array Float) (moduli : List Modulus) :
    Except Failure ResiduePoly := do
  let integers ← roundCoefficients (totalBits moduli) coefficients
  return ⟨moduli.map fun q => integers.map (coefficientResidue q), integers.size⟩

namespace Embedding

/-- **One value as a constant polynomial.** -/
def encodeScalar (e : Embedding) (value scale : Float) (moduli : List Modulus) :
    Except Failure ResiduePoly := do
  checkScale scale moduli
  liftCoefficients ((Array.replicate e.degree 0).setIfInBounds 0 (value * scale)) moduli

/-- **A list of values in the slots**, at most one for each. -/
def encodeSlots (e : Embedding) (values : List Float) (scale : Float) (moduli : List Modulus) :
    Except Failure ResiduePoly := do
  if e.slots < values.length then
    throw (.overflow (.tooManyValues values.length e.slots))
  checkScale scale moduli
  liftCoefficients ((e.toCoefficients values).map (· * scale)) moduli

/-- **The slot values of real coefficients at a scale.** -/
def decode (e : Embedding) (coefficients : Array Float) (scale : Float) : Array Float :=
  e.toSlots (coefficients.map (· / scale))

end Embedding

end EncryptedReals

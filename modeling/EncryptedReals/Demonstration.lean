import EncryptedReals.Collection
import EncryptedReals.Horner

/-!
# Demonstrations

Small computations on freshly encrypted inputs, each with the value that the same computation gives on the
plaintexts: a sum of two products, a mean by rotating and adding, an approximate sign, a comparison, and a
selection by flags.
-/

namespace EncryptedReals

-- Powers are those of the core library, whatever else is in scope.
attribute [local instance (2000)] instPowNat

/-- The result of a demonstration and the plaintext value it stands for. -/
structure Demonstration where
  ciphertext : Ciphertext
  expected : Float

/-- **A computation that draws, records steps, and may fail.** -/
abbrev Demonstrating := ExceptT Failure (StateT (List Step) Drawing)

namespace Demonstrating

/-- A part that draws. -/
def drawing {α : Type} (x : FallibleDrawing α) : Demonstrating α :=
  fun steps generator =>
    let (result, generator) := x generator
    ((result, steps), generator)

/-- A part that evaluates. -/
def observing {α : Type} (x : Observed α) : Demonstrating α :=
  fun steps generator => (x steps, generator)

/-- The result, the steps and the generator after a demonstration. -/
def start {α : Type} (x : Demonstrating α) (generator : Generator) :
    (Except Failure α × List Step) × Generator :=
  x.run [] generator

end Demonstrating

namespace Demonstration

open Demonstrating

/-- The sum of a list of doubles from the left.  No doubles add up to the negative zero. -/
def sumFloats (xs : List Float) : Float :=
  xs.foldl (· + ·) (-0.0)

/-- **`a b + c d`**, each product relinearized and rescaled before the sum. -/
def product (s : Scheme) (a b c d : Float) : Demonstrating Demonstration := do
  let xa ← drawing (s.encryptValue a s.scale)
  let xb ← drawing (s.encryptValue b s.scale)
  let xc ← drawing (s.encryptValue c s.scale)
  let xd ← drawing (s.encryptValue d s.scale)
  let ct ← observing do
    let ab ← s.multiplyRescale xa xb
    let cd ← s.multiplyRescale xc xd
    s.add ab cd
  return ⟨ct, a * b + c * d⟩

/-- The powers of two below `span`, from `step` up, at most `fuel` of them. -/
def doublings (span : Nat) : (fuel step : Nat) → List Int
  | 0, _ => []
  | fuel + 1, step => if step < span then (step : Int) :: doublings span fuel (2 * step) else []

/-- **The rotations that fold `count` slots into the first**: 1, 2, 4, … below the least power of two that
is not below `count`. -/
def meanRotations (count : Nat) : List Int :=
  let halvings := if count ≤ 1 then 0 else (count - 1).log2 + 1
  doublings (2 ^ halvings) halvings 1

/-- **The mean of values**: one in each slot, folded into the first by rotating and adding, then multiplied
with the inverse of their number.  The scheme needs the keys of `meanRotations`. -/
def mean (s : Scheme) (values : List Float) : Demonstrating Demonstration := do
  if values.isEmpty then
    throw (.configuration .meanOfNothing)
  let x ← drawing (s.encryptSlots values s.scale)
  let count := Float.ofNat values.length
  let ct ← observing do
    let sum ← (meanRotations values.length).foldlM (fun acc step => do
      let rotated ← s.rotate acc step
      s.add acc rotated) x
    let scaled ← s.multiplyPlain sum (1.0 / count) s.scale
    s.rescale scaled
  return ⟨ct, sumFloats values / count⟩

/-- **A polynomial at an encrypted input.** -/
def sign (s : Scheme) (coefficients : List Float) (input : Float) : Demonstrating Demonstration := do
  let x ← drawing (s.encryptValue input s.scale)
  let ct ← observing (s.evaluate x coefficients)
  return ⟨ct, Coefficients.evaluatePlain coefficients input⟩

/-- **The approximate sign of a difference** of at most `bound`.  Dividing by the bound is folded into the
coefficients, so the comparison takes the levels of the polynomial and no more. -/
def compare (s : Scheme) (a b : Float) (coefficients : List Float) (bound : Float) :
    Demonstrating Demonstration := do
  if !(bound.isFinite && bound > 0) then
    throw (.configuration (.comparisonBound bound))
  let xa ← drawing (s.encryptValue a s.scale)
  let xb ← drawing (s.encryptValue b s.scale)
  let ct ← observing do
    let difference ← s.sub xa xb
    s.evaluate difference (Coefficients.scaleInput coefficients bound)
  return ⟨ct, Coefficients.evaluatePlain coefficients ((a - b) / bound)⟩

/-- Sets the only flag of the items at the selected places. -/
def selectAll (s : Scheme) (c : Collection) (selected : List Nat) : FallibleDrawing Collection :=
  selected.foldlM (fun c index => do
    match ← c.setFlag s index 0 true with
    | some c => return c
    | none => throw (.configuration (.noValueAt index))) c

/-- **The sum of the selected values**, as a sum of all values under a flag. -/
def select (s : Scheme) (values : List Float) (selected : List Nat) : Demonstrating Demonstration := do
  let c ← drawing (values.foldlM (fun c value => c.pushPlain s value) (Collection.empty 1))
  let c ← drawing (selectAll s c selected)
  match ← observing (c.sumWhere s 0) with
  | none => throw (.configuration .nothingToSelect)
  | some ct =>
    let chosen := values.zipIdx.filter fun (_, i) => selected.contains i
    return ⟨ct, sumFloats (chosen.map Prod.fst)⟩

end Demonstration

end EncryptedReals

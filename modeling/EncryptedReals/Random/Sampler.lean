import EncryptedReals.Binary64
import EncryptedReals.Random.Generator
import EncryptedReals.Random.NormalLayers

/-!
# Samplers

The three distributions of the scheme: ternary secrets, rounded normal errors cut off at ±19, and uniform
residues.  Normal deviates are drawn by layers: a word picks a layer and a point in it, which is accepted
at once when it lies under the next layer, and otherwise by comparing with the density.

Signed samples are plain integers, so that one value can be reduced modulo every prime of a chain.
-/

namespace EncryptedReals

namespace Drawing

/-- One try at a point of the tail, as its distance from where the tail begins. -/
def tailTry : Drawing (Option Float) := do
  let a ← openUnit
  let b ← openUnit
  let x := a.log / NormalLayers.tailStart
  let y := b.log
  return if -2.0 * y < x * x then none else some x

/-- A point of the tail on the side of `u`. -/
def tail (u : Float) : Drawing Float := do
  let x ← retry tailTry 0 patience
  return if u < 0 then x - NormalLayers.tailStart else NormalLayers.tailStart - x

/-- One try at a standard normal deviate. -/
def normalTry : Drawing (Option Float) := do
  let w ← word
  let i := (w &&& 255).toNat
  let u := Float.ofBits ((w >>> 12) ||| 0x4000000000000000) - 3.0
  let x := u * NormalLayers.edge i
  if x.abs < NormalLayers.edge (i + 1) then
    return some x
  else if i = 0 then
    return some (← tail u)
  else
    let low := NormalLayers.height (i + 1)
    let high := NormalLayers.height i
    let y := low + (high - low) * (← unit)
    return if y < (-x * x / 2.0).exp then some x else none

/-- **A standard normal deviate.** -/
def normal : Drawing Float :=
  retry normalTry 0 patience

end Drawing

namespace Sampler

/-- The standard deviation of the errors. -/
def errorDeviation : Float := 3.19

/-- Errors beyond this are drawn again. -/
def errorBound : Nat := 19

/-- A draw of a normal error that is rejected beyond the bound and rounded within it. -/
def errorTry (deviation : Float) : Drawing (Option Int) := do
  let x := 0.0 + deviation * (← Drawing.normal)
  if x.abs ≤ Float.ofNat errorBound then
    return (Binary64.ofFloat? x).map Binary64.round
  else
    return none

/-- **Ternary coefficients**, each of -1, 0 and 1 equally likely. -/
def ternary (count : Nat) : Drawing (Array Int) :=
  Drawing.vector count do
    let k ← Drawing.below 3
    return (k : Int) - 1

/-- **Normal errors of a standard deviation.**  A deviation that is not finite gives no error and draws
nothing. -/
def normalErrors (count : Nat) (deviation : Float) : Drawing (Array Int) :=
  if deviation.isFinite then
    Drawing.vector count (Drawing.retry (errorTry deviation) 0 Drawing.patience)
  else
    return Array.replicate count 0

/-- Normal errors of the scheme's own deviation. -/
def errors (count : Nat) : Drawing (Array Int) :=
  normalErrors count errorDeviation

/-- **Uniform residues** below a modulus. -/
def uniform (count modulus : Nat) : Drawing (Array Nat) :=
  Drawing.vector count (Drawing.below modulus)

end Sampler

end EncryptedReals

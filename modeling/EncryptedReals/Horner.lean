import EncryptedReals.Coefficients
import EncryptedReals.Scheme

/-!
# Polynomials under encryption

Horner's rule on a ciphertext.  The leading coefficient times the argument is rescaled; then each further
coefficient is added at the scale and level reached, and between two additions the sum is multiplied with
the argument, which is first brought down to the same level.  A constant is evaluated as `0 x + c`.
-/

namespace EncryptedReals

/-- **The value of a polynomial under encryption**, with the steps that led to it. -/
structure PolynomialValue where
  ciphertext : Ciphertext
  trace : List Step

namespace Scheme

/-- The additions and products below the leading coefficient, from the highest down. -/
def hornerSteps (s : Scheme) (x : Ciphertext) : List Float → Ciphertext → Observed Ciphertext
  | [], acc => return acc
  | [c], acc => s.addPlain acc c
  | c :: lower, acc => do
    let sum ← s.addPlain acc c
    let argument ← s.switchTo x sum.level
    let product ← s.multiplyRescale sum argument
    hornerSteps s x lower product

/-- The evaluation from the coefficients with the highest first. -/
def hornerFrom (s : Scheme) (x : Ciphertext) (leading : Float) (lower : List Float) :
    Observed Ciphertext := do
  let product ← s.multiplyPlain x leading s.scale
  let acc ← s.rescale product
  s.hornerSteps x lower acc

/-- **The value of a polynomial at a ciphertext.**  Fails before any operation when the argument has fewer
levels than the polynomial needs. -/
def evaluate (s : Scheme) (x : Ciphertext) (coefficients : List Float) : Observed Ciphertext := do
  match coefficients.reverse with
  | [] => throw (.configuration .nothingToEvaluate)
  | leading :: lower =>
    if x.level < Coefficients.depth coefficients then
      throw (.chainExhausted x.level)
    if lower.isEmpty then s.hornerFrom x 0.0 [leading]
    else s.hornerFrom x leading lower

/-- **The evaluation with a recorder of its own**, which passes each step on to the caller's observer.
What it kept comes with the value; what it passed on is there after a failure too. -/
def evaluateObserved (s : Scheme) (x : Ciphertext) (coefficients : List Float) :
    Except Failure PolynomialValue × List Step :=
  let (outcome, steps) := (s.evaluate x coefficients).trace
  let recorder := steps.foldl Recorder.observe {}
  (outcome.map fun ct => ⟨ct, recorder.take.1⟩, recorder.forwarded)

end Scheme

end EncryptedReals

import EncryptedReals.Failure
import EncryptedReals.Ring.ResiduePoly
import EncryptedReals.Slots.Embedding

/-!
# Coefficients of approximating polynomials

Polynomials are lists of coefficients, the constant first.  They come from the Chebyshev recurrence in
exact integer arithmetic, from nodes of a truncated sine series, or from an explicit list.

## Main Definitions

* `chebyshev?` — the integer coefficients of a Chebyshev polynomial, as far as signed 64-bit words go
* `lagrange` — the coefficients computed from sine nodes
* `Strategy.coefficients` — the coefficients of a strategy
* `evaluatePlain`, `scaleInput`, `depth` — value, substitution and cost of a polynomial
-/

namespace EncryptedReals

-- Powers are those of the core library, whatever else is in scope.
attribute [local instance (2000)] instPowNat

namespace Coefficients

/-! ### Chebyshev polynomials -/

/-- The integers of a signed 64-bit word. -/
def inWord (x : Int) : Bool :=
  -2 ^ (63 : Nat) ≤ x && x < 2 ^ (63 : Nat)

/-- `2 x T_n - T_{n-1}`, when all the numbers on the way fit a word. -/
def chebyshevStep? (previous current : List Int) : Option (List Int) :=
  let doubled := 0 :: current.map (2 * ·)
  let next := overlay (· - ·) doubled previous
  if doubled.all inWord && next.all inWord then some next else none

/-- The recurrence run `count` times. -/
def chebyshevFrom? (previous current : List Int) : (count : Nat) → Option (List Int)
  | 0 => some current
  | count + 1 =>
    match chebyshevStep? previous current with
    | some next => chebyshevFrom? current next count
    | none => none

/-- **The Chebyshev polynomial of a degree**, by `T_0 = 1`, `T_1 = x`, `T_n = 2 x T_{n-1} - T_{n-2}`. -/
def chebyshev? : (degree : Nat) → Option (List Int)
  | 0 => some [1]
  | degree + 1 => chebyshevFrom? [1] [0, 1] degree

/-- An integer is a double when its bits below the leading 53 are zero. -/
def isExactDouble (x : Int) : Bool :=
  x.natAbs % 2 ^ (bitLength x.natAbs - 53) == 0

/-- The coefficients as doubles, when all of them are. -/
def exactDoubles? (xs : List Int) : Option (List Float) :=
  if xs.all isExactDouble then some (xs.map Binary64.nearest) else none

/-! ### Sine nodes -/

/-- The Taylor polynomial of the sine up to degree nine. -/
def sinTaylor (x : Float) : Float :=
  let x2 := x * x
  let x4 := x2 * x2
  let x6 := x4 * x2
  let x8 := x4 * x4
  x * (1.0 - x2 / 6.0 + x4 / 120.0 - x6 / 5040.0 + x8 / 362880.0)

/-- The product of the squared differences from node `i` to the nodes up to `half`. -/
def nodeProduct (step : Float) (half i : Nat) : Float :=
  let node := sinTaylor (Float.ofNat i * step)
  (List.range' 1 half).foldl (fun product j =>
    if j = i then product
    else
      let other := sinTaylor (Float.ofNat j * step)
      product * (node * node - other * other)) 1.0

/-- **The coefficients from sine nodes**: for each node its inverse over the product of differences. -/
def lagrange (terms : Nat) : List Float :=
  let step := pi / Float.ofNat (terms + 3)
  let half := (terms + 2) / 2
  (List.range' 1 terms).map fun i =>
    1.0 / sinTaylor (Float.ofNat i * step) / nodeProduct step half i

/-- An odd cubic that approximates the sign on `[-1, 1]`. -/
def cubicSign : List Float :=
  [0.0, 1.211324865405185, 0.0, -0.84529946162075]

/-! ### Using coefficients -/

/-- **The rescales that evaluating under encryption takes.** -/
def depth (coefficients : List Float) : Nat :=
  max (coefficients.length - 1) 1

/-- **The value of a polynomial**, by Horner's rule from zero. -/
def evaluatePlain (coefficients : List Float) (x : Float) : Float :=
  coefficients.foldr (fun c acc => acc * x + c) 0.0

/-- The coefficients `cᵢ * power`, `cᵢ₊₁ * (power / bound)`, … -/
def scaleFrom (bound power : Float) : List Float → List Float
  | [] => []
  | c :: cs => c * power :: scaleFrom bound (power / bound) cs

/-- **The coefficients of `p (x / bound)`.** -/
def scaleInput (coefficients : List Float) (bound : Float) : List Float :=
  scaleFrom bound 1.0 coefficients

end Coefficients

/-- **Where the coefficients of a polynomial come from.** -/
inductive Strategy where
  | chebyshev (terms : Nat)
  | lagrange (terms : Nat)
  | explicit (coefficients : List Float)

namespace Strategy

/-- The explicit cubic. -/
def cubic : Strategy :=
  .explicit Coefficients.cubicSign

/-- **The coefficients of a strategy**, never an empty list. -/
def coefficients : Strategy → Except Failure (List Float)
  | chebyshev 0 => .error (.configuration (.noTerms .chebyshev))
  | chebyshev (degree + 1) =>
    match (Coefficients.chebyshev? degree).bind Coefficients.exactDoubles? with
    | some cs => .ok cs
    | none => .error (.configuration (.chebyshevOverflow degree))
  | lagrange 0 => .error (.configuration (.noTerms .lagrange))
  | lagrange (degree + 1) => .ok (Coefficients.lagrange (degree + 1))
  | explicit [] => .error (.configuration .noCoefficients)
  | explicit (c :: cs) => .ok (c :: cs)

end Strategy

end EncryptedReals

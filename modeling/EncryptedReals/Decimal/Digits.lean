import EncryptedReals.Binary64

/-!
# Decimal digits of a double

Two ways to choose the decimal digits of an exact binary value.

* `Digits.shortest` takes as few digits as still read back as the same double, and among those the
  nearest to the value.  The reals that read back are an interval around the value whose ends belong
  to it exactly when the mantissa is even.  For a fixed number of digits only the value's two
  neighbours on the decimal grid can lie in the interval if any point of the grid does, so the search
  tests these two for 1, 2, … 17 digits.
* `Digits.rounded` takes a fixed number of decimal places, a tie going to the even digit.
-/

namespace EncryptedReals

-- Powers are those of the core library, whatever else is in scope.
attribute [local instance (2000)] instPowNat

/-- **A decimal magnitude**: `significand * 10 ^ exponent`. -/
structure Digits where
  significand : Nat
  exponent : Int
deriving DecidableEq

namespace Digits

/-- A positive binary value with the interval of reals that round to it, all over one denominator. -/
structure Neighbourhood where
  value : Nat
  lower : Nat
  upper : Nat
  denominator : Nat
  /-- The ends of the interval round to the value too. -/
  closed : Bool

namespace Neighbourhood

/-- The interval of a positive double reaches half way to its neighbours.  Below a power of two the
neighbour is twice as near. -/
def ofBinary64 (x : Binary64) : Neighbourhood :=
  let below := if x.mantissa = 2 ^ (52 : Nat) ∧ -1074 < x.exponent then 1 else 2
  let e := x.exponent - 2
  let scale := 2 ^ e.toNat
  { value := 4 * x.mantissa * scale
    lower := (4 * x.mantissa - below) * scale
    upper := (4 * x.mantissa + 2) * scale
    denominator := 2 ^ (-e).toNat
    closed := x.mantissa % 2 == 0 }

/-- The value is at least `10 ^ k`. -/
def reaches (v : Neighbourhood) (k : Int) : Bool :=
  v.denominator * 10 ^ k.toNat ≤ v.value * 10 ^ (-k).toNat

/-- The decimal exponent of the leading digit, from an estimate that is off by one at most. -/
def leadingExponent (v : Neighbourhood) (floorLog2 : Int) : Int :=
  let k := floorLog2 * 30103 / 100000
  if v.reaches (k + 1) then k + 1
  else if v.reaches k then k
  else k - 1

/-- The point of the grid of multiples of `10 ^ p` that reads back, if there is one; of two the
nearer, of two equally near the larger. -/
def onGrid? (v : Neighbourhood) (p : Int) : Option Nat :=
  let up := 10 ^ (-p).toNat
  let unit := v.denominator * 10 ^ p.toNat
  let value := v.value * up
  let d := value / unit
  let below := if v.closed then decide (v.lower * up ≤ d * unit) else decide (v.lower * up < d * unit)
  let above :=
    if v.closed then decide ((d + 1) * unit ≤ v.upper * up) else decide ((d + 1) * unit < v.upper * up)
  if below && above then
    if value - d * unit < (d + 1) * unit - value then some d else some (d + 1)
  else if below then some d
  else if above then some (d + 1)
  else none

end Neighbourhood

/-- **The shortest digits that read back as the same double**, the nearest of those. -/
def shortest (x : Binary64) : Digits :=
  if x.mantissa = 0 then ⟨0, 0⟩
  else
    let v := Neighbourhood.ofBinary64 x
    let k := v.leadingExponent x.floorLog2
    let found := (List.range 17).findSome? fun (n : Nat) =>
      (v.onGrid? (k - n)).map fun d =>
        if d = 10 ^ (n + 1) then Digits.mk 1 (k + 1) else Digits.mk d (k - n)
    found.getD ⟨0, 0⟩

/-- **A fixed number of decimal places**: the nearest multiple of `10 ^ (-places)`, ties to even. -/
def rounded (places : Nat) (x : Binary64) : Digits :=
  let num := x.mantissa * 2 ^ x.exponent.toNat * 10 ^ places
  ⟨Binary64.divTiesEven num (2 ^ (-x.exponent).toNat), -(places : Int)⟩

end Digits

end EncryptedReals

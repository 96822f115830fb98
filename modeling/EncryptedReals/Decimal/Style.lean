import EncryptedReals.Decimal.Digits

/-!
# Writing doubles as text

A `Decimal.Style` holds what a place of output decides about its numbers: which decimal exponents are
written positionally, and whether an integer keeps a point.  The digits themselves come from
`Digits.shortest`.  Three styles are in use: messages and report columns write every number
positionally (`plain`), records are shown with a point and with an exponent outside `10 ^ -4 … 10 ^ 16`
(`literal`), and error ratios always carry an exponent (`scientific`).  `Decimal.fixed` writes a fixed
number of places.
-/

namespace EncryptedReals.Decimal

/-- What a place of output decides about its numbers. -/
structure Style where
  /-- Exponents of the leading digit that are written without an exponent. -/
  positional : Int → Bool
  /-- An integer written positionally ends in `.0`. -/
  keepsPoint : Bool

namespace Style

/-- Positional whatever the size, integers without a point. -/
def plain : Style := ⟨fun _ => true, false⟩

/-- Positional from `10 ^ -4` up to below `10 ^ 16`, integers with a point. -/
def literal : Style := ⟨fun e => decide (-4 ≤ e ∧ e < 16), true⟩

/-- Always with an exponent. -/
def scientific : Style := ⟨fun _ => false, false⟩

end Style

/-- A run of zeros. -/
def zeros (n : Nat) : String :=
  String.ofList (List.replicate n '0')

/-- Digits with the point after the first `point` of them, zeros filling the gap on either side. -/
def positional (digits : String) (point : Int) (keepsPoint : Bool) : String :=
  let count : Int := digits.length
  if point ≤ 0 then
    "0." ++ zeros (-point).toNat ++ digits
  else if count ≤ point then
    digits ++ zeros (point - count).toNat ++ (if keepsPoint then ".0" else "")
  else
    String.ofList (digits.toList.take point.toNat) ++ "." ++
      String.ofList (digits.toList.drop point.toNat)

/-- One digit, the point and the others, and the exponent of the first digit. -/
def withExponent (digits : String) (leading : Int) : String :=
  let rest := String.ofList (digits.toList.drop 1)
  String.ofList (digits.toList.take 1) ++ (if rest.isEmpty then "" else "." ++ rest) ++ "e" ++
    toString leading

/-- NaN and the infinities by name, a finite double by its sign and `magnitude`. -/
def withSign (x : Float) (magnitude : Binary64 → String) : String :=
  match Binary64.ofFloat? x with
  | some v => (if v.negative then "-" else "") ++ magnitude v
  | none => if x.isNaN then "NaN" else if x < 0 then "-inf" else "inf"

/-- **The shortest text that reads back**, laid out as `style` says. -/
def render (style : Style) (x : Float) : String :=
  withSign x fun v =>
    let d := Digits.shortest v
    let digits := toString d.significand
    let leading := d.exponent + digits.length - 1
    if style.positional leading then positional digits (leading + 1) style.keepsPoint
    else withExponent digits leading

/-- **A fixed number of places**, ties to even, the sign kept for a rounded zero. -/
def fixed (places : Nat) (x : Float) : String :=
  withSign x fun v =>
    let digits := toString (Digits.rounded places v).significand
    let padded := zeros (places + 1 - digits.length) ++ digits
    if places = 0 then padded
    else positional padded (padded.length - places : Nat) false

/-- A number inside a message. -/
def plain (x : Float) : String :=
  render .plain x

end EncryptedReals.Decimal

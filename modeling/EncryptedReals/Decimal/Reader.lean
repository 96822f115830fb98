import EncryptedReals.Binary64

/-!
# Reading numbers

Decimal text is read into the nearest double, and digits into natural numbers.  The two entry points are
`Decimal.readFloat?`, which takes a sign, digits with at most one point and an exponent, or the names of the
values that are not finite, and `Decimal.readNat?`.
-/

namespace EncryptedReals.Decimal

/-- The value of a decimal digit. -/
def digitValue (c : Char) : Nat :=
  c.toNat - '0'.toNat

/-- The number that a run of digits continues. -/
def digitsFrom (start : Nat) (digits : List Char) : Nat :=
  digits.foldl (fun n c => 10 * n + digitValue c) start

/-- The double nearest to `significand * 10 ^ exponent`.  Magnitudes far outside the range are told apart
before any power is computed. -/
def toFloat (significand : Nat) (exponent : Int) : Float :=
  if significand = 0 then 0
  else
    let leading := (significand.log2 : Int) * 30103 / 100000 + exponent
    if 310 < leading then Float.ofBits 0x7ff0000000000000
    else if leading < -330 then 0
    else Float.ofScientific significand (decide (exponent < 0)) exponent.natAbs

/-- A sign in front, true for minus, and what follows. -/
def splitSign : List Char → Bool × List Char
  | '-' :: cs => (true, cs)
  | '+' :: cs => (false, cs)
  | cs => (false, cs)

/-- An exponent after the digits: none, or a mark, a sign and digits to the end. -/
def readExponent? : List Char → Option Int
  | [] => some 0
  | c :: cs =>
    if c = 'e' ∨ c = 'E' then
      let (negative, digits) := splitSign cs
      if digits.isEmpty || !digits.all Char.isDigit then none
      else
        let n : Int := digitsFrom 0 digits
        some (if negative then -n else n)
    else none

/-- The magnitude of a number: digits, a point and digits, at least one digit in all, and an exponent. -/
def readMagnitude? (cs : List Char) : Option Float :=
  let whole := cs.takeWhile Char.isDigit
  let rest := cs.dropWhile Char.isDigit
  let (fraction, rest) := match rest with
    | '.' :: rest => (rest.takeWhile Char.isDigit, rest.dropWhile Char.isDigit)
    | rest => ([], rest)
  if whole.isEmpty && fraction.isEmpty then none
  else
    (readExponent? rest).map fun e =>
      toFloat (digitsFrom (digitsFrom 0 whole) fraction) (e - fraction.length)

/-- The names of values that are not finite, in letters of any case. -/
def readName? (cs : List Char) : Option Float :=
  let name := String.ofList (cs.map Char.toLower)
  if name = "inf" ∨ name = "infinity" then some (Float.ofBits 0x7ff0000000000000)
  else if name = "nan" then some (Float.ofBits 0x7ff8000000000000)
  else none

/-- **A double from its text.** -/
def readFloat? (s : String) : Option Float :=
  let (negative, cs) := splitSign s.toList
  ((readName? cs).or (readMagnitude? cs)).map fun x => if negative then -x else x

/-- **A natural number below `bound` from its digits**, with a plus sign allowed. -/
def readNat? (bound : Nat) (s : String) : Option Nat :=
  let digits := match s.toList with
    | '+' :: cs => cs
    | cs => cs
  if digits.isEmpty || !digits.all Char.isDigit then none
  else
    let n := digitsFrom 0 digits
    if n < bound then some n else none

end EncryptedReals.Decimal

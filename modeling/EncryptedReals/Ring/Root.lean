import EncryptedReals.Ring.Modulus

/-!
# Roots of unity

The transform of length `n` modulo `q` needs a root `psi` with `psi ^ n = -1`, which then has order `2n`.
One exists exactly when `q` is 1 modulo `2n`; it is found as a power of the first element whose
`(q - 1) / 2n`-th power works.
-/

namespace EncryptedReals

-- Powers are those of the core library, whatever else is in scope.
attribute [local instance (2000)] instPowNat

/-- The `bits` lowest bits of a number in the opposite order. -/
def bitReverse : (bits n : Nat) → Nat
  | 0, _ => 0
  | bits + 1, n => 2 ^ bits * (n % 2) + bitReverse bits (n / 2)

namespace Modulus

/-- The first root among the powers of `g`, `g + 1`, …, trying `fuel` of them. -/
def searchRoot (q : Modulus) (n exponent : Nat) : (fuel g : Nat) → Option Nat
  | 0, _ => none
  | fuel + 1, g =>
    let psi := q.pow g exponent
    if q.pow psi n = q.value - 1 then some psi else searchRoot q n exponent fuel (g + 1)

/-- **A primitive `2n`-th root of unity**, `none` when there is none. -/
def primitiveRoot? (q : Modulus) (n : Nat) : Option Nat :=
  if q.value % (2 * n) = 1 then
    searchRoot q n ((q.value - 1) / (2 * n)) (q.value - 2) 2
  else none

end Modulus

end EncryptedReals

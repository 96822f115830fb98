/-!
# Bit lengths

The width of a natural number is what budgets of modulus bits, scales and coefficients are counted in.
-/

namespace EncryptedReals

/-- The number of bits of a natural number, none for zero. -/
def bitLength (n : Nat) : Nat :=
  if n = 0 then 0 else n.log2 + 1

end EncryptedReals

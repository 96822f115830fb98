import EncryptedReals.Ring.ResiduePoly

/-!
# Plaintexts and ciphertexts

A plaintext at a level is an encoded polynomial over the moduli of that level.  A ciphertext at a level is
a list of polynomials `c₀, c₁, …` and stands for `c₀ + c₁ s + c₂ s² + …`, where `s` is the secret.  Fresh
ciphertexts have two parts, and the product of two such has three.  All polynomials hold values of the
transform.
-/

namespace EncryptedReals

/-- **An encoded message.** -/
structure Plaintext where
  poly : ResiduePoly
  scale : Float
  level : Nat

/-- **An encrypted message.** -/
structure Ciphertext where
  parts : List ResiduePoly
  scale : Float
  /-- The index of the last data modulus that is still present. -/
  level : Nat
  /-- The context that the ciphertext belongs to. -/
  owner : Nat

namespace Ciphertext

/-- The number of parts. -/
def size (ct : Ciphertext) : Nat :=
  ct.parts.length

end Ciphertext

end EncryptedReals

import EncryptedReals.Ring.Modulus

/-!
# Primality of words

The strong probable prime test to the first twelve prime bases.  No composite number below `2 ^ 64`
passes it for all twelve, so on the range of the moduli the test decides primality.
-/

namespace EncryptedReals.Primality

/-- The bases of the test. -/
def witnesses : List Nat := [2, 3, 5, 7, 11, 13, 17, 19, 23, 29, 31, 37]

/-- The odd part of a positive number, and how often it was halved. -/
def oddPart : (fuel n twos : Nat) → Nat × Nat
  | 0, n, twos => (n, twos)
  | fuel + 1, n, twos => if n % 2 = 0 then oddPart fuel (n / 2) (twos + 1) else (n, twos)

/-- One of `x`, `x ^ 2`, …, `x ^ (2 ^ k)` is `-1`. -/
def reachesMinusOne (q : Modulus) : (k x : Nat) → Bool
  | 0, x => x == q.value - 1
  | k + 1, x => x == q.value - 1 || reachesMinusOne q k (q.mul x x)

/-- `n` passes the test to base `a`, where `n - 1 = odd * 2 ^ twos`. -/
def passes (n odd twos a : Nat) : Bool :=
  let q : Modulus := ⟨n⟩
  let x := q.pow a odd
  x == 1 || reachesMinusOne q (twos - 1) x

/-- **Primality of a number below `2 ^ 64`.** -/
def isPrime (n : Nat) : Bool :=
  if n < 2 then false
  else if witnesses.contains n then true
  else if witnesses.any (fun p => n % p == 0) then false
  else
    let (odd, twos) := oddPart n.log2 (n - 1) 0
    witnesses.all (passes n odd twos)

end EncryptedReals.Primality

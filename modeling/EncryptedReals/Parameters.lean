import EncryptedReals.Ring.PrimeChain

/-!
# Parameters of the scheme

A parameter set fixes the ring dimension `N`, a power of two, and a chain of primes that are 1 modulo
`2N`.  With two primes or more the last one is the *special* prime: it appears inside key switching only,
and ciphertexts live on the others, the *data* moduli.  A fresh ciphertext sits at the level of the last
data modulus, and each rescale drops one.  A chain of a single prime has no special prime and no key
switching.
-/

namespace EncryptedReals

-- Lists have the sums of the core library, whatever else is in scope.
attribute [local instance (2000)] Zero.ofOfNat0

/-- The security that a chain is checked against. -/
inductive Security where
  /-- 128 bits against classical attacks, for a ternary secret. -/
  | classical128
  /-- No bound on the modulus. -/
  | unchecked
deriving DecidableEq

namespace Security

/-- The most bits of modulus that leave 128 bits of security at a ring dimension. -/
def bound? : Nat → Option Nat
  | 1024 => some 27
  | 2048 => some 54
  | 4096 => some 109
  | 8192 => some 218
  | 16384 => some 438
  | 32768 => some 881
  | _ => none

end Security

/-- **A validated parameter set.** -/
structure Parameters where
  degree : Nat
  moduli : List Modulus
  security : Security
deriving DecidableEq

namespace Parameters

/-- The widest modulus of a chain. -/
def maxModulusBits : Nat := 60

/-- The chain of widths used at a ring dimension when none is asked for. -/
def defaultWidths? : Nat → Option (List Nat)
  | 1024 => some [27]
  | 2048 => some [54]
  | 4096 => some [36, 36, 37]
  | 8192 => some [43, 43, 44, 44, 44]
  | 16384 => some [48, 48, 48, 49, 49, 49, 49, 49, 49]
  | 32768 => some (List.replicate 15 55 ++ [56])
  | _ => none

/-- The default chain of widths, or the failure that there is none. -/
def defaultWidths (degree : Nat) : Except Failure (List Nat) :=
  match defaultWidths? degree with
  | some widths => .ok widths
  | none => .error (.configuration (.noDefaultChain degree))

/-- The total width of a chain stays within the bound of the security level. -/
def checkSecurity (degree total : Nat) : Security → Except Failure Unit
  | .unchecked => .ok ()
  | .classical128 =>
    match Security.bound? degree with
    | none => .error (.configuration (.noSecurityBound degree))
    | some bound =>
      if bound < total then .error (.configuration (.chainTooWide total degree bound)) else .ok ()

/-- **The parameters of a ring dimension and a list of widths.**  The dimension is checked first, then
the widths, then the security bound; the primes are generated last. -/
def make (degree : Nat) (widths : List Nat) (security : Security) : Except Failure Parameters :=
  if !PrimeChain.isPowerOfTwo degree || degree < 2 then
    .error (.configuration (.ringDimension degree))
  else if widths.isEmpty then
    .error (.configuration .emptyChain)
  else
    match widths.find? (fun bits => bits < 2 || maxModulusBits < bits) with
    | some bits => .error (.configuration (.modulusWidth bits))
    | none => do
      checkSecurity degree widths.sum security
      let moduli ← PrimeChain.generate (2 * degree) widths
      return { degree, moduli, security }

/-- The default parameters of a ring dimension. -/
def default (degree : Nat) : Except Failure Parameters := do
  make degree (← defaultWidths degree) .classical128

/-! ### What the chain offers -/

/-- Half of the ring dimension: the number of reals that fit one plaintext. -/
def slots (params : Parameters) : Nat :=
  params.degree / 2

/-- The number of halvings of the ring dimension. -/
def logDegree (params : Parameters) : Nat :=
  params.degree.log2

/-- A second prime makes key switching possible. -/
def hasKeySwitching (params : Parameters) : Bool :=
  2 ≤ params.moduli.length

/-- The moduli that ciphertexts live on. -/
def dataModuli (params : Parameters) : List Modulus :=
  if params.hasKeySwitching then params.moduli.dropLast else params.moduli

/-- The prime that appears inside key switching only. -/
def special? (params : Parameters) : Option Modulus :=
  if params.hasKeySwitching then params.moduli.getLast? else none

/-- The level of a fresh ciphertext. -/
def maxLevel (params : Parameters) : Nat :=
  params.dataModuli.length - 1

/-- The moduli at a level: the first `level + 1` of the chain. -/
def moduliAt (params : Parameters) (level : Nat) : List Modulus :=
  params.moduli.take (level + 1)

/-- The width of the modulus at a level. -/
def bitsAt (params : Parameters) (level : Nat) : Nat :=
  totalBits (params.moduliAt level)

end Parameters

end EncryptedReals

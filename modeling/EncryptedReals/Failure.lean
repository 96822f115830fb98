import EncryptedReals.Decimal.Style

/-!
# Failures

Every fallible operation answers with a `Failure`: the cause, with the numbers that make it up.  The
causes fall into eight kinds (`Failure.Kind`), and each has one wording (`Failure.message`).

## Design Notes

A failure that arises while a ciphertext is taken out of the encrypted domain is reported as a
decryption failure whatever its own kind; `undecryptable` keeps the cause it wraps.
-/

namespace EncryptedReals

/-- Operands disagree on owner, level, scale, shape or count. -/
inductive Mismatch where
  | foreignPublicKey
  | foreignRelinearizationKey
  | foreignGaloisKeys
  | foreignCiphertext (owner user : Nat)
  | levelAboveTop (level top : Nat)
  | partShape (limbs coefficients level expected degree : Nat)
  | operandLevels (left right : Nat)
  | operandScales (left right : Float)
  | switchUp (source target : Nat)
  | plaintextLevel (plain cipher : Nat)
  | plaintextTag (plainScale : Float) (plainLevel : Nat) (cipherScale : Float) (cipherLevel : Nat)
  | flagCount (item collection : Nat)

namespace Mismatch

/-- The wording of a mismatch. -/
def message : Mismatch → String
  | foreignPublicKey => "public key belongs to another context"
  | foreignRelinearizationKey => "relinearization keys belong to another context"
  | foreignGaloisKeys => "Galois keys belong to another context"
  | foreignCiphertext owner user => s!"ciphertext from context {owner} used with context {user}"
  | levelAboveTop level top => s!"level {level} above the top data level {top}"
  | partShape limbs coefficients level expected degree =>
    s!"component has {limbs} limbs of {coefficients} coefficients, level {level} needs " ++
      s!"{expected} of {degree}"
  | operandLevels left right => s!"operand levels differ: {left} vs {right}"
  | operandScales left right =>
    s!"operand scales differ: {Decimal.plain left} vs {Decimal.plain right}"
  | switchUp source target => s!"cannot switch from level {source} up to level {target}"
  | plaintextLevel plain cipher =>
    s!"plaintext level {plain} differs from ciphertext level {cipher}"
  | plaintextTag plainScale plainLevel cipherScale cipherLevel =>
    s!"plaintext (scale {Decimal.plain plainScale}, level {plainLevel}) does not match " ++
      s!"ciphertext (scale {Decimal.plain cipherScale}, level {cipherLevel})"
  | flagCount item collection => s!"item has {item} flags, collection expects {collection}"

end Mismatch

/-- A value cannot be written at the requested scale. -/
inductive Overflow where
  | tooManyValues (values slots : Nat)
  | invalidScale (scale : Float)
  | notFinite (index : Nat) (coefficient : Float)
  | tooWide (bits modulusBits : Nat)

namespace Overflow

/-- The wording of an encoding overflow. -/
def message : Overflow → String
  | tooManyValues values slots => s!"{values} values exceed the {slots} available slots"
  | invalidScale scale => s!"invalid scale {Decimal.plain scale}"
  | notFinite index coefficient => s!"coefficient {index} is {Decimal.plain coefficient}"
  | tooWide bits modulusBits => s!"encoded value needs {bits} bits, modulus has {modulusBits}"

end Overflow

/-- The families of coefficients that are computed from a number of terms. -/
inductive Family where
  | chebyshev
  | lagrange
deriving DecidableEq

namespace Family

/-- The name under which a family is spoken of. -/
def name : Family → String
  | chebyshev => "Chebyshev"
  | lagrange => "Lagrange"

end Family

/-- A parameter set, a key request or an argument that no computation can start from. -/
inductive Misconfiguration where
  | ringDimension (n : Nat)
  | emptyChain
  | modulusWidth (bits : Nat)
  | noSecurityBound (n : Nat)
  | chainTooWide (total n bound : Nat)
  | primesExhausted (bits order : Nat)
  | noDefaultChain (n : Nat)
  | transformSize (n : Nat)
  | noRoot (q order : Nat)
  | noSpecialPrime
  | initialScale (scale : Float)
  | noTerms (family : Family)
  | chebyshevOverflow (degree : Nat)
  | noCoefficients
  | nothingToEvaluate
  | comparisonBound (bound : Float)
  | meanOfNothing
  | noValueAt (index : Nat)
  | nothingToSelect
  | flagOutOfRange (index count : Nat)
  | missingFlag (index : Nat)

namespace Misconfiguration

/-- The wording of a misconfiguration. -/
def message : Misconfiguration → String
  | ringDimension n => s!"ring dimension {n} is not a power of two"
  | emptyChain => "modulus chain must contain at least one prime"
  | modulusWidth bits => s!"modulus bit size {bits} outside 2..=60"
  | noSecurityBound n => s!"no 128-bit security bound is known for ring dimension {n}"
  | chainTooWide total n bound =>
    s!"modulus chain uses {total} bits, ring dimension {n} allows {bound}"
  | primesExhausted bits order => s!"not enough {bits}-bit primes congruent to 1 mod {order}"
  | noDefaultChain n => s!"no default modulus chain for ring dimension {n}"
  | transformSize n => s!"N={n} is not a power of 2"
  | noRoot q order => s!"q={q} has no primitive {order}-th root of unity"
  | noSpecialPrime =>
    "key switching needs at least two moduli (the last one is the special prime)"
  | initialScale scale => s!"initial scale {Decimal.plain scale} must be positive"
  | noTerms family => s!"{family.name} strategy needs at least one term"
  | chebyshevOverflow degree => s!"Chebyshev coefficients of T_{degree} overflow"
  | noCoefficients => "explicit coefficient list is empty"
  | nothingToEvaluate => "no coefficients to evaluate"
  | comparisonBound bound => s!"comparison bound {Decimal.plain bound} must be positive"
  | meanOfNothing => "mean of no values"
  | noValueAt index => s!"no value at index {index}"
  | nothingToSelect => "nothing to select from"
  | flagOutOfRange index count => s!"flag {index} out of range for {count} flags"
  | missingFlag index => s!"item is missing flag {index}"

end Misconfiguration

/-- **Why an operation failed.** -/
inductive Failure where
  | mismatch (cause : Mismatch)
  | chainExhausted (level : Nat)
  | overflow (cause : Overflow)
  | foreignDecryption (owner user : Nat)
  | undecryptable (cause : Failure)
  | noSlots
  | configuration (cause : Misconfiguration)
  | scaleOutOfBounds (scaleBits : Float) (modulusBits : Nat)
  | missingKey (step : Int)
  | unsupportedSize (size : Nat)

namespace Failure

/-- The kinds of failure that callers tell apart. -/
inductive Kind where
  | mismatch
  | chainExhausted
  | encodingOverflow
  | decryption
  | configuration
  | scaleOutOfBounds
  | missingKey
  | unsupportedSize
deriving DecidableEq

/-- The kind of a failure. -/
def kind : Failure → Kind
  | mismatch _ => .mismatch
  | chainExhausted _ => .chainExhausted
  | overflow _ => .encodingOverflow
  | foreignDecryption .. => .decryption
  | undecryptable _ => .decryption
  | noSlots => .decryption
  | configuration _ => .configuration
  | scaleOutOfBounds .. => .scaleOutOfBounds
  | missingKey _ => .missingKey
  | unsupportedSize _ => .unsupportedSize

/-- **The text of a failure.** -/
def message : Failure → String
  | mismatch cause => "Parameter mismatch: " ++ cause.message
  | chainExhausted level => s!"Modulus chain exhausted at level {level}"
  | overflow cause => "Encoding overflow: " ++ cause.message
  | foreignDecryption owner user =>
    s!"Decryption error: ciphertext from context {owner} cannot be decrypted by context {user}"
  | undecryptable cause => "Decryption error: " ++ cause.message
  | noSlots => "Decryption error: decoded no slots"
  | configuration cause => "Configuration error: " ++ cause.message
  | scaleOutOfBounds scaleBits modulusBits =>
    s!"Scale out of bounds: 2^{Decimal.fixed 2 scaleBits} does not fit a {modulusBits}-bit modulus"
  | missingKey step => s!"Missing Galois key for rotation by {step}"
  | unsupportedSize size => s!"Unsupported ciphertext size {size}"

end Failure

end EncryptedReals

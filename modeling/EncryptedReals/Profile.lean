import EncryptedReals.Context
import EncryptedReals.SetupFailure

/-!
# Profiles

A profile is a point of the parameter space: a ring dimension, the widths of the chain, the scale of fresh
ciphertexts, and the security that is asked for.  No widths stand for the default chain of the dimension.
Five profiles have names.
-/

namespace EncryptedReals

/-- **A choice of parameters.** -/
structure Profile where
  degree : Nat
  /-- The widths of the chain, none for the default chain. -/
  widths : List Nat
  scale : Float
  security : Security

namespace Profile

/-- A profile at full security. -/
def secure (degree : Nat) (widths : List Nat) (scale : Float) : Profile :=
  ⟨degree, widths, scale, .classical128⟩

/-! ### Named profiles -/

/-- The scale of the small profiles. -/
def smallScale : Float := 1024

/-- The scale `2 ^ 40` of the large profiles. -/
def largeScale : Float := 1099511627776

/-- A single prime: encrypts and adds, without key switching. -/
def light : Profile := secure 2048 [54] smallScale

def moderate : Profile := secure 4096 [36, 36, 36] smallScale

/-- Two rescales at the large scale. -/
def heavy : Profile := secure 8192 [60, 40, 40, 60] largeScale

def manyMul : Profile := secure 8192 [40, 40, 40, 40, 40] smallScale

/-- Three rescales at the large scale. -/
def deep : Profile := secure 16384 [60, 40, 40, 40, 60] largeScale

/-- The named profiles in the order they are listed. -/
def named : List (String × Profile) :=
  [("light", light), ("moderate", moderate), ("heavy", heavy), ("many-mul", manyMul),
    ("deep", deep)]

/-- A name as it is looked up: ASCII letters in lower case, hyphens for underscores. -/
def normalName (name : String) : String :=
  name.map fun c => if c = '_' then '-' else c.toLower

/-- **The profile of a name.** -/
def lookup (name : String) : Except SetupFailure Profile :=
  match named.lookup (normalName name) with
  | some profile => .ok profile
  | none => .error (.invalid (.unknownProfile name (named.map Prod.fst)))

/-- The default chain of a ring dimension, at the square root of its last prime as scale. -/
def default (degree : Nat) : Except Failure Profile := do
  let params ← Parameters.default degree
  let last := (params.moduli.getLast?.map Modulus.value).getD 0
  return secure degree [] (Binary64.nearest last).sqrt

/-! ### What a profile stands for -/

/-- The widths that are used: the profile's own, or those of the default chain. -/
def resolvedWidths (p : Profile) : Except Failure (List Nat) :=
  if p.widths.isEmpty then Parameters.defaultWidths p.degree else .ok p.widths

/-- **The parameters of a profile.**  The scale is checked before the chain. -/
def parameters (p : Profile) : Except Failure Parameters := do
  if !(p.scale.isFinite && p.scale > 0) then
    throw (.configuration (.initialScale p.scale))
  Parameters.make p.degree (← p.resolvedWidths) p.security

/-- **The number of rescales of a fresh ciphertext**: two less than the primes of the chain. -/
def depth (p : Profile) : Nat :=
  match p.resolvedWidths with
  | .ok widths => widths.length - 2
  | .error _ => 0

/-- A list of widths as it is shown. -/
def showWidths (widths : List Nat) : String :=
  "[" ++ String.intercalate ", " (widths.map toString) ++ "]"

/-- **A profile on one line.** -/
def describe (p : Profile) : String :=
  let chain := if p.widths.isEmpty then "default" else showWidths p.widths
  s!"N={p.degree} q={chain} scale=2^{Decimal.fixed 2 p.scale.log2}"

/-- The smallest large profile with enough levels for a number of rescales. -/
def forDepth (depth : Nat) : Profile :=
  if depth ≤ 2 then heavy else deep

end Profile

end EncryptedReals

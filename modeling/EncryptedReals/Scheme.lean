import EncryptedReals.Evaluation
import EncryptedReals.Profile
import EncryptedReals.Trace

/-!
# Schemes

A scheme is a profile with its context and all of its keys.  It takes reals into the encrypted domain and
back, and it runs the operations on ciphertexts with its own keys, as observed computations.

## Main Definitions

* `Scheme.build` — a scheme from a profile, rotation steps and a generator
* `Scheme.encryptValue`, `Scheme.encryptSlots`, `Scheme.decryptValue`, `Scheme.decryptSlots`
* `Scheme.add`, `Scheme.multiplyRescale`, … — the observed operations
* `Channel` — a scheme with a generator of its own
-/

namespace EncryptedReals

/-- **A context with its keys.** -/
structure Scheme where
  profile : Profile
  context : Context
  secretKey : SecretKey
  publicKey : PublicKey
  relinearizationKey : RelinearizationKey
  galoisKeys : GaloisKeys
  rotations : List Int

namespace Scheme

/-- The rotation steps that get a key when no others are asked for. -/
def defaultRotations : List Int := [1, -1]

/-- The keys of a context, drawn in the order secret, public, relinearization, rotations. -/
def draw (profile : Profile) (context : Context) (rotations : List Int) : FallibleDrawing Scheme := do
  let secretKey ← SecretKey.draw context
  let publicKey ← PublicKey.draw context secretKey
  let relinearizationKey ← RelinearizationKey.draw context secretKey
  let galoisKeys ← GaloisKeys.draw context secretKey rotations
  return { profile, context, secretKey, publicKey, relinearizationKey, galoisKeys, rotations }

/-- **A scheme from a profile.**  The context takes its number before the scale is checked. -/
def build (profile : Profile) (rotations : List Int) (generator : Generator) : Allocating Scheme := do
  let context ← Context.allocate (← profile.parameters)
  checkScale profile.scale (context.moduliAt context.maxLevel)
  ((draw profile context rotations).run generator).1

/-- The level of a fresh ciphertext. -/
def maxLevel (s : Scheme) : Nat :=
  s.context.maxLevel

/-- The scale of a fresh ciphertext. -/
def scale (s : Scheme) : Float :=
  s.profile.scale

/-! ### Into the encrypted domain and back -/

/-- **Encrypts one value** at the top level.  A value that cannot be encoded draws nothing. -/
def encryptValue (s : Scheme) (value scale : Float) : FallibleDrawing Ciphertext := do
  let pt ← s.context.encodeScalar value scale s.maxLevel
  s.context.encrypt pt s.publicKey

/-- **Encrypts a list of values**, one for each slot. -/
def encryptSlots (s : Scheme) (values : List Float) (scale : Float) : FallibleDrawing Ciphertext := do
  let pt ← s.context.encodeSlots values scale s.maxLevel
  s.context.encrypt pt s.publicKey

/-- **The slot values of a ciphertext.** -/
def decryptSlots (s : Scheme) (ct : Ciphertext) : Except Failure (Array Float) := do
  let pt ← s.context.decrypt ct s.secretKey
  (s.context.decode pt).mapError .undecryptable

/-- **The value of the first slot.** -/
def decryptValue (s : Scheme) (ct : Ciphertext) : Except Failure Float := do
  match (← s.decryptSlots ct)[0]? with
  | some value => return value
  | none => throw .noSlots

/-- Encrypts a value and decrypts it again. -/
def roundTrip (s : Scheme) (value : Float) : FallibleDrawing Float := do
  let ct ← s.encryptValue value s.scale
  s.decryptValue ct

/-! ### Observed operations -/

/-- Sum. -/
def add (s : Scheme) (a b : Ciphertext) : Observed Ciphertext :=
  .record .add [a, b] (s.context.add a b)

/-- Sum into the left operand.  It is copied beforehand only for an observer, who is shown it as it was. -/
def addInPlace (s : Scheme) (isObserved : Bool) (b : Ciphertext) : Updating Unit := do
  if isObserved then
    let (before, _) ← getThe (Ciphertext × List Step)
    .change (s.context.addInPlace b)
    .record .add [before, b]
  else
    .change (s.context.addInPlace b)

/-- Adds a ciphertext to a running sum.  The empty sum takes it as it is. -/
def accumulate (s : Scheme) (sum : Option Ciphertext) (ct : Ciphertext) : Observed Ciphertext :=
  match sum with
  | some acc => s.add acc ct
  | none => return ct

/-- Difference. -/
def sub (s : Scheme) (a b : Ciphertext) : Observed Ciphertext :=
  .record .sub [a, b] (s.context.sub a b)

/-- Negation. -/
def negate (s : Scheme) (ct : Ciphertext) : Observed Ciphertext :=
  .record .negate [ct] (s.context.negate ct)

/-- Product, of three parts. -/
def multiply (s : Scheme) (a b : Ciphertext) : Observed Ciphertext :=
  .record .multiply [a, b] (s.context.multiply a b)

/-- A product brought back to two parts. -/
def relinearize (s : Scheme) (ct : Ciphertext) : Observed Ciphertext :=
  .record .relinearize [ct] (s.context.relinearize ct s.relinearizationKey)

/-- Division by the last modulus. -/
def rescale (s : Scheme) (ct : Ciphertext) : Observed Ciphertext :=
  .record .rescale [ct] (s.context.rescale ct)

/-- Drops moduli down to a level.  At the level already, nothing happens and nothing is recorded. -/
def switchTo (s : Scheme) (ct : Ciphertext) (level : Nat) : Observed Ciphertext :=
  if level = ct.level then return ct
  else .record .switchLevel [ct] (s.context.switchTo ct level)

/-- Product with a value, encoded at a scale of its own on the ciphertext's level. -/
def multiplyPlain (s : Scheme) (ct : Ciphertext) (value plainScale : Float) : Observed Ciphertext :=
  .record .multiplyPlain [ct] do
    s.context.multiplyPlain ct (← s.context.encodeScalar value plainScale ct.level)

/-- Sum with a value, encoded at the ciphertext's scale and level. -/
def addPlain (s : Scheme) (ct : Ciphertext) (value : Float) : Observed Ciphertext :=
  .record .addPlain [ct] do
    s.context.addPlain ct (← s.context.encodeScalar value ct.scale ct.level)

/-- Rotation of the slots to the left. -/
def rotate (s : Scheme) (ct : Ciphertext) (step : Int) : Observed Ciphertext :=
  .record (.rotate step) [ct] (s.context.rotate ct step s.galoisKeys)

/-- **Product, relinearized and rescaled.** -/
def multiplyRescale (s : Scheme) (a b : Ciphertext) : Observed Ciphertext := do
  let product ← s.multiply a b
  let relinearized ← s.relinearize product
  s.rescale relinearized

/-- Encrypts every value and adds them up; nothing for no values. -/
def encryptSum (s : Scheme) (values : List Float) : FallibleDrawing (Option Ciphertext) :=
  values.foldlM (fun sum value => do
    let ct ← s.encryptValue value s.scale
    return some (← (s.accumulate sum ct).result)) none

end Scheme

/-- **A scheme with a generator of its own**, which every encryption moves on. -/
structure Channel where
  scheme : Scheme
  generator : Generator

namespace Channel

/-- The channel of a scheme at the start of a seed's stream. -/
def ofSeed (scheme : Scheme) (seed : UInt64) : Channel :=
  ⟨scheme, .ofSeed seed⟩

/-- Runs a computation on the channel's generator. -/
def run {α : Type} (c : Channel) (x : FallibleDrawing α) : Except Failure α × Channel :=
  let (result, generator) := x.run c.generator
  (result, { c with generator })

end Channel

end EncryptedReals

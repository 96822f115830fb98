import EncryptedReals.Ciphertext
import EncryptedReals.Parameters
import EncryptedReals.Ring.Reconstruction
import EncryptedReals.Slots.Encoding

/-!
# Contexts

A context is a parameter set with everything computed from it, under a number of its own.  Ciphertexts and
keys carry the number of their context, and no operation mixes contexts.

## Main Definitions

* `Context.make`, `Context.allocate` — a context under a given number, or under the next free one
* `Context.checkLevel`, `Context.checkShape` — the levels and the ciphertext shapes a context can index
* `Context.encodeScalar`, `Context.encodeSlots`, `Context.decode` — between reals and plaintexts
-/

namespace EncryptedReals

/-- **A parameter set with its tables.** -/
structure Context where
  id : Nat
  parameters : Parameters
  /-- One transform for each modulus, the special prime's last. -/
  transforms : List Transform
  embedding : Embedding

/-- Computations that take the next free context number for each context they make. -/
abbrev Allocating := ExceptT Failure (StateM Nat)

namespace Context

/-- The context of a parameter set, under a number. -/
def make (id : Nat) (parameters : Parameters) : Except Failure Context := do
  let transforms ← parameters.moduli.mapM (Transform.make parameters.degree)
  return { id, parameters, transforms, embedding := Embedding.make parameters.degree }

/-- **A context under the next free number.**  A failure takes no number. -/
def allocate (parameters : Parameters) : Allocating Context := do
  let id ← getThe Nat
  let ctx ← make id parameters
  set (id + 1)
  return ctx

/-- The ring dimension. -/
def degree (ctx : Context) : Nat :=
  ctx.parameters.degree

/-- The level of a fresh ciphertext. -/
def maxLevel (ctx : Context) : Nat :=
  ctx.parameters.maxLevel

/-- The moduli at a level. -/
def moduliAt (ctx : Context) (level : Nat) : List Modulus :=
  ctx.parameters.moduliAt level

/-! ### Levels and shapes -/

/-- A level has a data modulus. -/
def checkLevel (ctx : Context) (level : Nat) : Except Failure Unit :=
  if ctx.maxLevel < level then .error (.mismatch (.levelAboveTop level ctx.maxLevel)) else .ok ()

/-- A part declares one limb for each modulus of the level, of as many coefficients as the ring has. -/
def checkPart (ctx : Context) (level : Nat) (part : ResiduePoly) : Except Failure Unit :=
  if part.limbs.length != level + 1 || part.degree != ctx.degree then
    .error (.mismatch
      (.partShape part.limbs.length part.degree level (level + 1) ctx.degree))
  else .ok ()

/-- **The declared shape of a ciphertext fits the context**: a level with a data modulus, two parts or
more, and parts of the shape of that level. -/
def checkShape (ctx : Context) (ct : Ciphertext) : Except Failure Unit := do
  ctx.checkLevel ct.level
  if ct.size < 2 then
    throw (.unsupportedSize ct.size)
  ct.parts.forM (ctx.checkPart ct.level)

/-- **The ciphertext belongs to this context and its declared shape fits.** -/
def checkOwned (ctx : Context) (ct : Ciphertext) : Except Failure Unit := do
  if ct.owner != ctx.id then
    throw (.mismatch (.foreignCiphertext ct.owner ctx.id))
  ctx.checkShape ct

/-! ### Plaintexts -/

/-- The values of a polynomial given by its coefficients. -/
def forward (ctx : Context) (p : ResiduePoly) : ResiduePoly :=
  p.forward ctx.transforms

/-- The plaintext of a polynomial in coefficient form. -/
def plaintext (ctx : Context) (p : ResiduePoly) (scale : Float) (level : Nat) : Plaintext :=
  ⟨ctx.forward p, scale, level⟩

/-- **One value as a plaintext at a level.** -/
def encodeScalar (ctx : Context) (value scale : Float) (level : Nat) : Except Failure Plaintext := do
  ctx.checkLevel level
  let p ← ctx.embedding.encodeScalar value scale (ctx.moduliAt level)
  return ctx.plaintext p scale level

/-- **A list of values as a plaintext at a level.** -/
def encodeSlots (ctx : Context) (values : List Float) (scale : Float) (level : Nat) :
    Except Failure Plaintext := do
  ctx.checkLevel level
  let p ← ctx.embedding.encodeSlots values scale (ctx.moduliAt level)
  return ctx.plaintext p scale level

/-- The centred integer coefficients of a plaintext. -/
def integers (ctx : Context) (pt : Plaintext) : Array Int :=
  (Reconstruction.ofModuli (ctx.moduliAt pt.level)).composePoly (pt.poly.inverse ctx.transforms)

/-- **The slot values of a plaintext.** -/
def decode (ctx : Context) (pt : Plaintext) : Except Failure (Array Float) := do
  ctx.checkLevel pt.level
  return ctx.embedding.decode ((ctx.integers pt).map Binary64.nearest) pt.scale

end Context

end EncryptedReals

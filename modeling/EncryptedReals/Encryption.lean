import EncryptedReals.Keys

/-!
# Encryption and decryption

Encryption under `(b, a)` with ternary `u` and errors `e₀, e₁` is `(b u + e₀ + m, a u + e₁)`.  Decryption
evaluates a ciphertext at the secret by Horner's rule.
-/

namespace EncryptedReals.Context

/-- The randomness of one encryption: `u`, `e₀` and `e₁`. -/
structure Noise where
  u : Array Int
  e0 : Array Int
  e1 : Array Int

namespace Noise

/-- The draws of one encryption. -/
def draw (ctx : Context) : Drawing Noise := do
  let u ← Sampler.ternary ctx.degree
  let e0 ← ctx.drawErrors
  let e1 ← ctx.drawErrors
  return ⟨u, e0, e1⟩

end Noise

/-- The key is this context's, and the plaintext has a level. -/
def checkEncryptable (ctx : Context) (pt : Plaintext) (pk : PublicKey) : Except Failure Unit := do
  if pk.owner != ctx.id then
    throw (.mismatch .foreignPublicKey)
  ctx.checkLevel pt.level

/-- The ciphertext of a plaintext under given randomness. -/
def encryptWith (ctx : Context) (pt : Plaintext) (pk : PublicKey) (noise : Noise) : Ciphertext :=
  let moduli := ctx.moduliAt pt.level
  let u := ctx.lift noise.u moduli
  let b := pk.b.truncate (pt.level + 1)
  let a := pk.a.truncate (pt.level + 1)
  let c0 := ((b.mul moduli u).add moduli (ctx.lift noise.e0 moduli)).add moduli pt.poly
  let c1 := (a.mul moduli u).add moduli (ctx.lift noise.e1 moduli)
  { parts := [c0, c1], scale := pt.scale, level := pt.level, owner := ctx.id }

/-- **Encryption at the plaintext's level.**  Nothing is drawn when the checks fail. -/
def encrypt (ctx : Context) (pt : Plaintext) (pk : PublicKey) : FallibleDrawing Ciphertext := do
  ctx.checkEncryptable pt pk
  return ctx.encryptWith pt pk (← Noise.draw ctx)

/-- The value of `c₀ + c₁ s + c₂ s² + …`, from the highest part down. -/
def evaluateAt (moduli : List Modulus) (s : ResiduePoly) (parts : List ResiduePoly) : ResiduePoly :=
  match parts.reverse with
  | [] => ⟨[], 0⟩
  | last :: lower => lower.foldl (fun m part => (m.mul moduli s).add moduli part) last

/-- The ciphertext and the secret are this context's, and the ciphertext's declared shape fits.  A shape
that does not is reported as a failure of decryption. -/
def checkDecryptable (ctx : Context) (ct : Ciphertext) (sk : SecretKey) : Except Failure Unit :=
  if ct.owner != ctx.id || sk.owner != ctx.id then
    .error (.foreignDecryption ct.owner ctx.id)
  else
    (ctx.checkShape ct).mapError .undecryptable

/-- **Decryption of a ciphertext of any size.** -/
def decrypt (ctx : Context) (ct : Ciphertext) (sk : SecretKey) : Except Failure Plaintext := do
  ctx.checkDecryptable ct sk
  let s := sk.poly.truncate (ct.level + 1)
  return ⟨evaluateAt (ctx.moduliAt ct.level) s ct.parts, ct.scale, ct.level⟩

end EncryptedReals.Context

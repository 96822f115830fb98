import EncryptedReals.Encryption
import EncryptedReals.KeySwitch

/-!
# Operations on ciphertexts

The operations check their operands first: owner and declared shape of each ciphertext in turn, then keys,
then whatever the operation asks of levels and scales.  No operation relinearizes or rescales by itself, so
a product is followed by `relinearize` and `rescale` where the caller wants them.
-/

namespace EncryptedReals.Context

/-! ### Sums -/

/-- Summands share level and scale. -/
def checkSummands (a b : Ciphertext) : Except Failure Unit := do
  if a.level != b.level then
    throw (.mismatch (.operandLevels a.level b.level))
  if a.scale != b.scale then
    throw (.mismatch (.operandScales a.scale b.scale))

/-- The parts of a sum; a missing part counts as zero. -/
def addParts (moduli : List Modulus) (zero : ResiduePoly) (a b : List ResiduePoly) :
    List ResiduePoly :=
  overlay (fun p r => p.add moduli r) (a ++ List.replicate (b.length - a.length) zero) b

/-- **Sum of two ciphertexts** of one level and scale. -/
def add (ctx : Context) (a b : Ciphertext) : Except Failure Ciphertext := do
  ctx.checkOwned a
  ctx.checkOwned b
  checkSummands a b
  let zero := ResiduePoly.zero ctx.degree (a.level + 1)
  return { a with parts := addParts (ctx.moduliAt a.level) zero a.parts b.parts }

/-- **Sum into the left operand.**  After the checks it is filled up with zeros to the size of the right
operand, and then the parts are added. -/
def addInPlace (ctx : Context) (b : Ciphertext) : ExceptT Failure (StateM Ciphertext) Unit := do
  let a ← getThe Ciphertext
  ctx.checkOwned a
  ctx.checkOwned b
  checkSummands a b
  let zero := ResiduePoly.zero ctx.degree (a.level + 1)
  modifyThe Ciphertext fun sum =>
    { sum with parts := sum.parts ++ List.replicate (b.size - sum.size) zero }
  modifyThe Ciphertext fun sum =>
    { sum with parts := overlay (fun p r => p.add (ctx.moduliAt a.level) r) sum.parts b.parts }

/-- **Negation.** -/
def negate (ctx : Context) (ct : Ciphertext) : Except Failure Ciphertext := do
  ctx.checkOwned ct
  return { ct with parts := ct.parts.map fun p => p.neg (ctx.moduliAt ct.level) }

/-- **Difference**, the sum with the negation.  The second operand is checked first. -/
def sub (ctx : Context) (a b : Ciphertext) : Except Failure Ciphertext := do
  let negated ← ctx.negate b
  ctx.add a negated

/-! ### Products -/

/-- The scale of a product is finite and fits the modulus at the level. -/
def checkProductScale (ctx : Context) (scale : Float) (level : Nat) : Except Failure Unit :=
  let bits := ctx.parameters.bitsAt level
  if scale.isFinite && scaleFits scale bits then .ok ()
  else .error (.scaleOutOfBounds scale.log2 bits)

/-- Part `k` of a product: the sum of the products of parts whose indices add up to `k`. -/
def productPart (moduli : List Modulus) (zero : ResiduePoly) (a b : List ResiduePoly) (k : Nat) :
    ResiduePoly :=
  (List.range (k + 1)).foldl (fun acc i =>
    match a[i]?, b[k - i]? with
    | some p, some r => acc.addMul moduli p r
    | _, _ => acc) zero

/-- **Product of two ciphertexts** of one level: sizes add up less one, and scales multiply. -/
def multiply (ctx : Context) (a b : Ciphertext) : Except Failure Ciphertext := do
  ctx.checkOwned a
  ctx.checkOwned b
  if a.level != b.level then
    throw (.mismatch (.operandLevels a.level b.level))
  let scale := a.scale * b.scale
  ctx.checkProductScale scale a.level
  let zero := ResiduePoly.zero ctx.degree (a.level + 1)
  let parts := (List.range (a.size + b.size - 1)).map
    (productPart (ctx.moduliAt a.level) zero a.parts b.parts)
  return { parts, scale, level := a.level, owner := a.owner }

/-- **A product of three parts brought back to two**; two parts stay as they are. -/
def relinearize (ctx : Context) (ct : Ciphertext) (key : RelinearizationKey) :
    Except Failure Ciphertext := do
  ctx.checkOwned ct
  if key.owner != ct.owner then
    throw (.mismatch .foreignRelinearizationKey)
  match ct.parts with
  | [_, _] => return ct
  | [c0, c1, c2] =>
    let moduli := ctx.moduliAt ct.level
    let (k0, k1) := key.key.apply ctx c2 ct.level
    return { ct with parts := [c0.add moduli k0, c1.add moduli k1] }
  | _ => throw (.unsupportedSize ct.size)

/-! ### Levels -/

/-- A part divided by the modulus at an index, which is its last. -/
def rescalePart (ctx : Context) (index : Nat) (last : Transform) (p : ResiduePoly) : ResiduePoly :=
  { p with
    limbs := divideByLast last (p.limbs.getD index #[]) (p.limbs.take index) ctx.transforms }

/-- **Drops the last modulus and divides by it**, rounding to nearest. -/
def rescale (ctx : Context) (ct : Ciphertext) : Except Failure Ciphertext := do
  ctx.checkOwned ct
  match ct.level, ctx.transforms[ct.level]? with
  | level + 1, some last =>
    return { ct with
      parts := ct.parts.map (ctx.rescalePart (level + 1) last)
      scale := ct.scale / Binary64.nearest last.modulus.value
      level := level }
  | level, _ => throw (.chainExhausted level)

/-- **Drops moduli down to a level** and leaves the scale alone. -/
def switchTo (ctx : Context) (ct : Ciphertext) (level : Nat) : Except Failure Ciphertext := do
  ctx.checkOwned ct
  if ct.level < level then
    throw (.mismatch (.switchUp ct.level level))
  return { ct with parts := ct.parts.map fun p => p.truncate (level + 1), level }

/-! ### Plaintext operands -/

/-- **Product with a plaintext** at the ciphertext's level. -/
def multiplyPlain (ctx : Context) (ct : Ciphertext) (pt : Plaintext) :
    Except Failure Ciphertext := do
  ctx.checkOwned ct
  if pt.level != ct.level then
    throw (.mismatch (.plaintextLevel pt.level ct.level))
  let scale := ct.scale * pt.scale
  ctx.checkProductScale scale ct.level
  return { ct with
    parts := ct.parts.map fun p => p.mul (ctx.moduliAt ct.level) pt.poly
    scale }

/-- **Sum with a plaintext** of the ciphertext's level and scale. -/
def addPlain (ctx : Context) (ct : Ciphertext) (pt : Plaintext) : Except Failure Ciphertext := do
  ctx.checkOwned ct
  if pt.level != ct.level || pt.scale != ct.scale then
    throw (.mismatch (.plaintextTag pt.scale pt.level ct.scale ct.level))
  match ct.parts with
  | [] => return ct
  | c0 :: rest => return { ct with parts := c0.add (ctx.moduliAt ct.level) pt.poly :: rest }

/-! ### Rotation -/

/-- A part under an automorphism. -/
def permutePart (ctx : Context) (level g : Nat) (p : ResiduePoly) : ResiduePoly :=
  let transforms := ctx.transforms.take (level + 1)
  (Automorphism.apply (ctx.moduliAt level) g (p.inverse transforms)).forward transforms

/-- **Rotates the slots left**, right for a negative step.  A full turn needs no key. -/
def rotate (ctx : Context) (ct : Ciphertext) (step : Int) (keys : GaloisKeys) :
    Except Failure Ciphertext := do
  ctx.checkOwned ct
  if keys.owner != ct.owner then
    throw (.mismatch .foreignGaloisKeys)
  match ct.parts with
  | [c0, c1] =>
    let g := Automorphism.element step ctx.degree
    if g == 1 then
      return ct
    match keys.find? g with
    | none => throw (.missingKey step)
    | some key =>
      let (k0, k1) := key.apply ctx (ctx.permutePart ct.level g c1) ct.level
      let c0 := ctx.permutePart ct.level g c0
      return { ct with parts := [c0.add (ctx.moduliAt ct.level) k0, k1] }
  | _ => throw (.unsupportedSize ct.size)

end EncryptedReals.Context

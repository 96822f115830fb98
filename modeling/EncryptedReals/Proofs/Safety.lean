import EncryptedReals.Proofs.Operations
import EncryptedReals.Proofs.Relinearization
import EncryptedReals.Proofs.Rescaling
import EncryptedReals.Proofs.Rotation
import EncryptedReals.Proofs.Encryption
import EncryptedReals.Proofs.SwitchSafety

/-!
# Operations stay in range

Every operation on ciphertexts reads a prefix of the moduli, walks over the parts of its operands and
combines their limbs.  For each there is a condition that lists what it reads and adds, in the order in
which it computes, and a lemma: on ciphertexts of the context's shape the condition holds, and what
comes out has the shape of the context again, with the size and the level that belong to the operation.

## Main Definitions

* `Context.Shaped` — ciphertexts whose limbs have the length of the ring, where residues may be anything
* `Context.SumSafe`, `Context.ProductSafe`, … — the operations stay in range

## Main results

* `Context.shaped_iff_owns` — shaped ciphertexts with canonical residues are the well-formed ones
* `Context.Shaped.add`, `Context.Shaped.multiply`, … — one lemma for each operation

## Design Notes

The conditions are about what happens after the checks of an operation have passed, so the lemmas ask
for its success where the checks matter.  Rescaling is the exception.  It has a failure of its own for
a missing transform, which must not be taken for a check.
-/

namespace EncryptedReals

open ResiduePoly

namespace Context

variable {strict : Prop} {ctx : Context} {a b ct ct' : Ciphertext} {pt : Plaintext}
  {moduli : List Modulus} {n k level : ℕ}

/-! ### Ciphertexts -/

/-- **A ciphertext of the context's shape**: its number, a level of the chain, two parts or more, and
limbs of the length of the ring.  Residues are canonical where they are assumed to be. -/
structure Shaped (strict : Prop) (ctx : Context) (ct : Ciphertext) : Prop where
  owner_eq : ct.owner = ctx.id
  level_le : ct.level ≤ ctx.maxLevel
  two_le_size : 2 ≤ ct.size
  parts : ∀ p ∈ ct.parts, p.Shaped strict ctx.degree (ctx.moduliAt ct.level)

/-- **Where residues are canonical**, shaped ciphertexts are the well-formed ones. -/
theorem shaped_iff_owns : ctx.Shaped True ct ↔ ctx.Owns ct :=
  ⟨fun h => ⟨h.owner_eq, h.level_le, h.two_le_size, fun p hp => (h.parts p hp).canonical trivial⟩,
    fun h => ⟨h.owner_eq, h.level_le, h.two_le_size, fun p hp => (h.canonical p hp).shaped⟩⟩

/-- A level of the context indexes its moduli. -/
theorem Made.level_lt (h : ctx.Made) (hlevel : level ≤ ctx.maxLevel) :
    level < ctx.parameters.moduli.length :=
  hlevel.trans_lt (Parameters.maxLevel_lt h.moduli_ne_nil)

/-! ### Sums -/

/-- The left operand's parts, padded with zeros to the size of the right operand. -/
def paddedParts (ctx : Context) (a b : Ciphertext) : List ResiduePoly :=
  a.parts ++ List.replicate (b.size - a.size) (.zero ctx.degree (a.level + 1))

/-- **Addition is safe**: the level has its moduli, and parts of one index can be added. -/
structure SumSafe (strict : Prop) (ctx : Context) (a b : Ciphertext) : Prop where
  moduli : a.level < ctx.parameters.moduli.length
  parts : ∀ (k : ℕ) (p r : ResiduePoly), (ctx.paddedParts a b)[k]? = some p →
    b.parts[k]? = some r → AddSafe strict (ctx.moduliAt a.level) p r

/-- **Negation is safe.** -/
structure NegateSafe (strict : Prop) (ctx : Context) (ct : Ciphertext) : Prop where
  moduli : ct.level < ctx.parameters.moduli.length
  parts : ∀ p ∈ ct.parts, NegSafe strict (ctx.moduliAt ct.level) p

/-- **A sum of ciphertexts.** -/
theorem Shaped.add (h : ctx.Made) (ha : ctx.Shaped strict a) (hb : ctx.Shaped strict b)
    (hadd : ctx.add a b = .ok ct) :
    ctx.SumSafe strict a b ∧ ctx.Shaped strict ct ∧ a.level = b.level ∧ ct.level = a.level ∧
      ct.size = max a.size b.size := by
  simp only [Context.add, bind_eq_ok, pure_eq_ok] at hadd
  obtain ⟨⟨⟩, -, ⟨⟩, -, ⟨⟩, hsummands, rfl⟩ := hadd
  have hlevel := checkSummands_ok hsummands
  have hw := h.fitWordsAt a.level
  have hb' : ∀ p ∈ b.parts, p.Shaped strict ctx.degree (ctx.moduliAt a.level) := hlevel ▸ hb.parts
  have hpadded : ∀ p ∈ ctx.paddedParts a b, p.Shaped strict ctx.degree (ctx.moduliAt a.level) := by
    intro p hp
    rcases List.mem_append.mp hp with hp | hp
    · exact ha.parts p hp
    · rw [List.eq_of_mem_replicate hp, ← h.length_moduliAt ha.level_le]
      exact .zero hw
  have hsize : (addParts (ctx.moduliAt a.level) (.zero ctx.degree (a.level + 1)) a.parts
      b.parts).length = max a.size b.size := length_addParts _ _ _ _
  refine ⟨⟨h.level_lt ha.level_le, fun k p r hp hr => ?_⟩, ⟨ha.owner_eq, ha.level_le, ?_, ?_⟩,
    hlevel, rfl, hsize⟩
  · exact ((hpadded p (List.mem_of_getElem? hp)).add hw (hb' r (List.mem_of_getElem? hr))).1
  · rw [Ciphertext.size, hsize]
    exact le_max_of_le_left ha.two_le_size
  · exact forall_mem_overlay (Q := fun p => p.Shaped strict ctx.degree (ctx.moduliAt a.level))
      (fun p r hp hr => (hp.add hw hr).2) hpadded hb'

/-- **A negation.** -/
theorem Shaped.negate (h : ctx.Made) (ha : ctx.Shaped strict a) (hneg : ctx.negate a = .ok ct) :
    ctx.NegateSafe strict a ∧ ctx.Shaped strict ct ∧ ct.level = a.level ∧ ct.size = a.size := by
  simp only [Context.negate, bind_eq_ok, pure_eq_ok] at hneg
  obtain ⟨⟨⟩, -, rfl⟩ := hneg
  have hw := h.fitWordsAt a.level
  have hsize : (a.parts.map fun p => p.neg (ctx.moduliAt a.level)).length = a.size :=
    List.length_map _
  refine ⟨⟨h.level_lt ha.level_le, fun p hp => ((ha.parts p hp).neg hw).1⟩,
    ⟨ha.owner_eq, ha.level_le, ?_, ?_⟩, rfl, hsize⟩
  · rw [Ciphertext.size, hsize]
    exact ha.two_le_size
  · exact List.forall_mem_map.mpr fun p hp => ((ha.parts p hp).neg hw).2

/-! ### Products -/

/-- **Multiplication is safe**: the level has its moduli, every two parts have their place in the
product, and the product of two parts can be added to those before it in its place. -/
structure ProductSafe (strict : Prop) (ctx : Context) (a b : Ciphertext) : Prop where
  moduli : a.level < ctx.parameters.moduli.length
  places : ∀ i < a.size, ∀ j < b.size, i + j < a.size + b.size - 1
  products : ∀ (k i : ℕ) (p r : ResiduePoly), i ≤ k → a.parts[i]? = some p →
    b.parts[k - i]? = some r → AddMulSafe strict (ctx.moduliAt a.level)
      ((List.range i).foldl (addProduct (ctx.moduliAt a.level) a.parts b.parts k)
        (.zero ctx.degree (a.level + 1))) p r

/-- **Multiplication by a plaintext is safe.** -/
structure PlainProductSafe (ctx : Context) (ct : Ciphertext) (pt : Plaintext) : Prop where
  moduli : ct.level < ctx.parameters.moduli.length
  parts : ∀ p ∈ ct.parts, MulSafe (ctx.moduliAt ct.level) p pt.poly

/-- **Addition of a plaintext is safe**: there is a first part to add to. -/
structure PlainSumSafe (strict : Prop) (ctx : Context) (ct : Ciphertext) (pt : Plaintext) : Prop where
  moduli : ct.level < ctx.parameters.moduli.length
  first : ∃ c0, ct.parts[0]? = some c0 ∧ AddSafe strict (ctx.moduliAt ct.level) c0 pt.poly

/-- The sums of the first products in a place of a product have the right shape. -/
theorem shaped_foldl_addProduct {as bs : List ResiduePoly} (hw : FitWords moduli)
    (has : ∀ p ∈ as, p.Shaped strict n moduli) (hbs : ∀ p ∈ bs, p.Shaped strict n moduli) (k : ℕ) :
    ∀ m : ℕ, ((List.range m).foldl (addProduct moduli as bs k) (.zero n moduli.length)).Shaped
      strict n moduli := by
  intro m
  induction m with
  | zero => exact .zero hw
  | succ m ih =>
      rw [List.range_succ, List.foldl_append, List.foldl_cons, List.foldl_nil, addProduct]
      split
      · next p r hp hr =>
          exact (ih.addMul hw (has p (List.mem_of_getElem? hp)) (hbs r (List.mem_of_getElem? hr))).2
      · exact ih

/-- **A product of ciphertexts.** -/
theorem Shaped.multiply (h : ctx.Made) (ha : ctx.Shaped strict a) (hb : ctx.Shaped strict b)
    (hmul : ctx.multiply a b = .ok ct) :
    ctx.ProductSafe strict a b ∧ ctx.Shaped strict ct ∧ a.level = b.level ∧ ct.level = a.level ∧
      ct.size = a.size + b.size - 1 := by
  simp only [Context.multiply, throw_bind, check_eq_ok, bind_eq_ok, pure_eq_ok, bne_iff_ne, ne_eq,
    not_not] at hmul
  obtain ⟨⟨⟩, -, ⟨⟩, -, hlevel, ⟨⟩, -, rfl⟩ := hmul
  have hw := h.fitWordsAt a.level
  have hb' : ∀ p ∈ b.parts, p.Shaped strict ctx.degree (ctx.moduliAt a.level) := hlevel ▸ hb.parts
  have hsums := fun k => shaped_foldl_addProduct hw ha.parts hb' k
  rw [h.length_moduliAt ha.level_le] at hsums
  have hsizea := ha.two_le_size
  have hsizeb := hb.two_le_size
  have hsize : ((List.range (a.size + b.size - 1)).map (productPart (ctx.moduliAt a.level)
      (.zero ctx.degree (a.level + 1)) a.parts b.parts)).length = a.size + b.size - 1 := by
    rw [List.length_map, List.length_range]
  refine ⟨⟨h.level_lt ha.level_le, fun i hi j hj => by omega, fun k i p r _ hp hr => ?_⟩,
    ⟨ha.owner_eq, ha.level_le, ?_, ?_⟩, hlevel, rfl, hsize⟩
  · exact ((hsums k i).addMul hw (ha.parts p (List.mem_of_getElem? hp))
      (hb' r (List.mem_of_getElem? hr))).1
  · rw [Ciphertext.size, hsize]
    omega
  · exact List.forall_mem_map.mpr fun k _ => hsums k (k + 1)

/-- **A product with a plaintext.** -/
theorem Shaped.multiplyPlain (h : ctx.Made) (ha : ctx.Shaped strict a)
    (hpt : pt.poly.Canonical ctx.degree (ctx.moduliAt pt.level))
    (hmul : ctx.multiplyPlain a pt = .ok ct) :
    ctx.PlainProductSafe a pt ∧ ctx.Shaped strict ct ∧ ct.level = a.level ∧ ct.size = a.size := by
  simp only [Context.multiplyPlain, throw_bind, check_eq_ok, bind_eq_ok, pure_eq_ok, bne_iff_ne,
    ne_eq, not_not] at hmul
  obtain ⟨⟨⟩, -, hlevel, ⟨⟩, -, rfl⟩ := hmul
  have hw := h.fitWordsAt a.level
  rw [hlevel] at hpt
  have hsize : (a.parts.map fun p => p.mul (ctx.moduliAt a.level) pt.poly).length = a.size :=
    List.length_map _
  refine ⟨⟨h.level_lt ha.level_le, fun p hp => ((ha.parts p hp).mul hw hpt.shaped).1⟩,
    ⟨ha.owner_eq, ha.level_le, ?_, ?_⟩, rfl, hsize⟩
  · rw [Ciphertext.size, hsize]
    exact ha.two_le_size
  · exact List.forall_mem_map.mpr fun p hp => ((ha.parts p hp).mul hw hpt.shaped).2

/-- **A sum with a plaintext.** -/
theorem Shaped.addPlain (h : ctx.Made) (ha : ctx.Shaped strict a)
    (hpt : pt.poly.Canonical ctx.degree (ctx.moduliAt pt.level))
    (hadd : ctx.addPlain a pt = .ok ct) :
    ctx.PlainSumSafe strict a pt ∧ ctx.Shaped strict ct ∧ ct.level = a.level ∧
      ct.size = a.size := by
  simp only [Context.addPlain, throw_bind, check_eq_ok, bind_eq_ok, Bool.or_eq_true, bne_iff_ne,
    ne_eq, not_or, not_not] at hadd
  obtain ⟨⟨⟩, -, ⟨hlevel, -⟩, hresult⟩ := hadd
  have hw := h.fitWordsAt a.level
  rw [hlevel] at hpt
  have hsize := ha.two_le_size
  cases hparts : a.parts with
  | nil =>
      rw [Ciphertext.size, hparts] at hsize
      exact absurd hsize (by decide)
  | cons c0 rest =>
      have hshaped := ha.parts
      rw [hparts, List.forall_mem_cons] at hshaped
      rw [hparts, pure_eq_ok] at hresult
      subst hresult
      obtain ⟨hsafe, hsum⟩ := hshaped.1.add hw hpt.shaped
      rw [Ciphertext.size, hparts] at hsize
      refine ⟨⟨h.level_lt ha.level_le, c0, by rw [hparts]; rfl, hsafe⟩,
        ⟨ha.owner_eq, ha.level_le, hsize, ?_⟩, rfl, by rw [Ciphertext.size, Ciphertext.size, hparts]; rfl⟩
      exact List.forall_mem_cons.mpr ⟨hsum, hshaped.2⟩

/-! ### Levels -/

/-- **Rescaling is safe**: above level 0 the dropped modulus has its transform, and every part has the
dropped limb and can be divided. -/
def RescaleSafe (strict : Prop) (ctx : Context) (ct : Ciphertext) : Prop :=
  ct.level ≠ 0 → ct.level < ctx.parameters.moduli.length ∧
    ∃ last, ctx.transforms[ct.level]? = some last ∧ ∀ p ∈ ct.parts, ct.level < p.limbs.length ∧
      DivideSafe strict last (p.limb ct.level) (p.limbs.take ct.level) ctx.transforms

/-- **What a rescaling that succeeds returns.** -/
theorem rescale_eq_ok (hrescale : ctx.rescale a = .ok ct) :
    ∃ level last, a.level = level + 1 ∧ ctx.transforms[level + 1]? = some last ∧
      ct = { a with
        parts := a.parts.map (ctx.rescalePart (level + 1) last)
        scale := a.scale / Binary64.nearest last.modulus.value
        level := level } := by
  simp only [Context.rescale, bind_eq_ok] at hrescale
  obtain ⟨⟨⟩, -, hresult⟩ := hrescale
  split at hresult
  · next level last hlevel hlast =>
      rw [hlevel] at hlast
      exact ⟨level, last, hlevel, hlast, (pure_eq_ok.mp hresult).symm⟩
  · cases hresult

/-- **A part can be divided** by its last modulus, and becomes canonical. -/
theorem divideSafe_part (h : ctx.Made) {last : Transform} {lastPsi : ZMod last.modulus.value}
    (hlevel : level + 1 ≤ ctx.maxLevel) (hlast : ctx.Limb (level + 1) last lastPsi)
    {p : ResiduePoly} (hp : p.Shaped strict ctx.degree (ctx.moduliAt (level + 1))) :
    DivideSafe strict last (p.limb (level + 1)) (p.limbs.take (level + 1)) ctx.transforms ∧
      (ctx.rescalePart (level + 1) last p).Canonical ctx.degree (ctx.moduliAt level) := by
  have hlength : p.limbs.length = level + 2 :=
    hp.sized.length_eq.trans (h.length_moduliAt hlevel)
  have hlimb : ∀ i ≤ level, ∃ (t : Transform) (psi : ZMod t.modulus.value), ctx.Limb i t psi ∧
      (p.limbs.take (level + 1))[i]? = some (p.limb i) ∧
        t.modulus.IsLimb strict t.size (p.limb i) := by
    intro i hi
    obtain ⟨q, hq⟩ := h.exists_modulusAt hlevel (show i ≤ level + 1 by omega)
    obtain ⟨-, t, psi, rfl, hl⟩ := h.exists_limbAt hq
    refine ⟨t, psi, hl, ?_, hl.size_eq.symm ▸ hp.isLimb hq⟩
    rw [List.getElem?_take_of_lt (by omega)]
    exact getElem?_limbs (by omega)
  have hdropped := hp.isLimb (hlast.modulusAt le_rfl)
  rw [← hlast.size_eq] at hdropped
  obtain ⟨hsafe, hresult⟩ := divideSafe (p.limbs.take (level + 1)) ctx.transforms
    hlast.lawful hdropped fun i a ha => by
      have hi : i ≤ level := by
        have hlt := (List.getElem?_eq_some_iff.mp ha).1
        rw [List.length_take] at hlt
        omega
      obtain ⟨t, psi, hl, hkept, hvector⟩ := hlimb i hi
      obtain rfl : p.limb i = a := Option.some.inj (hkept.symm.trans ha)
      exact ⟨t, hl.transform, hl.size_eq.trans hlast.size_eq.symm, hvector, psi, hl.lawful⟩
  refine ⟨hsafe, hp.sized.degree_eq, ?_, fun i q hq => ?_⟩
  · rw [rescalePart, divideByLast, length_overlay, List.length_take, hlength,
      h.length_moduliAt (by omega)]
    omega
  · obtain ⟨hi, hmodulus⟩ := Parameters.getElem?_moduliAt.mp hq
    obtain ⟨t, psi, hl, hkept, -⟩ := hlimb i hi
    obtain rfl : t.modulus = q := Option.some.inj (hl.modulus.symm.trans hmodulus)
    obtain ⟨b, hb, hvector⟩ := hresult i _ t hkept hl.transform
    have hpart : (ctx.rescalePart (level + 1) last p).limb i = b := limb_eq_of_getElem? hb
    rw [hpart, ← hl.size_eq]
    exact hvector

/-- **A rescaled ciphertext.** -/
theorem Shaped.rescale (h : ctx.Made) (ha : ctx.Shaped strict a) :
    ctx.RescaleSafe strict a ∧ ∀ ct, ctx.rescale a = .ok ct →
      ctx.Shaped strict ct ∧ ct.level + 1 = a.level ∧ ct.size = a.size := by
  refine ⟨fun hne => ?_, fun ct hrescale => ?_⟩
  · obtain ⟨level, hlevel⟩ := Nat.exists_eq_succ_of_ne_zero hne
    have hle := ha.level_le
    have hparts := ha.parts
    rw [hlevel] at hle hparts
    obtain ⟨q, hq⟩ := h.exists_modulusAt hle le_rfl
    obtain ⟨-, last, lastPsi, -, hlast⟩ := h.exists_limbAt hq
    rw [hlevel]
    refine ⟨h.level_lt hle, last, hlast.transform, fun p hp => ⟨?_, ?_⟩⟩
    · rw [(hparts p hp).sized.length_eq, h.length_moduliAt hle]
      omega
    · exact (divideSafe_part h hle hlast (hparts p hp)).1
  · obtain ⟨level, last, hlevel, hlast, rfl⟩ := rescale_eq_ok hrescale
    have hle := ha.level_le
    have hparts := ha.parts
    rw [hlevel] at hle hparts
    obtain ⟨q, hq⟩ := h.exists_modulusAt hle le_rfl
    obtain ⟨-, last', lastPsi, -, hlimb⟩ := h.exists_limbAt hq
    obtain rfl : last' = last := Option.some.inj (hlimb.transform.symm.trans hlast)
    refine ⟨⟨ha.owner_eq, by simp only; omega, ?_, ?_⟩, hlevel.symm, List.length_map _⟩
    · rw [Ciphertext.size, List.length_map]
      exact ha.two_le_size
    · exact List.forall_mem_map.mpr fun p hp =>
        (divideSafe_part h hle hlimb (hparts p hp)).2.shaped

/-- **A ciphertext at a lower level.**  Its limbs are cut off, and none is read. -/
theorem Shaped.switchTo (ha : ctx.Shaped strict a) (hswitch : ctx.switchTo a level = .ok ct) :
    ctx.Shaped strict ct ∧ level ≤ a.level ∧ ct.level = level ∧ ct.size = a.size := by
  simp only [Context.switchTo, throw_bind, check_eq_ok, bind_eq_ok, pure_eq_ok, not_lt] at hswitch
  obtain ⟨⟨⟩, -, hlevel, rfl⟩ := hswitch
  refine ⟨⟨ha.owner_eq, hlevel.trans ha.level_le, ?_, ?_⟩, hlevel, rfl, List.length_map _⟩
  · rw [Ciphertext.size, List.length_map]
    exact ha.two_le_size
  · refine List.forall_mem_map.mpr fun p hp => ?_
    rw [← ctx.take_moduliAt hlevel]
    exact (ha.parts p hp).truncate (level + 1)

/-! ### Keys -/

/-- **Relinearization is safe**: the third part can be switched, and the halves can be added to the
first two parts. -/
def RelinearizeSafe (strict : Prop) (ctx : Context) (ct : Ciphertext) (key : SwitchKey) : Prop :=
  ∀ c0 c1 c2, ct.parts = [c0, c1, c2] → ct.level < ctx.parameters.moduli.length ∧
    key.Safe strict ctx c2 ct.level ∧
    AddSafe strict (ctx.moduliAt ct.level) c0 (key.apply ctx c2 ct.level).1 ∧
    AddSafe strict (ctx.moduliAt ct.level) c1 (key.apply ctx c2 ct.level).2

/-- **The image of a part is safe**: its limbs can be transformed back, permuted and transformed. -/
structure ImageSafe (strict : Prop) (ctx : Context) (level g : ℕ) (p : ResiduePoly) : Prop where
  inverse : InverseSafe strict (ctx.transforms.take (level + 1)) p
  permute : Automorphism.ApplySafe strict (ctx.moduliAt level)
    (p.inverse (ctx.transforms.take (level + 1)))
  forward : ForwardSafe strict (ctx.transforms.take (level + 1))
    (Automorphism.apply (ctx.moduliAt level) g (p.inverse (ctx.transforms.take (level + 1))))

/-- **A rotation is safe**: the level has its moduli and its transforms, the images of both parts are
safe, the second image can be switched, and a half can be added to the first image. -/
def RotateSafe (strict : Prop) (ctx : Context) (ct : Ciphertext) (g : ℕ) (key : SwitchKey) : Prop :=
  ∀ c0 c1, ct.parts = [c0, c1] →
    ct.level < ctx.parameters.moduli.length ∧ ct.level < ctx.transforms.length ∧
    ctx.ImageSafe strict ct.level g c0 ∧ ctx.ImageSafe strict ct.level g c1 ∧
    key.Safe strict ctx (ctx.permutePart ct.level g c1) ct.level ∧
    AddSafe strict (ctx.moduliAt ct.level) (ctx.permutePart ct.level g c0)
      (key.apply ctx (ctx.permutePart ct.level g c1) ct.level).1

/-- A ciphertext of two shaped parts in place of others. -/
theorem Shaped.pair (ha : ctx.Shaped strict a) {p0 p1 : ResiduePoly}
    (h0 : p0.Shaped strict ctx.degree (ctx.moduliAt a.level))
    (h1 : p1.Shaped strict ctx.degree (ctx.moduliAt a.level)) :
    ctx.Shaped strict { a with parts := [p0, p1] } := by
  refine ⟨ha.owner_eq, ha.level_le, le_rfl, ?_⟩
  rintro p (- | ⟨-, - | ⟨-, ⟨⟩⟩⟩)
  · exact h0
  · exact h1

/-- **A relinearized ciphertext.** -/
theorem Shaped.relinearize (h : ctx.Made) (ha : ctx.Shaped strict a) {rk : RelinearizationKey}
    (hkey : rk.key.BelongsTo ctx) (hrelinearize : ctx.relinearize a rk = .ok ct) :
    ctx.RelinearizeSafe strict a rk.key ∧ ctx.Shaped strict ct ∧ ct.level = a.level ∧
      ct.size = 2 := by
  simp only [Context.relinearize, throw_bind, check_bind_eq_ok, check_eq_ok] at hrelinearize
  obtain ⟨-, -, hparts⟩ := hrelinearize
  split at hparts
  · next c0 c1 heq =>
      rw [pure_eq_ok] at hparts
      subst hparts
      refine ⟨fun _ _ _ hthree => ?_, ha, rfl, by rw [Ciphertext.size, heq]; rfl⟩
      rw [heq] at hthree
      cases hthree
  · next c0 c1 c2 heq =>
      rw [pure_eq_ok] at hparts
      have hshaped := ha.parts
      rw [heq] at hshaped
      simp only [List.forall_mem_cons] at hshaped
      obtain ⟨hc0, hc1, hc2, -⟩ := hshaped
      have hw := h.fitWordsAt a.level
      obtain ⟨hsafe, hk0, hk1⟩ := SwitchKey.safe h ha.level_le hc2 hkey
      have hsum0 := hc0.add hw hk0.shaped
      have hsum1 := hc1.add hw hk1.shaped
      refine ⟨fun d0 d1 d2 hthree => ?_, ?_⟩
      · rw [heq] at hthree
        cases hthree
        exact ⟨h.level_lt ha.level_le, hsafe, hsum0.1, hsum1.1⟩
      · rw [← hparts]
        exact ⟨ha.pair hsum0.2 hsum1.2, rfl, rfl⟩
  · cases hparts

/-- **The image of a part** is safe, and canonical. -/
theorem imageSafe (h : ctx.Made) (g : ℕ) {p : ResiduePoly}
    (hp : p.Shaped strict ctx.degree (ctx.moduliAt level)) :
    ctx.ImageSafe strict level g p ∧
      (ctx.permutePart level g p).Canonical ctx.degree (ctx.moduliAt level) := by
  have hw := h.fitWordsAt level
  have hcover := h.coverAt_take level
  obtain ⟨hinverse, hcoefficients⟩ := hp.inverse hcover
  have himage : (Automorphism.apply (ctx.moduliAt level) g
      (p.inverse (ctx.transforms.take (level + 1)))).Canonical ctx.degree (ctx.moduliAt level) :=
    hcoefficients.automorphism hw.areWords
  exact ⟨⟨hinverse, Automorphism.applySafe hw hcoefficients,
    (himage.shaped.forward hcover).1⟩, himage.forward hcover⟩

/-- **A rotated ciphertext.** -/
theorem Shaped.rotate (h : ctx.Made) (ha : ctx.Shaped strict a) {step : ℤ} {ks : GaloisKeys}
    (hkeys : ∀ key, ks.find? (Automorphism.element step ctx.degree) = some key → key.BelongsTo ctx)
    (hrotate : ctx.rotate a step ks = .ok ct) :
    (∀ key, ks.find? (Automorphism.element step ctx.degree) = some key →
        ctx.RotateSafe strict a (Automorphism.element step ctx.degree) key) ∧
      ctx.Shaped strict ct ∧ ct.level = a.level ∧ ct.size = a.size := by
  obtain ⟨c0, c1, hparts, hresult⟩ := rotate_eq_ok hrotate
  have hshaped := ha.parts
  rw [hparts] at hshaped
  simp only [List.forall_mem_cons] at hshaped
  obtain ⟨hc0, hc1, -⟩ := hshaped
  have hw := h.fitWordsAt a.level
  obtain ⟨hsafe0, himage0⟩ := imageSafe h (Automorphism.element step ctx.degree) hc0
  obtain ⟨hsafe1, himage1⟩ := imageSafe h (Automorphism.element step ctx.degree) hc1
  have hswitch := fun key hkey =>
    @SwitchKey.safe strict ctx _ _ key h ha.level_le himage1.shaped (hkeys key hkey)
  refine ⟨fun key hkey d0 d1 htwo => ?_, ?_⟩
  · rw [hparts] at htwo
    cases htwo
    obtain ⟨hsafe, hk0, -⟩ := hswitch key hkey
    have hlt := h.level_lt ha.level_le
    exact ⟨hlt, h.length_transforms.symm ▸ hlt, hsafe0, hsafe1, hsafe,
      (himage0.shaped.add hw hk0.shaped).1⟩
  · rcases hresult with ⟨-, rfl⟩ | ⟨-, key, hkey, rfl⟩
    · exact ⟨ha, rfl, rfl⟩
    · obtain ⟨-, hk0, hk1⟩ := hswitch key hkey
      refine ⟨ha.pair (himage0.shaped.add hw hk0.shaped).2 hk1.shaped, rfl, ?_⟩
      rw [Ciphertext.size, Ciphertext.size, hparts]
      rfl

/-! ### Encoding, encryption and decryption -/

/-- **Encoding is safe**: the level has its moduli, and the reduced coefficients can be transformed. -/
def EncodeSafe (strict : Prop) (ctx : Context) (pt : Plaintext) : Prop :=
  pt.level < ctx.parameters.moduli.length ∧ ∃ coefficients p,
    liftCoefficients coefficients (ctx.moduliAt pt.level) = .ok p ∧
      pt = ctx.plaintext p pt.scale pt.level ∧ ForwardSafe strict ctx.transforms p

/-- **Encryption is safe**: the noise can be transformed, and the halves of the key, the noise and the
plaintext can be multiplied and added. -/
structure EncryptSafe (strict : Prop) (ctx : Context) (pt : Plaintext) (pk : PublicKey)
    (noise : Noise) : Prop where
  moduli : pt.level < ctx.parameters.moduli.length
  lifts : ∀ c ∈ [noise.u, noise.e0, noise.e1],
    ForwardSafe strict ctx.transforms (ofInts c (ctx.moduliAt pt.level))
  first :
    let moduli := ctx.moduliAt pt.level
    let masked := (pk.b.truncate (pt.level + 1)).mul moduli (ctx.lift noise.u moduli)
    MulSafe moduli (pk.b.truncate (pt.level + 1)) (ctx.lift noise.u moduli) ∧
      AddSafe strict moduli masked (ctx.lift noise.e0 moduli) ∧
      AddSafe strict moduli (masked.add moduli (ctx.lift noise.e0 moduli)) pt.poly
  second :
    let moduli := ctx.moduliAt pt.level
    let masked := (pk.a.truncate (pt.level + 1)).mul moduli (ctx.lift noise.u moduli)
    MulSafe moduli (pk.a.truncate (pt.level + 1)) (ctx.lift noise.u moduli) ∧
      AddSafe strict moduli masked (ctx.lift noise.e1 moduli)

/-- **Decryption is safe**: the value of the parts above each one can be multiplied by the secret, and
the part can be added. -/
structure DecryptSafe (strict : Prop) (ctx : Context) (ct : Ciphertext) (sk : SecretKey) : Prop where
  moduli : ct.level < ctx.parameters.moduli.length
  steps : ∀ (k : ℕ) (p : ResiduePoly), ct.parts[k]? = some p → k + 1 < ct.size →
    let moduli := ctx.moduliAt ct.level
    let s := sk.poly.truncate (ct.level + 1)
    let above := evaluateAt moduli s (ct.parts.drop (k + 1))
    MulSafe moduli above s ∧ AddSafe strict moduli (above.mul moduli s) p

/-- **An encoded plaintext was encoded safely.** -/
theorem encodeSafe (h : ctx.Made) (hpt : ctx.Encodes pt) : ctx.EncodeSafe strict pt := by
  obtain ⟨hlevel, -, coefficients, p, hsize, hlift, hplaintext⟩ := hpt.exists_lift h
  have hcanonical := canonical_liftCoefficients (h.fitWordsAt pt.level) hsize hlift
  exact ⟨h.level_lt hlevel, coefficients, p, hlift, hplaintext,
    (hcanonical.shaped.forward (h.coverAt pt.level)).1⟩

/-- **A fresh encryption is safe**, whatever the noise. -/
theorem encryptSafe (h : ctx.Made) {pk : PublicKey} {noise : Noise} (hpk : pk.BelongsTo ctx)
    (hlevel : pt.level ≤ ctx.maxLevel)
    (hpt : pt.poly.Canonical ctx.degree (ctx.moduliAt pt.level)) (hn : noise.Fits ctx) :
    ctx.EncryptSafe strict pt pk noise := by
  have hw := h.fitWordsAt pt.level
  have hcover := h.coverAt pt.level
  have hlift : ∀ c : Array ℤ, c.size = ctx.degree →
      (ctx.lift c (ctx.moduliAt pt.level)).Shaped strict ctx.degree (ctx.moduliAt pt.level) :=
    fun c hc => (canonical_lift hcover hc).shaped
  have hu := hlift _ hn.size_u
  have hb := (canonical_truncate h hlevel hpk.canonical_b).shaped.mul hw hu
  have ha := (canonical_truncate h hlevel hpk.canonical_a).shaped.mul hw hu
  have hsum := hb.2.add hw (hlift _ hn.size_e0)
  refine ⟨h.level_lt hlevel, fun c hc => ?_, ⟨hb.1, hsum.1, (hsum.2.add hw hpt.shaped).1⟩,
    ⟨ha.1, (ha.2.add hw (hlift _ hn.size_e1)).1⟩⟩
  have hsize : c.size = ctx.degree := by
    simp only [List.mem_cons, List.not_mem_nil, or_false] at hc
    rcases hc with rfl | rfl | rfl
    · exact hn.size_u
    · exact hn.size_e0
    · exact hn.size_e1
  exact ((hsize ▸ canonical_ofInts hw c).shaped.forward hcover).1

/-- The value of shaped parts at a shaped secret has the right shape. -/
theorem shaped_evaluateAt {s : ResiduePoly} (hw : FitWords moduli) (hs : s.Shaped strict n moduli) :
    ∀ {parts : List ResiduePoly}, parts ≠ [] → (∀ p ∈ parts, p.Shaped strict n moduli) →
      (evaluateAt moduli s parts).Shaped strict n moduli := by
  intro parts
  induction parts with
  | nil => intro hne; exact absurd rfl hne
  | cons p rest ih =>
      intro _ hparts
      obtain ⟨hp, hrest⟩ := List.forall_mem_cons.mp hparts
      by_cases hnil : rest = []
      · rw [hnil, evaluateAt_singleton]
        exact hp
      · rw [evaluateAt_cons moduli s p hnil]
        exact (((ih hnil hrest).mul hw hs).2.add hw hp).2

/-- **Decryption of a shaped ciphertext is safe.** -/
theorem Shaped.decryptSafe (h : ctx.Made) (ha : ctx.Shaped strict a) {sk : SecretKey}
    (hsk : sk.BelongsTo ctx) : ctx.DecryptSafe strict a sk := by
  have hw := h.fitWordsAt a.level
  have hs : (sk.poly.truncate (a.level + 1)).Shaped strict ctx.degree (ctx.moduliAt a.level) :=
    (canonical_secretAt hsk a.level).shaped
  refine ⟨h.level_lt ha.level_le, fun k p hp hk => ?_⟩
  have hne : a.parts.drop (k + 1) ≠ [] := by
    rw [Ne, List.drop_eq_nil_iff]
    exact not_le.mpr hk
  have habove := shaped_evaluateAt hw hs hne fun r hr => ha.parts r (List.mem_of_mem_drop hr)
  have hproduct := habove.mul hw hs
  exact ⟨hproduct.1, (hproduct.2.add hw (ha.parts p (List.mem_of_getElem? hp))).1⟩

end Context

end EncryptedReals

import EncryptedReals.Proofs.Plaintexts
import EncryptedReals.Proofs.SwitchingKeys

/-!
# Encryption adds one small error

A public key `(b, a)` of a secret `s` has `b + a s = e`.  Encryption of `m` under it is
`(b u + e₀ + m, a u + e₁)`, whose phase is `m + e u + e₀ + e₁ s`.  The errors are lifted from
integers into every limb, so the phase differs from the plaintext by the values of one integer
polynomial, however many limbs the ciphertext has.

## Main Definitions

* `PublicKey.BelongsTo` — a public key of the context, with canonical residues
* `Context.Noise.Fits`, `Context.Noise.InRange` — the shape and the range of the randomness
* `Context.encryptionError` — the error of an encryption

## Main results

* `Context.owns_encryptWith` — a ciphertext is well-formed, whatever the noise
* `Context.phase_encryptWith` — the phase of a fresh ciphertext
* `Context.encrypt_error` — what decryption returns after encryption

## Design Notes

The public key lives on all data moduli, the secret on the special prime as well, and the
ciphertext on a prefix of the data moduli.  Every lemma is about one limb, and values do not change
under truncation, so the three chains meet only in `canonical_truncate`.
-/

namespace EncryptedReals

open Negacyclic

/-! ### Public keys -/

/-- **A public key of the context**: it carries the context's number, and both halves have
canonical residues for the data moduli. -/
structure PublicKey.BelongsTo (pk : PublicKey) (ctx : Context) : Prop where
  owner_eq : pk.owner = ctx.id
  canonical_b : pk.b.Canonical ctx.degree ctx.parameters.dataModuli
  canonical_a : pk.a.Canonical ctx.degree ctx.parameters.dataModuli

namespace Context

variable {ctx : Context} {pt : Plaintext} {pk : PublicKey} {noise : Noise} {s e : Array ℤ}
  {a p : ResiduePoly} {level : ℕ}

/-- A polynomial over the data moduli, cut to a level. -/
theorem canonical_truncate (h : ctx.Made) (hlevel : level ≤ ctx.maxLevel)
    (hp : p.Canonical ctx.degree ctx.parameters.dataModuli) :
    (p.truncate (level + 1)).Canonical ctx.degree (ctx.moduliAt level) := by
  have htruncate := hp.truncate (level + 1)
  rwa [h.dataModuli_eq, ctx.take_moduliAt hlevel] at htruncate

/-- The secret over the data moduli. -/
theorem canonical_dataSecret (h : ctx.Made) {sk : SecretKey} (hsk : sk.BelongsTo ctx) :
    (sk.poly.truncate ctx.parameters.dataModuli.length).Canonical ctx.degree
      ctx.parameters.dataModuli := by
  have hlength : ctx.parameters.dataModuli.length = ctx.maxLevel + 1 := by
    rw [h.dataModuli_eq, h.length_moduliAt le_rfl]
  rw [hlength, h.dataModuli_eq]
  exact canonical_secretAt hsk ctx.maxLevel

theorem Made.cover_dataModuli (h : ctx.Made) :
    Transform.Cover ctx.degree ctx.parameters.dataModuli ctx.transforms := by
  rw [h.dataModuli_eq]
  exact h.coverAt ctx.maxLevel

/-- **Every public key that is made from draws** is a key of its context. -/
theorem belongsTo_ofDraws (h : ctx.Made) {sk : SecretKey} (hsk : sk.BelongsTo ctx)
    (ha : a.Canonical ctx.degree ctx.parameters.dataModuli) (hsize : e.size = ctx.degree) :
    (PublicKey.ofDraws ctx sk a e).BelongsTo ctx :=
  ⟨rfl, (maskedErrors_spec h.cover_dataModuli (canonical_dataSecret h hsk) ha hsize).1, ha⟩

/-- **The phase of a public key is its errors.** -/
theorem phase_publicKey (h : ctx.Made) {sk : SecretKey} (hsk : sk.BelongsTo ctx)
    (ha : a.Canonical ctx.degree ctx.parameters.dataModuli) (hsize : e.size = ctx.degree)
    {i k : ℕ} {t : Transform} {psi : ZMod t.modulus.value} (hl : ctx.Limb i t psi)
    (hi : i ≤ ctx.maxLevel) (hk : k < ctx.degree) :
    (PublicKey.ofDraws ctx sk a e).b.value t.modulus i k +
        a.value t.modulus i k * sk.poly.value t.modulus i k =
      evalInt ctx.degree (fun j => e.getD j 0) (t.point psi k) := by
  have hcover := h.cover_dataModuli
  have hq : ctx.parameters.dataModuli[i]? = some t.modulus := h.dataModuli_eq ▸ hl.modulusAt hi
  obtain ⟨hlt, -⟩ := List.getElem?_eq_some_iff.mp hq
  have hphase := (maskedErrors_spec hcover (canonical_dataSecret h hsk) ha hsize).2 i _ hq k hk
  rw [ResiduePoly.value_truncate _ _ hlt,
    value_lift_of_fitWords hcover.fitWords hsize hq hl hk] at hphase
  exact hphase

/-! ### Randomness -/

namespace Noise

/-- Randomness has a number for each coefficient of the ring. -/
structure Fits (noise : Noise) (ctx : Context) : Prop where
  size_u : noise.u.size = ctx.degree
  size_e0 : noise.e0.size = ctx.degree
  size_e1 : noise.e1.size = ctx.degree

/-- **Randomness in range**: `u` is ternary, and both errors are at most 19. -/
structure InRange (noise : Noise) (ctx : Context) : Prop where
  ternary : ctx.Ternary noise.u
  errors_e0 : ctx.Errors noise.e0
  errors_e1 : ctx.Errors noise.e1

theorem InRange.fits (hn : noise.InRange ctx) : noise.Fits ctx :=
  ⟨hn.ternary.size_eq, hn.errors_e0.size_eq, hn.errors_e1.size_eq⟩

end Noise

/-- **The error of an encryption**: the integer polynomial `e u + e₀ + e₁ s`. -/
def encryptionError (n : ℕ) (s e : Array ℤ) (noise : Noise) (k : ℕ) : ℤ :=
  mul n (fun j => e.getD j 0) (fun j => noise.u.getD j 0) k + noise.e0.getD k 0 +
    mul n (fun j => noise.e1.getD j 0) (fun j => s.getD j 0) k

/-- **The error is small**: two products of an error and a ternary polynomial, and an error. -/
theorem abs_encryptionError_le (hs : ctx.Ternary s) (he : ctx.Errors e) (hn : noise.InRange ctx)
    {k : ℕ} (hk : k < ctx.degree) :
    |encryptionError ctx.degree s e noise k| ≤ 19 * (2 * ctx.degree + 1) := by
  have hmask := abs_mul_le (fun j _ => he.abs_le j) (fun j _ => hn.ternary.abs_le_one j) hk
  have hsecret := abs_mul_le (fun j _ => hn.errors_e1.abs_le j) (fun j _ => hs.abs_le_one j) hk
  have hconstant := hn.errors_e0.abs_le k
  calc |encryptionError ctx.degree s e noise k|
      ≤ |mul ctx.degree (fun j => e.getD j 0) (fun j => noise.u.getD j 0) k| +
          |noise.e0.getD k 0| +
          |mul ctx.degree (fun j => noise.e1.getD j 0) (fun j => s.getD j 0) k| :=
        abs_add_three _ _ _
    _ ≤ ctx.degree * (19 * 1) + 19 + ctx.degree * (19 * 1) :=
        add_le_add (add_le_add hmask hconstant) hsecret
    _ = 19 * (2 * ctx.degree + 1) := by ring

/-! ### Fresh ciphertexts -/

/-- **What encryption returns**: nothing is drawn but the noise. -/
theorem run_encrypt (hpk : pk.owner = ctx.id) (hlevel : pt.level ≤ ctx.maxLevel) (g : Generator) :
    (ctx.encrypt pt pk).run.run g =
      (.ok (ctx.encryptWith pt pk ((Noise.draw ctx).run g).1), ((Noise.draw ctx).run g).2) := by
  have hcheck : ctx.checkEncryptable pt pk = .ok () := by
    simp only [checkEncryptable, check_eq_ok, throw_bind, bne_iff_ne, ne_eq, not_not]
    exact ⟨hpk, checkLevel_ok.mpr hlevel⟩
  rw [encrypt, hcheck]
  rfl

/-- A half of the public key times the mask, with an error. -/
theorem canonical_masked (h : ctx.Made) (hlevel : level ≤ ctx.maxLevel)
    (hp : p.Canonical ctx.degree ctx.parameters.dataModuli) {u e : Array ℤ}
    (hu : u.size = ctx.degree) (he : e.size = ctx.degree) :
    (((p.truncate (level + 1)).mul (ctx.moduliAt level) (ctx.lift u (ctx.moduliAt level))).add
      (ctx.moduliAt level) (ctx.lift e (ctx.moduliAt level))).Canonical ctx.degree
        (ctx.moduliAt level) := by
  have hw := h.fitWordsAt level
  have hcover := h.coverAt level
  exact ((canonical_truncate h hlevel hp).mul hw (canonical_lift hcover hu)).add hw
    (canonical_lift hcover he)

section Fresh

variable (h : ctx.Made) (hpk : pk.BelongsTo ctx) (hlevel : pt.level ≤ ctx.maxLevel)
  (hpt : pt.poly.Canonical ctx.degree (ctx.moduliAt pt.level)) (hn : noise.Fits ctx)

include h hpk hlevel hpt hn

/-- **A fresh ciphertext is well-formed.** -/
theorem owns_encryptWith : ctx.Owns (ctx.encryptWith pt pk noise) := by
  have hmasked := canonical_masked h hlevel hpk.canonical_b hn.size_u hn.size_e0
  refine ⟨rfl, hlevel, le_rfl, ?_⟩
  rintro p (- | ⟨-, - | ⟨-, ⟨⟩⟩⟩)
  · exact hmasked.add (h.fitWordsAt pt.level) hpt
  · exact canonical_masked h hlevel hpk.canonical_a hn.size_u hn.size_e1

/-- **The phase of a fresh ciphertext**: the phase of the key times `u`, the errors and the
plaintext. -/
theorem phase_encryptWith {sp : ResiduePoly} {i k : ℕ} {t : Transform}
    {psi : ZMod t.modulus.value} (hl : ctx.Limb i t psi) (hi : i ≤ pt.level) (hk : k < ctx.degree) :
    phase t.modulus i k sp (ctx.encryptWith pt pk noise).parts =
      (pk.b.value t.modulus i k + pk.a.value t.modulus i k * sp.value t.modulus i k) *
          evalInt ctx.degree (fun j => noise.u.getD j 0) (t.point psi k) +
        evalInt ctx.degree (fun j => noise.e0.getD j 0) (t.point psi k) +
        evalInt ctx.degree (fun j => noise.e1.getD j 0) (t.point psi k) * sp.value t.modulus i k +
        pt.poly.value t.modulus i k := by
  have hw := h.fitWordsAt pt.level
  have hcover := h.coverAt pt.level
  have hq := hl.modulusAt hi
  have htb := canonical_truncate h hlevel hpk.canonical_b
  have hta := canonical_truncate h hlevel hpk.canonical_a
  have hu := canonical_lift hcover hn.size_u
  have he0 := canonical_lift hcover hn.size_e0
  have he1 := canonical_lift hcover hn.size_e1
  have hb := htb.mul hw hu
  have ha := hta.mul hw hu
  have hlift : ∀ {c : Array ℤ}, c.size = ctx.degree →
      (ctx.lift c (ctx.moduliAt pt.level)).value t.modulus i k =
        evalInt ctx.degree (fun j => c.getD j 0) (t.point psi k) :=
    fun hsize => value_lift_of_fitWords hw hsize hq hl hk
  rw [encryptWith, phase_pair, ResiduePoly.value_add hw (hb.add hw he0) hpt hq hk,
    ResiduePoly.value_add hw hb he0 hq hk, ResiduePoly.value_add hw ha he1 hq hk,
    ResiduePoly.value_mul htb hu hq hk, ResiduePoly.value_mul hta hu hq hk, hlift hn.size_u,
    hlift hn.size_e0, hlift hn.size_e1, ResiduePoly.value_truncate _ _ (by omega),
    ResiduePoly.value_truncate _ _ (by omega)]
  ring

end Fresh

/-- The phase of a ciphertext under a public key of the secret: the plaintext and the values of
the error. -/
theorem phase_encryptWith_ofDraws (h : ctx.Made) (hs : ctx.Ternary s)
    (ha : a.Canonical ctx.degree ctx.parameters.dataModuli) (he : ctx.Errors e)
    (hlevel : pt.level ≤ ctx.maxLevel)
    (hpt : pt.poly.Canonical ctx.degree (ctx.moduliAt pt.level)) (hn : noise.InRange ctx)
    {i k : ℕ} {t : Transform} {psi : ZMod t.modulus.value} (hl : ctx.Limb i t psi)
    (hi : i ≤ pt.level) (hk : k < ctx.degree) :
    phase t.modulus i k (SecretKey.ofDraws ctx s).poly
        (ctx.encryptWith pt (.ofDraws ctx (.ofDraws ctx s) a e) noise).parts =
      pt.poly.value t.modulus i k +
        evalInt ctx.degree (encryptionError ctx.degree s e noise) (t.point psi k) := by
  have hsk := SecretKey.belongsTo_ofDraws h hs.size_eq
  have hpk := belongsTo_ofDraws h hsk ha he.size_eq
  have hkey := phase_publicKey h hsk ha he.size_eq hl (hi.trans hlevel) hk
  have hsecret : (SecretKey.ofDraws ctx s).poly.value t.modulus i k =
      evalInt ctx.degree (fun j => s.getD j 0) (t.point psi k) :=
    value_lift h hs.size_eq hl hk
  have herror : evalInt ctx.degree (encryptionError ctx.degree s e noise) (t.point psi k) =
      evalInt ctx.degree (fun j => e.getD j 0) (t.point psi k) *
          evalInt ctx.degree (fun j => noise.u.getD j 0) (t.point psi k) +
        evalInt ctx.degree (fun j => noise.e0.getD j 0) (t.point psi k) +
        evalInt ctx.degree (fun j => noise.e1.getD j 0) (t.point psi k) *
          evalInt ctx.degree (fun j => s.getD j 0) (t.point psi k) := by
    rw [← evalInt_mul (hl.point_pow k), ← evalInt_mul (hl.point_pow k), ← evalInt_add,
      ← evalInt_add]
    rfl
  have hpair : (PublicKey.ofDraws ctx (.ofDraws ctx s) a e).a = a := rfl
  rw [phase_encryptWith h hpk hlevel hpt hn.fits hl hi hk, hpair, hkey, hsecret, herror]
  ring

/-- **Encryption followed by decryption adds one small integer polynomial.**  For every
secret, every public key of it and every encoded plaintext, encryption succeeds with any
generator and draws only its noise.  Whatever noise in range it draws, decryption succeeds at the
same scale and level, and in every limb the coefficients gain those of `e u + e₀ + e₁ s`, each of
at most `19 (2 n + 1)`. -/
theorem encrypt_error (h : ctx.Made) (hs : ctx.Ternary s)
    (ha : a.Canonical ctx.degree ctx.parameters.dataModuli) (he : ctx.Errors e)
    (hpt : ctx.Encodes pt) :
    (∀ g, (ctx.encrypt pt (.ofDraws ctx (.ofDraws ctx s) a e)).run.run g =
        (.ok (ctx.encryptWith pt (.ofDraws ctx (.ofDraws ctx s) a e) ((Noise.draw ctx).run g).1),
          ((Noise.draw ctx).run g).2)) ∧
      ∀ noise : Noise, noise.InRange ctx → ∃ m : Plaintext,
        ctx.decrypt (ctx.encryptWith pt (.ofDraws ctx (.ofDraws ctx s) a e) noise)
            (.ofDraws ctx s) = .ok m ∧
          m.scale = pt.scale ∧ m.level = pt.level ∧
          (∀ k < ctx.degree,
            |encryptionError ctx.degree s e noise k| ≤ 19 * (2 * ctx.degree + 1)) ∧
          ∀ (i : ℕ) (q : Modulus), (ctx.moduliAt pt.level)[i]? = some q → ∀ k < ctx.degree,
            (m.poly.inverse ctx.transforms).value q i k -
              (pt.poly.inverse ctx.transforms).value q i k =
                encryptionError ctx.degree s e noise k := by
  have hsk := SecretKey.belongsTo_ofDraws h hs.size_eq
  have hpk := belongsTo_ofDraws h hsk ha he.size_eq
  obtain ⟨hlevel, hcanonical⟩ := hpt.spec h
  refine ⟨run_encrypt hpk.owner_eq hlevel, fun noise hn => ?_⟩
  have hown := owns_encryptWith h hpk hlevel hcanonical hn.fits
  refine ⟨_, decrypt_eq h hsk hown, rfl, rfl, fun k hk => abs_encryptionError_le hs he hn hk,
    fun i q hq k hk => ?_⟩
  obtain ⟨hi, t, psi, rfl, hl⟩ := h.exists_limbAt hq
  have hcoefficients := value_inverse_message_add
    (c := (pt.poly.inverse ctx.transforms).value t.modulus i) h hsk hown hl hi (fun j hj => by
      rw [phase_encryptWith_ofDraws h hs ha he hlevel hcanonical hn hl hi hj,
        hl.eval_inverse hi hcanonical hj]) hk
  rw [hcoefficients, add_sub_cancel_left]

/-- The value 1 at level 1 of the small context: the error is at most 171. -/
theorem encrypt_error_small : ∃ (pt : Plaintext) (m : Plaintext),
    small.encodeScalar 1 1 1 = .ok pt ∧
      small.decrypt (small.encryptWith pt (.ofDraws small (.ofDraws small #[1, 0, -1, 1])
          ⟨[#[1, 16, 3, 4], #[5, 40, 7, 8]], 4⟩ #[19, -2, 0, 3])
        ⟨#[1, -1, 0, 1], #[1, 2, 3, 4], #[-19, 0, 5, 1]⟩) (.ofDraws small #[1, 0, -1, 1]) = .ok m ∧
      m.scale = 1 ∧ m.level = 1 ∧
      (∀ k < 4, |encryptionError 4 #[1, 0, -1, 1] #[19, -2, 0, 3]
        ⟨#[1, -1, 0, 1], #[1, 2, 3, 4], #[-19, 0, 5, 1]⟩ k| ≤ 171) ∧
      ∀ (i : ℕ) (q : Modulus), (small.moduliAt 1)[i]? = some q → ∀ k < 4,
        (m.poly.inverse small.transforms).value q i k -
          (pt.poly.inverse small.transforms).value q i k =
            encryptionError 4 #[1, 0, -1, 1] #[19, -2, 0, 3]
              ⟨#[1, -1, 0, 1], #[1, 2, 3, 4], #[-19, 0, 5, 1]⟩ k := by
  have hencode : small.embedding.encodeScalar 1 1 (small.moduliAt 1) =
      .ok ⟨[#[1, 0, 0, 0], #[1, 0, 0, 0]], 4⟩ :=
    eq_ok_of_toOption (by decide +kernel)
  have hpt : small.encodeScalar 1 1 1 =
      .ok (small.plaintext ⟨[#[1, 0, 0, 0], #[1, 0, 0, 0]], 4⟩ 1 1) := by
    simp only [encodeScalar, bind_eq_ok, pure_eq_ok]
    exact ⟨(), rfl, _, hencode, rfl⟩
  have ha : (⟨[#[1, 16, 3, 4], #[5, 40, 7, 8]], 4⟩ : ResiduePoly).Canonical small.degree
      small.parameters.dataModuli := by
    decide +kernel
  obtain ⟨-, hdecrypt⟩ := encrypt_error made_small ternary_small ha
    (e := #[19, -2, 0, 3]) ⟨rfl, by decide⟩ (.inl ⟨1, 1, 1, hpt⟩)
  obtain ⟨m, hm⟩ := hdecrypt ⟨#[1, -1, 0, 1], #[1, 2, 3, 4], #[-19, 0, 5, 1]⟩
    ⟨⟨rfl, by decide⟩, ⟨rfl, by decide⟩, ⟨rfl, by decide⟩⟩
  exact ⟨_, m, hpt, hm⟩

end Context

end EncryptedReals

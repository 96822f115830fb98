import EncryptedReals.Evaluation
import EncryptedReals.Proofs.KeySwitchError
import EncryptedReals.Proofs.Ring.Automorphism

/-!
# Rotation substitutes a power, up to a small error

A rotation applies `X ↦ X ^ g` to both parts, which makes a ciphertext of the image of the
message under the image of the secret, and switches the second part back to the secret.
The message of the result is the image of the message plus the error of the switch.

## Main results

* `Context.phase_image` — the parts' images, at the image of the secret
* `Context.rotate_spec` — what a rotation does to the phase
* `Context.value_inverse_message_substitute` — from phases to coefficients
* `Context.rotate_error` — what a rotation does to the message, and to the slots

## Design Notes

Everything is said about coefficients, and proved by values: the coefficients of the message
and of the images are pinned down by their values at the points of a transform, where the
substitution is a change of the point.
-/

namespace EncryptedReals

open Negacyclic

variable {ctx : Context} {sk : SecretKey} {ks : GaloisKeys} {s : Array ℤ} {special : Modulus}
  {ct ct' : Ciphertext} {g : ℕ} {step : ℤ}

/-- **The target of a rotation key** is the image of the secret. -/
theorem GaloisKeys.target_spec (h : ctx.Made) (hsk : sk.BelongsTo ctx) (hg : Odd g) :
    (target ctx sk g).Canonical ctx.degree ctx.parameters.moduli ∧
      ∀ (i : ℕ) (t : Transform) (psi : ZMod t.modulus.value), ctx.Limb i t psi →
        ∀ c : ℕ → ZMod t.modulus.value,
          (∀ j < ctx.degree, sk.poly.value t.modulus i j = eval ctx.degree c (t.point psi j)) →
          ∀ k < ctx.degree,
            (target ctx sk g).value t.modulus i k = eval ctx.degree c (t.point psi k ^ g) := by
  refine ⟨hsk.canonical.image h.cover, fun i t psi hl c hc k hk => ?_⟩
  exact ResiduePoly.value_image h.exists_two_pow hg hsk.canonical h.cover hl.modulus hl.transform
    hl.size_eq hl.lawful hc hk

namespace Context

/-- **The image of a part.** -/
theorem permutePart_spec (h : ctx.Made) (hg : Odd g) {level : ℕ} {p : ResiduePoly}
    (hp : p.Canonical ctx.degree (ctx.moduliAt level)) :
    (ctx.permutePart level g p).Canonical ctx.degree (ctx.moduliAt level) ∧
      ∀ (i : ℕ) (t : Transform) (psi : ZMod t.modulus.value), ctx.Limb i t psi → i ≤ level →
        ∀ c : ℕ → ZMod t.modulus.value,
          (∀ j < ctx.degree, p.value t.modulus i j = eval ctx.degree c (t.point psi j)) →
          ∀ k < ctx.degree,
            (ctx.permutePart level g p).value t.modulus i k =
              eval ctx.degree c (t.point psi k ^ g) := by
  have hcover := h.coverAt_take level
  refine ⟨hp.image hcover, fun i t psi hl hi c hc k hk => ?_⟩
  have ht : (ctx.transforms.take (level + 1))[i]? = some t := by
    rw [List.getElem?_take_of_lt (by omega)]
    exact hl.transform
  exact ResiduePoly.value_image h.exists_two_pow hg hp hcover (hl.modulusAt hi) ht hl.size_eq
    hl.lawful hc hk

/-- **What a rotation that succeeds returns**: the ciphertext itself after a full turn, and
otherwise the images of the parts, the second one switched with the key of the element. -/
theorem rotate_eq_ok (hrotate : ctx.rotate ct step ks = .ok ct') :
    ∃ c0 c1, ct.parts = [c0, c1] ∧
      (Automorphism.element step ctx.degree = 1 ∧ ct' = ct ∨
        Automorphism.element step ctx.degree ≠ 1 ∧ ∃ key,
          ks.find? (Automorphism.element step ctx.degree) = some key ∧
          ct' = { ct with parts :=
            [(ctx.permutePart ct.level (Automorphism.element step ctx.degree) c0).add
                (ctx.moduliAt ct.level)
                (key.apply ctx (ctx.permutePart ct.level
                  (Automorphism.element step ctx.degree) c1) ct.level).1,
              (key.apply ctx (ctx.permutePart ct.level
                (Automorphism.element step ctx.degree) c1) ct.level).2] }) := by
  simp only [rotate, throw_bind, check_bind_eq_ok, check_eq_ok] at hrotate
  obtain ⟨-, -, hparts⟩ := hrotate
  split at hparts
  · next c0 c1 heq =>
      refine ⟨c0, c1, heq, ?_⟩
      by_cases hone : Automorphism.element step ctx.degree = 1
      · rw [if_pos (by rw [hone]; rfl), pure_eq_ok] at hparts
        exact .inl ⟨hone, hparts.symm⟩
      · rw [if_neg (by rwa [beq_iff_eq])] at hparts
        split at hparts
        · cases hparts
        · next key hkey =>
            rw [pure_eq_ok] at hparts
            exact .inr ⟨hone, key, hkey, hparts.symm⟩
  · cases hparts

/-- **The images of two parts at the image of the secret** are the values of the message at
the powers of the points. -/
theorem phase_image (h : ctx.Made) (hsk : sk.BelongsTo ctx) (hg : Odd g) (hct : ctx.Owns ct)
    {c0 c1 : ResiduePoly} (hparts : ct.parts = [c0, c1]) {i k : ℕ} {t : Transform}
    {psi : ZMod t.modulus.value} (hl : ctx.Limb i t psi) (hi : i ≤ ct.level)
    (hk : k < ctx.degree) :
    (ctx.permutePart ct.level g c0).value t.modulus i k +
        (ctx.permutePart ct.level g c1).value t.modulus i k *
          (GaloisKeys.target ctx sk g).value t.modulus i k =
      eval ctx.degree (((ctx.message sk ct).inverse ctx.transforms).value t.modulus i)
        (t.point psi k ^ g) := by
  obtain ⟨hc0, hc1⟩ := hct.canonical_pair hparts
  have hvalues0 := fun j hj => (hl.eval_inverse (k := j) hi hc0 hj).symm
  have hvalues1 := fun j hj => (hl.eval_inverse (k := j) hi hc1 hj).symm
  have hsecret := fun j hj =>
    (hsk.canonical.eval_inverse hl.modulus hl.transform hl.size_eq hl.lawful (k := j) hj).symm
  -- the message has the coefficients of `c₀ + c₁ s`, as both have the same values
  have hmessage : ∀ m < ctx.degree,
      ((ctx.message sk ct).inverse ctx.transforms).value t.modulus i m =
        (c0.inverse ctx.transforms).value t.modulus i m +
          mul ctx.degree ((c1.inverse ctx.transforms).value t.modulus i)
            ((sk.poly.inverse ctx.transforms).value t.modulus i) m := by
    intro m hm
    refine value_inverse_message (c := fun m => (c0.inverse ctx.transforms).value t.modulus i m +
      mul ctx.degree ((c1.inverse ctx.transforms).value t.modulus i)
        ((sk.poly.inverse ctx.transforms).value t.modulus i) m) h hsk hct hl hi (fun j hj => ?_) hm
    rw [eval_add, eval_mul (hl.point_pow j), ← hvalues0 j hj, ← hvalues1 j hj, ← hsecret j hj,
      hparts, phase_pair]
  have hroot := Automorphism.pow_pow_eq_neg_one (hl.point_pow k) hg
  rw [eval_congr hmessage, eval_add, eval_mul hroot,
    (permutePart_spec h hg hc0).2 i t psi hl hi _ hvalues0 k hk,
    (permutePart_spec h hg hc1).2 i t psi hl hi _ hvalues1 k hk,
    (GaloisKeys.target_spec h hsk hg).2 i t psi hl _ hsecret k hk]

/-- **What a rotation that succeeds does to the phase**: it is that of the message at the
powers of the points, up to the values of one small integer polynomial. -/
theorem rotate_spec (h : ctx.Made) (hspecial : ctx.parameters.special? = some special)
    (hs : ctx.Ternary s) (hks : ks.MadeFor ctx (.ofDraws ctx s)) (hct : ctx.Owns ct)
    (hrotate : ctx.rotate ct step ks = .ok ct') :
    ctx.Owns ct' ∧ ct'.size = 2 ∧ ct'.level = ct.level ∧ ct'.scale = ct.scale ∧
      ∃ E : ℕ → ℤ,
        (∀ k < ctx.degree, special.value * |E k| ≤ SwitchKey.errorBound ctx special ct.level) ∧
        (((ctx.degree / 2 : ℕ) : ℤ) ∣ step → ct' = ct ∧ ∀ k, E k = 0) ∧
        ∀ (i : ℕ) (t : Transform) (psi : ZMod t.modulus.value), ctx.Limb i t psi →
          i ≤ ct.level → ∀ k < ctx.degree,
            phase t.modulus i k (SecretKey.ofDraws ctx s).poly ct'.parts =
              eval ctx.degree
                  (((ctx.message (.ofDraws ctx s) ct).inverse ctx.transforms).value t.modulus i)
                  (t.point psi k ^ Automorphism.element step ctx.degree) +
                evalInt ctx.degree E (t.point psi k) := by
  have hsk := SecretKey.belongsTo_ofDraws h hs.size_eq
  have hodd := Automorphism.odd_element h.degree_pos step
  obtain ⟨c0, c1, hparts, ⟨hone, rfl⟩ | ⟨hne, key, hkey, hct'⟩⟩ := rotate_eq_ok hrotate
  · refine ⟨hct, by rw [Ciphertext.size, hparts]; rfl, rfl, rfl, fun _ => 0, fun k _ => ?_,
      fun _ => ⟨rfl, fun _ => rfl⟩, fun i t psi hl hi k hk => ?_⟩
    · have hpos := (h.special_spec hspecial).2.1
      rw [abs_zero, mul_zero]
      exact SwitchKey.errorBound_nonneg h (by omega)
    · rw [hone, pow_one, eval_inverse_message h hsk hct hl hi hk]
      simp [evalInt, eval]
  · obtain ⟨hc0, hc1⟩ := hct.canonical_pair hparts
    have himage0 := (permutePart_spec h hodd hc0).1
    have himage1 := (permutePart_spec h hodd hc1).1
    obtain ⟨hk0, hk1, E, hbound, hswitch⟩ := SwitchKey.apply_spec h hs
      (GaloisKeys.target_spec h hsk hodd).1 (hks.key _ key hkey) hspecial hct.level_le himage1
    have hw := h.fitWordsAt ct.level
    refine ⟨?_, by rw [hct']; rfl, by rw [hct'], by rw [hct'], E, hbound, fun hturn => ?_,
      fun i t psi hl hi k hk => ?_⟩
    · rw [hct']
      exact hct.pair (himage0.add hw hk0) hk1
    · exact absurd ((Automorphism.element_eq_one_iff h.exists_two_pow).mpr hturn) hne
    · have hphase := phase_image h hsk hodd hct hparts hl hi hk
      have herror := hswitch i t psi hl hi k hk
      rw [hct', phase_pair, ResiduePoly.value_add hw himage0 hk0 (hl.modulusAt hi) hk]
      linear_combination hphase + herror

/-- **Phases at the powers of the points**, up to an integer polynomial, belong to a message with the
substituted coefficients in every limb, up to the same polynomial. -/
theorem value_inverse_message_substitute (h : ctx.Made) (hsk : sk.BelongsTo ctx) (hct' : ctx.Owns ct')
    (hlevel : ct'.level = ct.level) {E : ℕ → ℤ}
    (hphase : ∀ (i : ℕ) (t : Transform) (psi : ZMod t.modulus.value), ctx.Limb i t psi →
      i ≤ ct.level → ∀ k < ctx.degree, phase t.modulus i k sk.poly ct'.parts =
        eval ctx.degree (((ctx.message sk ct).inverse ctx.transforms).value t.modulus i)
            (t.point psi k ^ g) +
          evalInt ctx.degree E (t.point psi k))
    {i : ℕ} {q : Modulus} (hq : (ctx.moduliAt ct.level)[i]? = some q) {k : ℕ} (hk : k < ctx.degree) :
    ((ctx.message sk ct').inverse ctx.transforms).value q i k =
      substitute ctx.degree g (((ctx.message sk ct).inverse ctx.transforms).value q i) k + E k := by
  obtain ⟨hi, hmodulus⟩ := Parameters.getElem?_moduliAt.mp hq
  obtain ⟨t, psi, rfl, hl⟩ := h.exists_limb hmodulus
  exact value_inverse_message_add (c := substitute ctx.degree g _) h hsk hct' hl (hlevel ▸ hi)
    (fun j hj => by rw [hphase i t psi hl hi j hj, eval_substitute (hl.point_pow j)]) hk

/-- **A rotation substitutes a power of `X` in the message, up to one small integer
polynomial.**  With `g = 5 ^ (step mod N / 2) mod 2 N`, the coefficients of the message of the
result are in every limb those of the image of the message under `X ↦ X ^ g`, plus `E`.
After a full turn the ciphertext is unchanged and there is no error.  At the powers
`x ^ 5 ^ j` of every root of `X ^ N + 1` in any ring the image has the old values, moved left
by the step. -/
theorem rotate_error (h : ctx.Made) (hspecial : ctx.parameters.special? = some special)
    (hs : ctx.Ternary s) (hks : ks.MadeFor ctx (.ofDraws ctx s)) (hct : ctx.Owns ct)
    (hrotate : ctx.rotate ct step ks = .ok ct') :
    ∃ (g : ℕ) (m m' : Plaintext) (E : ℕ → ℤ),
      g = 5 ^ (step % (ctx.degree / 2 : ℕ)).toNat % (2 * ctx.degree) ∧
        ct'.size = 2 ∧ ct'.level = ct.level ∧ ct'.scale = ct.scale ∧
        ctx.decrypt ct (.ofDraws ctx s) = .ok m ∧ ctx.decrypt ct' (.ofDraws ctx s) = .ok m' ∧
        (∀ k < ctx.degree, special.value * |E k| ≤ SwitchKey.errorBound ctx special ct.level) ∧
        (∀ (i : ℕ) (q : Modulus), (ctx.moduliAt ct.level)[i]? = some q → ∀ k < ctx.degree,
          (m'.poly.inverse ctx.transforms).value q i k =
            substitute ctx.degree g ((m.poly.inverse ctx.transforms).value q i) k + E k) ∧
        (((ctx.degree / 2 : ℕ) : ℤ) ∣ step → ct' = ct ∧ ∀ k, E k = 0) ∧
        ∀ (R : Type) [CommRing R] (x : R) (c : ℕ → R), x ^ ctx.degree = -1 →
          ∀ j l : ℕ, (l : ℤ) ≡ j + step [ZMOD (ctx.degree / 2 : ℕ)] →
            eval ctx.degree (substitute ctx.degree g c) (x ^ 5 ^ j) =
              eval ctx.degree c (x ^ 5 ^ l) := by
  have hsk := SecretKey.belongsTo_ofDraws h hs.size_eq
  obtain ⟨hown, hsize, hlevel, hscale, E, hbound, hturn, hphase⟩ :=
    rotate_spec h hspecial hs hks hct hrotate
  exact ⟨_, _, _, E, Automorphism.element_eq h.degree_pos step, hsize, hlevel, hscale,
    decrypt_eq h hsk hct, decrypt_eq h hsk hown, hbound,
    fun i q hq k hk => value_inverse_message_substitute h hsk hown hlevel hphase hq hk, hturn,
    fun R _ x c hx j l hl => Automorphism.eval_substitute_element h.exists_two_pow hx step c hl⟩

/-- One step to the right over the small context, with `g = 5`. -/
theorem rotate_error_small :
    ∃ (ks : GaloisKeys) (ct' : Ciphertext) (g : ℕ) (m m' : Plaintext) (E : ℕ → ℤ),
      ks.MadeFor small (.ofDraws small #[1, 0, -1, 1]) ∧
        small.rotate (.small false) (-1) ks = .ok ct' ∧ g = 5 ∧
        ct'.size = 2 ∧ ct'.level = 1 ∧ ct'.scale = 1 ∧
        small.decrypt (.small false) (.ofDraws small #[1, 0, -1, 1]) = .ok m ∧
        small.decrypt ct' (.ofDraws small #[1, 0, -1, 1]) = .ok m' ∧
        (∀ k < 4, 113 * |E k| ≤ SwitchKey.errorBound small ⟨113⟩ 1) ∧
        (∀ (i : ℕ) (q : Modulus), (small.moduliAt 1)[i]? = some q → ∀ k < 4,
          (m'.poly.inverse small.transforms).value q i k =
            substitute 4 g ((m.poly.inverse small.transforms).value q i) k + E k) ∧
        ((2 : ℤ) ∣ -1 → ct' = .small false ∧ ∀ k, E k = 0) ∧
        ∀ (R : Type) [CommRing R] (x : R) (c : ℕ → R), x ^ 4 = -1 →
          ∀ j l : ℕ, (l : ℤ) ≡ j + -1 [ZMOD 2] →
            eval 4 (substitute 4 g c) (x ^ 5 ^ j) = eval 4 c (x ^ 5 ^ l) := by
  obtain ⟨key, hkey⟩ : ∃ key, key = SwitchKey.ofDraws small (.ofDraws small #[1, 0, -1, 1]) ⟨113⟩
      (GaloisKeys.target small (.ofDraws small #[1, 0, -1, 1]) 5) smallDraws :=
    ⟨_, rfl⟩
  have hks : GaloisKeys.MadeFor small (.ofDraws small #[1, 0, -1, 1]) ⟨[(5, key)], 0⟩ := by
    refine ⟨rfl, fun g found hfound => ?_⟩
    rw [GaloisKeys.find?, List.lookup_cons] at hfound
    split at hfound
    · next heq =>
        cases beq_iff_eq.mp heq
        cases hfound
        rw [hkey]
        exact madeFor_smallDraws _ _
    · cases hfound
  obtain ⟨ct', hrotate⟩ : ∃ ct', small.rotate (.small false) (-1) ⟨[(5, key)], 0⟩ = .ok ct' :=
    ⟨_, rfl⟩
  obtain ⟨g, m, m', E, hg, hresult⟩ :=
    rotate_error made_small rfl ternary_small hks (owns_small false) hrotate
  exact ⟨_, ct', g, m, m', E, hks, hrotate, hg, hresult⟩

end Context

end EncryptedReals

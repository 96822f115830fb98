import EncryptedReals.Proofs.RotationKeys

/-!
# Switching with the keys that a context draws

What relinearization and rotation do to a message is proved for all keys that draws in range could make.
Here the keys come from the key generator itself: from a secret that the context drew, with any generator
for its coefficients and any generator for the keys.  The generator gives keys whenever there is a special
prime, and what it gives is made from draws in range, since the samplers keep it.  So the errors of the
switch are bounded for every key that a client can hold.

## Main results

* `Context.relinearize_by_drawn_key` — relinearization with the key of a drawn secret
* `Context.rotate_by_drawn_keys` — rotation by every step that the drawn keys serve
-/

namespace EncryptedReals

open Negacyclic

variable {ctx : Context} {sk : SecretKey} {special : Modulus} {ct : Ciphertext} {step : ℤ}
  {steps : List ℤ}

/-- A relinearization key can always be drawn when there is a special prime. -/
theorem RelinearizationKey.exists_run_draw (hspecial : ctx.parameters.special? = some special)
    (sk : SecretKey) (g : Generator) : ∃ rk g', (draw ctx sk).run.run g = (.ok rk, g') := by
  obtain ⟨key, g', hdraw⟩ := SwitchKey.exists_run_draw hspecial sk (target ctx sk) g
  refine ⟨⟨key, ctx.id⟩, g', ?_⟩
  rw [draw, run_bind_eq hdraw]
  rfl

namespace Context

/-- **A secret that was drawn** has ternary coefficients. -/
theorem DrawsSecret.exists_ternary (hsk : ctx.DrawsSecret sk) :
    ∃ s, ctx.Ternary s ∧ sk = .ofDraws ctx s := by
  obtain ⟨g, rfl⟩ := hsk
  exact ⟨_, ctx.ternary_draw g, rfl⟩

/-- **Relinearization with the key that was drawn for a drawn secret.**  There is one, whatever the
generator.  With it, every well-formed ciphertext of three parts is relinearized, and its message changes
by one small integer polynomial. -/
theorem relinearize_by_drawn_key (h : ctx.Made) (hspecial : ctx.parameters.special? = some special)
    (hsk : ctx.DrawsSecret sk) (g : Generator) :
    ∃ rk g', (RelinearizationKey.draw ctx sk).run.run g = (.ok rk, g') ∧
      ∀ ct : Ciphertext, ctx.Owns ct → ct.size = 3 →
        ∃ (ct' : Ciphertext) (m m' : Plaintext) (E : ℕ → ℤ),
          ctx.relinearize ct rk = .ok ct' ∧ ct'.size = 2 ∧ ct'.level = ct.level ∧
            ct'.scale = ct.scale ∧ ctx.decrypt ct sk = .ok m ∧ ctx.decrypt ct' sk = .ok m' ∧
            (∀ k < ctx.degree,
              special.value * |E k| ≤ SwitchKey.errorBound ctx special ct.level) ∧
            ∀ (i : ℕ) (q : Modulus), (ctx.moduliAt ct.level)[i]? = some q → ∀ k < ctx.degree,
              (m'.poly.inverse ctx.transforms).value q i k -
                (m.poly.inverse ctx.transforms).value q i k = E k := by
  obtain ⟨s, hs, rfl⟩ := hsk.exists_ternary
  obtain ⟨rk, g', hdraw⟩ := RelinearizationKey.exists_run_draw hspecial (.ofDraws ctx s) g
  refine ⟨rk, g', hdraw, fun ct hct hsize => ?_⟩
  have hrk := RelinearizationKey.madeFor_draw (pairDraw_draw h) hdraw
  have hsk' := hsk.belongsTo h
  obtain ⟨ct', hrelinearize, hown, hparts, hlevel, hscale, E, hbound, hphase⟩ :=
    relinearize_spec h hspecial hs hrk hct hsize
  exact ⟨ct', _, _, E, hrelinearize, hparts, hlevel, hscale, decrypt_eq h hsk' hct,
    decrypt_eq h hsk' hown, hbound, fun i q hq k hk =>
      sub_value_inverse_message h hsk' hct hown hlevel hphase hq hk⟩

/-- **Rotation by the keys that were drawn for a drawn secret.**  There are keys for every list of steps,
whatever the generator.  With them, every well-formed ciphertext of two parts is rotated by every step that
the list serves, and its message becomes its image, up to one small integer polynomial. -/
theorem rotate_by_drawn_keys (h : ctx.Made) (hspecial : ctx.parameters.special? = some special)
    (hsk : ctx.DrawsSecret sk) (steps : List ℤ) (g : Generator) :
    ∃ ks g', (GaloisKeys.draw ctx sk steps).run.run g = (.ok ks, g') ∧
      ∀ ct : Ciphertext, ctx.Owns ct → ct.size = 2 →
        ∀ step, GaloisKeys.Served (ctx.degree / 2) steps step →
          ∃ (ct' : Ciphertext) (m m' : Plaintext) (E : ℕ → ℤ),
            ctx.rotate ct step ks = .ok ct' ∧ ct'.size = 2 ∧ ct'.level = ct.level ∧
              ct'.scale = ct.scale ∧ ctx.decrypt ct sk = .ok m ∧ ctx.decrypt ct' sk = .ok m' ∧
              (∀ k < ctx.degree,
                special.value * |E k| ≤ SwitchKey.errorBound ctx special ct.level) ∧
              (((ctx.degree / 2 : ℕ) : ℤ) ∣ step → ct' = ct ∧ ∀ k, E k = 0) ∧
              ∀ (i : ℕ) (q : Modulus), (ctx.moduliAt ct.level)[i]? = some q → ∀ k < ctx.degree,
                (m'.poly.inverse ctx.transforms).value q i k =
                  substitute ctx.degree (Automorphism.element step ctx.degree)
                    ((m.poly.inverse ctx.transforms).value q i) k + E k := by
  obtain ⟨s, hs, rfl⟩ := hsk.exists_ternary
  obtain ⟨ks, g', hdraw, howner, hkeys⟩ :=
    GaloisKeys.exists_run_draw hspecial (.ofDraws ctx s) steps g
  refine ⟨ks, g', hdraw, fun ct hct hsize step hstep => ?_⟩
  have hks := GaloisKeys.madeFor_draw (pairDraw_draw h) hdraw
  have hsk' := hsk.belongsTo h
  obtain ⟨ct', hrotate⟩ :=
    exists_rotate_of_served h (hct.checkOwned h) hsize howner hkeys hstep
  obtain ⟨hown, hparts, hlevel, hscale, E, hbound, hturn, hphase⟩ :=
    rotate_spec h hspecial hs hks hct hrotate
  exact ⟨ct', _, _, E, hrotate, hparts, hlevel, hscale, decrypt_eq h hsk' hct,
    decrypt_eq h hsk' hown, hbound, hturn, fun i q hq k hk =>
      value_inverse_message_substitute h hsk' hown hlevel hphase hq hk⟩

end Context

end EncryptedReals

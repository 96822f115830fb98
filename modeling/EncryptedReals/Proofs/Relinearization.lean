import EncryptedReals.Evaluation
import EncryptedReals.Proofs.KeySwitchError

/-!
# Relinearization keeps the message up to a small error

A ciphertext `(c₀, c₁, c₂)` becomes `(c₀ + k₀, c₁ + k₁)`, where switching `c₂` from `s²`
to `s` gives `k₀ + k₁ s = c₂ s² + E`.  The message changes by `E`, at every level and by the
same integer polynomial in every limb.

## Main results

* `Context.relinearize_spec` — the difference of the phases, and its bound
* `Context.sub_value_inverse_message` — from phases to coefficients
* `Context.relinearize_error` — the same for the coefficients of the messages
-/

namespace EncryptedReals.Context

open Negacyclic

variable {ctx : Context} {s : Array ℤ} {special : Modulus} {rk : RelinearizationKey}
  {ct : Ciphertext}

/-- The target of a relinearization key is the square of the secret. -/
theorem target_spec (h : ctx.Made) {sk : SecretKey} (hsk : sk.BelongsTo ctx) :
    (RelinearizationKey.target ctx sk).Canonical ctx.degree ctx.parameters.moduli ∧
      ∀ (i : ℕ) (q : Modulus), ctx.parameters.moduli[i]? = some q → ∀ k < ctx.degree,
        (RelinearizationKey.target ctx sk).value q i k =
          sk.poly.value q i k * sk.poly.value q i k :=
  ⟨hsk.canonical.mul h.fitWords hsk.canonical,
    fun _ _ hq _ hk => ResiduePoly.value_mul hsk.canonical hsk.canonical hq hk⟩

/-- **What relinearization returns for three parts.** -/
theorem relinearize_eq (h : ctx.Made) (hct : ctx.Owns ct) (hrk : rk.owner = ctx.id)
    {c0 c1 c2 : ResiduePoly} (hparts : ct.parts = [c0, c1, c2]) :
    ctx.relinearize ct rk = .ok { ct with
      parts := [c0.add (ctx.moduliAt ct.level) (rk.key.apply ctx c2 ct.level).1,
        c1.add (ctx.moduliAt ct.level) (rk.key.apply ctx c2 ct.level).2] } := by
  simp only [relinearize, throw_bind, check_bind_eq_ok, check_eq_ok, bne_iff_ne, ne_eq, not_not,
    hparts]
  exact ⟨hct.checkOwned h, hrk.trans hct.owner_eq.symm, rfl⟩

/-- **Relinearization adds one small integer polynomial to the phase.** -/
theorem relinearize_spec (h : ctx.Made) (hspecial : ctx.parameters.special? = some special)
    (hs : ctx.Ternary s) (hrk : rk.MadeFor ctx (.ofDraws ctx s)) (hct : ctx.Owns ct)
    (hsize : ct.size = 3) :
    ∃ ct', ctx.relinearize ct rk = .ok ct' ∧ ctx.Owns ct' ∧ ct'.size = 2 ∧
      ct'.level = ct.level ∧ ct'.scale = ct.scale ∧
      ∃ E : ℕ → ℤ,
        (∀ k < ctx.degree, special.value * |E k| ≤ SwitchKey.errorBound ctx special ct.level) ∧
        ∀ (i : ℕ) (t : Transform) (psi : ZMod t.modulus.value), ctx.Limb i t psi →
          i ≤ ct.level → ∀ k < ctx.degree,
            phase t.modulus i k (SecretKey.ofDraws ctx s).poly ct'.parts =
              phase t.modulus i k (SecretKey.ofDraws ctx s).poly ct.parts +
                evalInt ctx.degree E (t.point psi k) := by
  obtain ⟨c0, c1, c2, hparts⟩ := List.length_eq_three.mp hsize
  have hcanonical := hct.canonical
  rw [hparts] at hcanonical
  simp only [List.forall_mem_cons] at hcanonical
  obtain ⟨hc0, hc1, hc2, -⟩ := hcanonical
  have hsk := SecretKey.belongsTo_ofDraws h hs.size_eq
  obtain ⟨htarget, hsquare⟩ := target_spec h hsk
  obtain ⟨hk0, hk1, E, hbound, hswitch⟩ :=
    SwitchKey.apply_spec h hs htarget hrk.key hspecial hct.level_le hc2
  have hw := h.fitWordsAt ct.level
  refine ⟨_, relinearize_eq h hct hrk.owner_eq hparts, hct.pair (hc0.add hw hk0) (hc1.add hw hk1),
    rfl, rfl, rfl, E, hbound, fun i t psi hl hi k hk => ?_⟩
  have hkey := hswitch i t psi hl hi k hk
  have hq := hl.modulusAt hi
  rw [hsquare i _ hl.modulus k hk] at hkey
  rw [phase_pair, ResiduePoly.value_add hw hc0 hk0 hq hk, ResiduePoly.value_add hw hc1 hk1 hq hk,
    hparts, phase]
  simp only [List.map_cons, List.map_nil, horner_cons, horner_nil]
  linear_combination hkey

/-- **Phases that differ by the values of an integer polynomial** belong to messages whose coefficients
differ by it in every limb. -/
theorem sub_value_inverse_message (h : ctx.Made) {sk : SecretKey} (hsk : sk.BelongsTo ctx)
    (hct : ctx.Owns ct) {ct' : Ciphertext} (hct' : ctx.Owns ct') (hlevel : ct'.level = ct.level)
    {E : ℕ → ℤ}
    (hphase : ∀ (i : ℕ) (t : Transform) (psi : ZMod t.modulus.value), ctx.Limb i t psi →
      i ≤ ct.level → ∀ k < ctx.degree, phase t.modulus i k sk.poly ct'.parts =
        phase t.modulus i k sk.poly ct.parts + evalInt ctx.degree E (t.point psi k))
    {i : ℕ} {q : Modulus} (hq : (ctx.moduliAt ct.level)[i]? = some q) {k : ℕ} (hk : k < ctx.degree) :
    ((ctx.message sk ct').inverse ctx.transforms).value q i k -
      ((ctx.message sk ct).inverse ctx.transforms).value q i k = E k := by
  obtain ⟨hi, hmodulus⟩ := Parameters.getElem?_moduliAt.mp hq
  obtain ⟨t, psi, rfl, hl⟩ := h.exists_limb hmodulus
  have hvalues := value_inverse_message_add (c :=
      ((ctx.message sk ct).inverse ctx.transforms).value t.modulus i) h hsk hct' hl (hlevel ▸ hi)
    (fun j hj => by rw [hphase i t psi hl hi j hj, eval_inverse_message h hsk hct hl hi hj]) hk
  rw [hvalues, add_sub_cancel_left]

/-- **Relinearization changes the message by one small integer polynomial.**  It succeeds on
every well-formed ciphertext of three parts, gives two parts at the same level and scale,
and in every limb the coefficients of the messages differ by `E`, where `P |E|` is within
the bound of key switching at the level. -/
theorem relinearize_error (h : ctx.Made) (hspecial : ctx.parameters.special? = some special)
    (hs : ctx.Ternary s) (hrk : rk.MadeFor ctx (.ofDraws ctx s)) (hct : ctx.Owns ct)
    (hsize : ct.size = 3) :
    ∃ (ct' : Ciphertext) (m m' : Plaintext) (E : ℕ → ℤ),
      ctx.relinearize ct rk = .ok ct' ∧ ct'.size = 2 ∧ ct'.level = ct.level ∧
        ct'.scale = ct.scale ∧
        ctx.decrypt ct (.ofDraws ctx s) = .ok m ∧ ctx.decrypt ct' (.ofDraws ctx s) = .ok m' ∧
        (∀ k < ctx.degree, special.value * |E k| ≤ SwitchKey.errorBound ctx special ct.level) ∧
        ∀ (i : ℕ) (q : Modulus), (ctx.moduliAt ct.level)[i]? = some q → ∀ k < ctx.degree,
          (m'.poly.inverse ctx.transforms).value q i k -
            (m.poly.inverse ctx.transforms).value q i k = E k := by
  have hsk := SecretKey.belongsTo_ofDraws h hs.size_eq
  obtain ⟨ct', hrelinearize, hown, hparts, hlevel, hscale, E, hbound, hphase⟩ :=
    relinearize_spec h hspecial hs hrk hct hsize
  exact ⟨ct', _, _, E, hrelinearize, hparts, hlevel, hscale, decrypt_eq h hsk hct,
    decrypt_eq h hsk hown, hbound, fun i q hq k hk =>
      sub_value_inverse_message h hsk hct hown hlevel hphase hq hk⟩

/-- Three parts over the small context: the error is at most 40 = ⌊4536 / 113⌋. -/
theorem relinearize_error_small :
    ∃ (rk : RelinearizationKey) (ct' : Ciphertext) (m m' : Plaintext) (E : ℕ → ℤ),
      rk.MadeFor small (.ofDraws small #[1, 0, -1, 1]) ∧
        small.relinearize (.small true) rk = .ok ct' ∧ ct'.size = 2 ∧ ct'.level = 1 ∧
        ct'.scale = 1 ∧
        small.decrypt (.small true) (.ofDraws small #[1, 0, -1, 1]) = .ok m ∧
        small.decrypt ct' (.ofDraws small #[1, 0, -1, 1]) = .ok m' ∧
        (∀ k < 4, 113 * |E k| ≤ SwitchKey.errorBound small ⟨113⟩ 1) ∧
        ∀ (i : ℕ) (q : Modulus), (small.moduliAt 1)[i]? = some q → ∀ k < 4,
          (m'.poly.inverse small.transforms).value q i k -
            (m.poly.inverse small.transforms).value q i k = E k := by
  have hrk : RelinearizationKey.MadeFor small (.ofDraws small #[1, 0, -1, 1])
      ⟨.ofDraws small (.ofDraws small #[1, 0, -1, 1]) ⟨113⟩
        (RelinearizationKey.target small (.ofDraws small #[1, 0, -1, 1])) smallDraws, 0⟩ :=
    ⟨rfl, madeFor_smallDraws _ _⟩
  obtain ⟨ct', m, m', E, hresult⟩ :=
    relinearize_error made_small rfl ternary_small hrk (owns_small true) rfl
  exact ⟨_, ct', m, m', E, hrk, hresult⟩

end EncryptedReals.Context

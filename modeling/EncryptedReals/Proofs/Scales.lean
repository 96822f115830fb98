import EncryptedReals.Proofs.Quotients
import EncryptedReals.Proofs.Reachable

/-!
# The scales of a run

A scale should be positive, and narrower than the modulus at the level of its ciphertext.  Encoding
checks both.  Products check the width only, and the calls that drop moduli check nothing.  So the
width is kept by every call that does not drop a modulus, and positivity by every call that neither
multiplies nor divides.  A run can leave the rule in three ways: a product of small scales is
rounded to 0, and a ciphertext that is rescaled, or switched to a lower level, may have a scale that
is too wide there.  What no call ever produces is a scale that is negative, infinite or NaN.

## Main Definitions

* `Context.WellScaled` — the scale of a ciphertext is positive and fits at its level
* `Call.Scales` — the scale that a call returns, and the checks it has passed
* `Context.ReachableGuarded` — runs whose caller looks where no check does

## Main results

* `Call.scales`, `Call.wellScaled` — every call returns its scale, and a guarded one keeps the rule
* `Context.Reachable.signed` — reachable scales are finite and not negative
* `Context.reachable_scale` — what holds of the scales of every run
* `Context.exists_reachable_not_wellScaled` — the three ways out of the rule
-/

namespace EncryptedReals

open Binary64

namespace Context

variable {ctx : Context} {ct : Ciphertext} {pt : Plaintext} {level : ℕ}

/-! ### The rule -/

/-- **The scale of a ciphertext is positive and fits** the modulus at its level. -/
structure WellScaled (ctx : Context) (ct : Ciphertext) : Prop where
  pos : 0 < ct.scale
  fits : ctx.checkProductScale ct.scale ct.level = .ok ()

theorem checkProductScale_eq_ok {scale : Float} :
    ctx.checkProductScale scale level = .ok () ↔
      scale.isFinite = true ∧ scaleFits scale (ctx.parameters.bitsAt level) = true := by
  by_cases hfinite : scale.isFinite = true <;> simp [checkProductScale, hfinite]

/-- The rule asks for what the encoders check. -/
theorem wellScaled_iff :
    ctx.WellScaled ct ↔ checkScale ct.scale (ctx.moduliAt ct.level) = .ok () := by
  rw [checkScale_eq_ok]
  constructor
  · rintro ⟨hpos, hfits⟩
    obtain ⟨hfinite, hfits⟩ := checkProductScale_eq_ok.mp hfits
    exact ⟨hfinite, hpos, hfits⟩
  · rintro ⟨hfinite, hpos, hfits⟩
    exact ⟨hpos, checkProductScale_eq_ok.mpr ⟨hfinite, hfits⟩⟩

/-- The scale of an encoded plaintext has no minus sign. -/
theorem Encodes.signed (h : ctx.Made) (hpt : ctx.Encodes pt) :
    Signed .positive 971 (unpacked pt.scale) := by
  obtain ⟨hfinite, hpos, -⟩ := checkScale_eq_ok.mp (hpt.checkScale h)
  exact signed_of_pos hfinite hpos

/-- The modulus that a rescaling divides by is the one that the chain has at its level. -/
theorem Made.moduli_getElem? (h : ctx.Made) {t : Transform}
    (ht : ctx.transforms[level]? = some t) : ctx.parameters.moduli[level]? = some t.modulus := by
  have hlt := (List.getElem?_eq_some_iff.mp ht).1
  rw [h.length_transforms] at hlt
  obtain ⟨t', psi, hmodulus, hl⟩ := h.exists_limb (List.getElem?_eq_getElem hlt)
  obtain rfl : t' = t := Option.some.inj (hl.transform.symm.trans ht)
  exact hl.modulus

end Context

namespace Call

variable {ctx : Context} {ct : Ciphertext}

/-! ### Calls -/

/-- **The scale and the level that a call returns.**  Products multiply the scales and have passed
the check of the width; rescaling divides by the modulus it drops; the others leave the scale as it
was. -/
def Scales (ctx : Context) (ct : Ciphertext) : Call → Prop
  | multiply a b => ct.scale = a.scale * b.scale ∧ ct.level = a.level ∧
    ctx.checkProductScale ct.scale ct.level = .ok ()
  | multiplyPlain a pt => ct.scale = a.scale * pt.scale ∧ ct.level = a.level ∧
    ctx.checkProductScale ct.scale ct.level = .ok ()
  | rescale a => ∃ q, ctx.parameters.moduli[a.level]? = some q ∧
    ct.scale = a.scale / nearest q.value ∧ ct.level + 1 = a.level
  | switchTo a level => ct.scale = a.scale ∧ ct.level = level
  | add a _ | addInPlace a _ | sub a _ | negate a | addPlain a _ | relinearize a _
  | rotate a _ _ => ct.scale = a.scale ∧ ct.level = a.level

/-- **Every call returns its scale.** -/
theorem scales (h : ctx.Made) {call : Call} (hct : call.perform ctx = .ok ct) :
    call.Scales ctx ct := by
  have hadd : ∀ a b, ctx.add a b = .ok ct → ct.scale = a.scale ∧ ct.level = a.level := by
    intro a b hct
    simp only [Context.add, bind_eq_ok, pure_eq_ok] at hct
    obtain ⟨⟨⟩, -, ⟨⟩, -, ⟨⟩, -, rfl⟩ := hct
    exact ⟨rfl, rfl⟩
  cases call with
  | add a b => exact hadd a b hct
  | addInPlace a b =>
      rw [perform_addInPlace] at hct
      exact hadd a b hct
  | sub a b =>
      simp only [perform, Context.sub, bind_eq_ok] at hct
      obtain ⟨negated, -, hct⟩ := hct
      exact hadd a negated hct
  | negate a =>
      simp only [perform, Context.negate, bind_eq_ok, pure_eq_ok] at hct
      obtain ⟨⟨⟩, -, rfl⟩ := hct
      exact ⟨rfl, rfl⟩
  | multiply a b =>
      simp only [perform, Context.multiply, throw_bind, check_eq_ok, bind_eq_ok, pure_eq_ok] at hct
      obtain ⟨⟨⟩, -, ⟨⟩, -, -, ⟨⟩, hscale, rfl⟩ := hct
      exact ⟨rfl, rfl, hscale⟩
  | multiplyPlain a pt =>
      simp only [perform, Context.multiplyPlain, throw_bind, check_eq_ok, bind_eq_ok,
        pure_eq_ok] at hct
      obtain ⟨⟨⟩, -, -, ⟨⟩, hscale, rfl⟩ := hct
      exact ⟨rfl, rfl, hscale⟩
  | addPlain a pt =>
      simp only [perform, Context.addPlain, throw_bind, check_eq_ok, bind_eq_ok] at hct
      obtain ⟨⟨⟩, -, -, hct⟩ := hct
      split at hct <;> cases hct <;> exact ⟨rfl, rfl⟩
  | relinearize a rk =>
      simp only [perform, Context.relinearize, throw_bind, check_eq_ok, bind_eq_ok] at hct
      obtain ⟨⟨⟩, -, -, hct⟩ := hct
      split at hct <;> cases hct <;> exact ⟨rfl, rfl⟩
  | rescale a =>
      obtain ⟨level, last, hlevel, hlast, rfl⟩ := Context.rescale_eq_ok hct
      rw [← hlevel] at hlast
      exact ⟨last.modulus, h.moduli_getElem? hlast, rfl, hlevel.symm⟩
  | switchTo a level =>
      simp only [perform, Context.switchTo, throw_bind, check_eq_ok, bind_eq_ok, pure_eq_ok] at hct
      obtain ⟨⟨⟩, -, -, rfl⟩ := hct
      exact ⟨rfl, rfl⟩
  | rotate a step ks =>
      obtain ⟨c0, c1, -, ⟨-, rfl⟩ | ⟨-, key, -, rfl⟩⟩ := Context.rotate_eq_ok hct
      · exact ⟨rfl, rfl⟩
      · exact ⟨rfl, rfl⟩

/-- **What the caller has to see to**, since the call does not: that a product or a quotient is not
rounded to 0, and that a scale still fits where a modulus was dropped. -/
def Guarded (ctx : Context) (ct : Ciphertext) : Call → Prop
  | multiply _ _ | multiplyPlain _ _ => 0 < ct.scale
  | rescale _ => 0 < ct.scale ∧ ctx.checkProductScale ct.scale ct.level = .ok ()
  | switchTo a level => ctx.checkProductScale a.scale level = .ok ()
  | _ => True

/-- **A guarded call keeps the rule.** -/
theorem wellScaled (h : ctx.Made) {call : Call} (hct : call.perform ctx = .ok ct)
    (hoperands : ∀ x ∈ call.operands, ctx.WellScaled x) (hguarded : call.Guarded ctx ct) :
    ctx.WellScaled ct := by
  have hscales := scales h hct
  have hkeeps : ∀ a, ctx.WellScaled a → ct.scale = a.scale ∧ ct.level = a.level →
      ctx.WellScaled ct := fun a ha ⟨hscale, hlevel⟩ => by
    rw [Context.wellScaled_iff, hscale, hlevel, ← Context.wellScaled_iff]
    exact ha
  cases call with
  | add a b | addInPlace a b | sub a b | negate a | addPlain a pt | relinearize a rk
  | rotate a step ks => exact hkeeps a (hoperands a List.mem_cons_self) hscales
  | multiply a b | multiplyPlain a pt => exact ⟨hguarded, hscales.2.2⟩
  | rescale a => exact ⟨hguarded.1, hguarded.2⟩
  | switchTo a level =>
      obtain ⟨hscale, hlevel⟩ := hscales
      refine ⟨?_, ?_⟩
      · rw [hscale]
        exact (hoperands a List.mem_cons_self).pos
      · rw [hscale, hlevel]
        exact hguarded

end Call

/-! ### Runs -/

namespace Context

variable {ctx : Context} {ct : Ciphertext}

/-- **Reachable scales are finite and have no minus sign**, by induction on the run. -/
theorem Reachable.signed (h : ctx.Made) (hct : ctx.Reachable ct) :
    Signed .positive 971 (unpacked ct.scale) := by
  induction hct with
  | encrypt hpt hpk hct =>
      rw [eq_encryptWith h hpt hpk hct]
      exact hpt.signed h
  | @perform call ct hcall hoperands hct ih =>
      have hscales := Call.scales h hct
      cases call with
      | multiply a b =>
          obtain ⟨hscale, -, hfits⟩ := hscales
          have hfinite := (checkProductScale_eq_ok.mp hfits).1
          rw [hscale] at hfinite ⊢
          exact signed_mul (ih a (by simp [Call.operands])) (ih b (by simp [Call.operands])) hfinite
      | multiplyPlain a pt =>
          obtain ⟨hscale, -, hfits⟩ := hscales
          have hfinite := (checkProductScale_eq_ok.mp hfits).1
          rw [hscale] at hfinite ⊢
          have hpt : ctx.Encodes pt := hcall
          exact signed_mul (ih a (by simp [Call.operands])) (hpt.signed h) hfinite
      | rescale a =>
          obtain ⟨q, hq, hscale, -⟩ := hscales
          obtain ⟨t, psi, rfl, hl⟩ := h.exists_limb hq
          rw [hscale]
          exact signed_div_nearest hl.lawful.prime.two_le hl.lawful.small
            (ih a (by simp [Call.operands]))
      | add a b | addInPlace a b | sub a b | negate a | addPlain a pt | relinearize a rk
      | switchTo a level | rotate a step ks =>
          rw [hscales.1]
          exact ih a (by simp [Call.operands])

/-- **The ciphertexts of guarded runs**: as in every run, but the caller looks at the results of
products, rescalings and switches. -/
inductive ReachableGuarded (ctx : Context) : Ciphertext → Prop
  | encrypt {pt : Plaintext} {pk : PublicKey} {ct : Ciphertext} {g g' : Generator}
      (hpt : ctx.Encodes pt) (hpk : ctx.DrawsPublicKey pk)
      (hct : (ctx.encrypt pt pk).run.run g = (.ok ct, g')) : ReachableGuarded ctx ct
  | perform {call : Call} {ct : Ciphertext} (hcall : call.Admissible ctx)
      (hoperands : ∀ x ∈ call.operands, ReachableGuarded ctx x) (hct : call.perform ctx = .ok ct)
      (hguarded : call.Guarded ctx ct) : ReachableGuarded ctx ct

theorem ReachableGuarded.reachable (hct : ctx.ReachableGuarded ct) : ctx.Reachable ct := by
  induction hct with
  | encrypt hpt hpk hct => exact .encrypt hpt hpk hct
  | perform hcall _ hct _ ih => exact .perform hcall ih hct

/-- **Guarded runs follow the rule**, by induction on the run. -/
theorem ReachableGuarded.wellScaled (h : ctx.Made) (hct : ctx.ReachableGuarded ct) :
    ctx.WellScaled ct := by
  induction hct with
  | encrypt hpt hpk hct =>
      rw [eq_encryptWith h hpt hpk hct, wellScaled_iff]
      exact hpt.checkScale h
  | perform _ _ hct hguarded ih => exact Call.wellScaled h hct ih hguarded

/-- **The scales of every run.**  Every reachable scale is finite and not negative.  Every call
returns its scale: products have passed the check of the width, rescaling divides by the modulus
that it drops, and all other calls leave the scale as it was.  So every scale is positive and fits
at its level in a run whose caller sees to it that no product and no quotient is rounded to 0, and
that scales still fit where a modulus was dropped. -/
theorem reachable_scale (h : ctx.Made) :
    (∀ ct, ctx.Reachable ct → ct.scale.isFinite = true ∧ 0 ≤ ct.scale) ∧
    (∀ (call : Call) ct, call.perform ctx = .ok ct → call.Scales ctx ct) ∧
    ∀ ct, ctx.ReachableGuarded ct → ctx.Reachable ct ∧ ctx.WellScaled ct := by
  refine ⟨fun ct hct => ?_, fun _ _ => Call.scales h, fun ct hct => ?_⟩
  · have hsigned := hct.signed h
    exact ⟨hsigned.isFinite, zero_le_of_signed hsigned⟩
  · exact ⟨hct.reachable, hct.wellScaled h⟩

/-- Ciphertexts of one level have a product when the product of their scales is accepted. -/
theorem exists_multiply {a b : Ciphertext} (h : ctx.Made) (ha : ctx.Owns a) (hb : ctx.Owns b)
    (hlevel : a.level = b.level)
    (hscale : ctx.checkProductScale (a.scale * b.scale) a.level = .ok ()) :
    ∃ ct, (Call.multiply a b).perform ctx = .ok ct := by
  simp only [Call.perform, multiply, throw_bind, check_bind_eq_ok, check_eq_ok]
  exact ⟨_, ha.checkOwned h, hb.checkOwned h, by simp [hlevel], hscale, rfl⟩

/-- An encryption over the small context at scale 8, and its square. -/
theorem reachable_scale_small : ∃ ct ct' : Ciphertext, small.Reachable ct ∧ ct.scale = 8 ∧
    (Call.multiply ct ct).perform small = .ok ct' ∧ (Call.multiply ct ct).Scales small ct' ∧
      small.ReachableGuarded ct' ∧ small.Reachable ct' ∧ ct'.scale.isFinite = true ∧
        0 ≤ ct'.scale ∧ small.WellScaled ct' := by
  obtain ⟨hsigned, hscales, hguarded⟩ := reachable_scale made_small
  obtain ⟨pt, hpt, hlevel, hscale⟩ := @exists_encodes_small 8 (by decide +kernel)
  obtain ⟨-, pk, -, hpk⟩ := exists_draws_small
  have hrun := run_encrypt (hpk.belongsTo made_small).owner_eq (hpt.spec made_small).1 (.ofSeed 0)
  generalize hct : small.encryptWith pt pk ((Noise.draw small).run (.ofSeed 0)).1 = ct at hrun
  have hlevel' : ct.level = 1 := by rw [← hct, ← hlevel]; rfl
  have hscale' : ct.scale = 8 := by rw [← hct, ← hscale]; rfl
  have hfresh : small.ReachableGuarded ct := .encrypt hpt hpk hrun
  have hown := hfresh.reachable.owns made_small
  obtain ⟨ct', hmultiply⟩ := exists_multiply made_small hown hown rfl (by
    rw [hscale', hlevel']
    exact eq_ok_of_toOption (by decide +kernel))
  have hsquare := hscales _ ct' hmultiply
  have hpositive : 0 < ct'.scale := by
    rw [hsquare.1, hscale']
    decide +kernel
  have hrunGuarded : small.ReachableGuarded ct' :=
    @ReachableGuarded.perform small (.multiply ct ct) ct' trivial
      (fun x hx => by
        obtain rfl : x = ct := by simpa [Call.operands] using hx
        exact hfresh) hmultiply hpositive
  obtain ⟨hreachable, hrule⟩ := hguarded ct' hrunGuarded
  obtain ⟨hfinite, hnonneg⟩ := hsigned ct' hreachable
  exact ⟨ct, ct', hfresh.reachable, hscale', hmultiply, hsquare, hrunGuarded, hreachable, hfinite,
    hnonneg, hrule⟩

/-- A ciphertext over the small context that follows the rule, and a call of it whose result does
not. -/
theorem exists_leaves_small {scale : Float} (call : Ciphertext → Call)
    (haccepted : (small.embedding.encodeScalar 0 scale (small.moduliAt 1)).toOption.isSome = true)
    (hadmissible : ∀ ct, (call ct).Admissible small)
    (hoperands : ∀ ct, ∀ x ∈ (call ct).operands, x = ct)
    (hleaves : ∀ ct, small.Owns ct → ct.level = 1 → ct.scale = scale → ∃ ct',
      (call ct).perform small = .ok ct' ∧
        (checkScale ct'.scale (small.moduliAt ct'.level)).toOption = none) :
    ∃ ct ct' : Ciphertext, small.Reachable ct ∧ small.WellScaled ct ∧
      (call ct).perform small = .ok ct' ∧ small.Reachable ct' ∧ ¬small.WellScaled ct' := by
  obtain ⟨p, hp⟩ := Option.isSome_iff_exists.mp haccepted
  have hencode := eq_ok_of_toOption hp
  simp only [Embedding.encodeScalar, bind_eq_ok] at hencode
  obtain ⟨⟨⟩, hcheck, -⟩ := hencode
  obtain ⟨ct, hct, hlevel, hscale⟩ := exists_reachable_small haccepted
  obtain ⟨ct', hperform, hleaves⟩ := hleaves ct (hct.owns made_small) hlevel hscale
  refine ⟨ct, ct', hct, ?_, hperform, .perform (hadmissible ct) (fun x hx => ?_) hperform, ?_⟩
  · rwa [wellScaled_iff, hlevel, hscale]
  · rw [hoperands ct x hx]
    exact hct
  · rw [wellScaled_iff]
    intro hcheck'
    rw [hcheck'] at hleaves
    cases hleaves

/-- **Three ways out of the rule**, from ciphertexts over the small context that follow it:
switching to a lower level, rescaling, and multiplying. -/
theorem exists_reachable_not_wellScaled :
    (∃ ct ct' : Ciphertext, small.Reachable ct ∧ small.WellScaled ct ∧
      (Call.switchTo ct 0).perform small = .ok ct' ∧ small.Reachable ct' ∧ ¬small.WellScaled ct') ∧
    (∃ ct ct' : Ciphertext, small.Reachable ct ∧ small.WellScaled ct ∧
      (Call.rescale ct).perform small = .ok ct' ∧ small.Reachable ct' ∧ ¬small.WellScaled ct') ∧
    ∃ ct ct' : Ciphertext, small.Reachable ct ∧ small.WellScaled ct ∧
      (Call.multiply ct ct).perform small = .ok ct' ∧ small.Reachable ct' ∧
        ¬small.WellScaled ct' := by
  refine ⟨@exists_leaves_small 1000 (fun ct => .switchTo ct 0) (by decide +kernel)
      (fun _ => trivial) (by simp [Call.operands]) fun ct hct hlevel hscale => ?_,
    @exists_leaves_small 1000 .rescale (by decide +kernel) (fun _ => trivial)
      (by simp [Call.operands]) fun ct hct hlevel hscale => ?_,
    @exists_leaves_small 1e-200 (fun ct => .multiply ct ct) (by decide +kernel)
      (fun _ => trivial) (by simp [Call.operands]) fun ct hct hlevel hscale => ?_⟩
  · -- 1000 takes 10 bits, which level 1 has room for and level 0 has not
    refine ⟨{ ct with parts := ct.parts.map fun p => p.truncate 1, level := 0 }, ?_, ?_⟩
    · simp only [Call.perform, switchTo, throw_bind, check_bind_eq_ok, check_eq_ok]
      exact ⟨hct.checkOwned made_small, Nat.not_lt_zero _, rfl⟩
    · dsimp only
      rw [hscale]
      decide +kernel
  · -- the prime 41 has 6 bits, and the quotient still takes 5
    obtain ⟨last, lastPsi, hlast, hl⟩ := made_small.exists_limb (i := 1) (q := ⟨41⟩) rfl
    refine ⟨_, rescale_eq made_small hct hlevel hl, ?_⟩
    dsimp only
    rw [hscale, hlast]
    decide +kernel
  · -- the product of the scales is rounded to 0
    obtain ⟨ct', hmultiply⟩ := exists_multiply made_small hct hct rfl (by
      rw [hscale, hlevel]
      exact eq_ok_of_toOption (by decide +kernel))
    obtain ⟨hscale', hlevel', -⟩ := Call.scales made_small hmultiply
    refine ⟨ct', hmultiply, ?_⟩
    rw [hscale', hlevel', hscale, hlevel]
    decide +kernel

end Context

end EncryptedReals

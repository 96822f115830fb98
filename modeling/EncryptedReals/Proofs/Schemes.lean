import EncryptedReals.Proofs.Encoding
import EncryptedReals.Proofs.Encryption
import EncryptedReals.Scheme

/-!
# What a scheme is made of

A scheme that was built has a context as the constructors make it, keys of that context, and a
finite scale.  Every value it encrypts gives a well-formed ciphertext at the top level and at that
scale, whatever the generator draws.

## Main Definitions

* `Scheme.Built` — a scheme that was built from a profile
* `Scheme.KeysDrawn` — the keys of a scheme, as they come from draws
* `Scheme.Fresh` — the ciphertexts at the top level and at the scheme's scale

## Main results

* `Context.Noise.inRange_draw`, `Context.pairDraw_draw` — what is drawn is in range
* `Scheme.Built.made`, `Scheme.Built.exists_keyDraws` — the context and the keys
* `Scheme.Built.encryptValue_spec`, `Scheme.Built.fresh` — what encryption returns
-/

namespace EncryptedReals

/-- A finite double equals itself. -/
theorem bne_self_of_isFinite {x : Float} (h : x.isFinite = true) : (x != x) = false := by
  have hfinite : x.toModel.unpack.isFinite = true := h
  have hcompare : x.toModel.unpack.compare x.toModel.unpack = some .eq := by
    cases hunpack : x.toModel.unpack with
    | infinity sign => rw [hunpack] at hfinite; cases hfinite
    | notANumber => rw [hunpack] at hfinite; cases hfinite
    | zero sign => rfl
    | finite sign mantissa exponent hpos =>
        cases sign <;> simp [Float.Model.UnpackedFloat.compare]
  have hbeq : (x == x) = true := by
    show (x.toModel.unpack.compare x.toModel.unpack == some .eq) = true
    rw [hcompare]
    rfl
  rw [bne, hbeq]
  rfl

/-! ### Draws -/

namespace Context

variable {ctx : Context}

/-- **Uniform residues that were drawn** are canonical. -/
theorem canonical_drawUniform {moduli : List Modulus} (hw : FitWords moduli) (g : Generator) :
    ((ctx.drawUniform moduli).run g).1.Canonical ctx.degree moduli := by
  obtain ⟨hlength, hget⟩ := @Drawing.getElem?_mapM _ _
    (fun q : Modulus => Sampler.uniform ctx.degree q.value) moduli g
  refine ⟨rfl, hlength, fun i q hq => ?_⟩
  obtain ⟨g', hlimb⟩ := hget i q hq
  obtain ⟨hsize, hmem⟩ :=
    Sampler.uniform_spec ctx.degree (hw q (List.mem_of_getElem? hq)).1 g'
  rw [ResiduePoly.limb_eq_of_getElem? hlimb]
  refine ⟨hsize, fun k hk => ?_⟩
  rw [← hsize] at hk
  rw [Array.getD_eq_getD_getElem?, Array.getElem?_eq_getElem hk, Option.getD_some]
  exact hmem _ (Array.getElem_mem hk)

/-- A context is what its constructors make under its number. -/
theorem allocate_spec {parameters : Parameters} {id id' : ℕ}
    (h : (allocate parameters).run.run id = (.ok ctx, id')) :
    make ctx.id ctx.parameters = .ok ctx ∧ ctx.parameters = parameters := by
  obtain ⟨number, id₁, -, hmake⟩ := run_bind_ok h
  obtain ⟨made, id₂, hmade, hset⟩ := run_bind_ok hmake
  cases hset
  have hmade := (run_liftM_ok hmade).1
  obtain ⟨rfl, rfl, -⟩ := make_spec hmade
  exact ⟨hmade, rfl⟩

theorem ternary_draw (g : Generator) : ctx.Ternary ((Sampler.ternary ctx.degree).run g).1 :=
  ⟨(Sampler.ternary_spec ctx.degree g).1, (Sampler.ternary_spec ctx.degree g).2⟩

/-- **Errors that were drawn** are in range. -/
theorem errors_drawErrors (g : Generator) : ctx.Errors (ctx.drawErrors.run g).1 :=
  ⟨(Sampler.normalErrors_spec ctx.degree Sampler.errorDeviation g).1,
    (Sampler.normalErrors_spec ctx.degree Sampler.errorDeviation g).2⟩

/-- **Noise that was drawn** is in range. -/
theorem Noise.inRange_draw (g : Generator) : ((Noise.draw ctx).run g).1.InRange ctx where
  ternary := ctx.ternary_draw g
  errors_e0 := ctx.errors_drawErrors ((Sampler.ternary ctx.degree).run g).2
  errors_e1 := ctx.errors_drawErrors (ctx.drawErrors.run ((Sampler.ternary ctx.degree).run g).2).2

/-- **The draws of a pair** of a switching key are in range. -/
theorem pairDraw_draw (h : ctx.Made) (g : Generator) :
    ctx.PairDraw ((SwitchKey.drawPair ctx).run g).1 :=
  have herrors := ctx.errors_drawErrors ((ctx.drawUniform ctx.parameters.moduli).run g).2
  ⟨canonical_drawUniform h.cover.fitWords g, herrors.size_eq, herrors.mem⟩

end Context

/-- **A secret that was drawn** is a secret of its context. -/
theorem SecretKey.belongsTo_draw {ctx : Context} (h : ctx.Made) (g : Generator) :
    ((SecretKey.draw ctx).run g).1.BelongsTo ctx :=
  SecretKey.belongsTo_ofDraws h (ctx.ternary_draw g).size_eq

/-- **A public key that was drawn** is a key of its context. -/
theorem PublicKey.belongsTo_draw {ctx : Context} (h : ctx.Made) {sk : SecretKey}
    (hsk : sk.BelongsTo ctx) (g : Generator) : ((PublicKey.draw ctx sk).run g).1.BelongsTo ctx :=
  Context.belongsTo_ofDraws h hsk (Context.canonical_drawUniform h.cover_dataModuli.fitWords g)
    (ctx.errors_drawErrors ((ctx.drawUniform ctx.parameters.dataModuli).run g).2).size_eq

/-! ### Schemes -/

namespace Scheme

variable {s : Scheme}

/-- **A scheme that was built** from a profile, where the chain passed the primality test
rightly. -/
structure Built (s : Scheme) : Prop where
  build : ∃ profile rotations generator id id',
    (build profile rotations generator).run.run id = (.ok s, id')
  prime : ∀ q ∈ s.context.parameters.moduli, q.value.Prime

/-- **The keys of a scheme are drawn for its context**, the rotation keys for a list of steps. -/
structure KeysDrawn (s : Scheme) (rotations : List ℤ) : Prop where
  secretKey : ∃ g, s.secretKey = ((SecretKey.draw s.context).run g).1
  publicKey : ∃ g, s.publicKey = ((PublicKey.draw s.context s.secretKey).run g).1
  relinearizationKey : ∃ g g',
    (RelinearizationKey.draw s.context s.secretKey).run.run g = (.ok s.relinearizationKey, g')
  galoisKeys : ∃ g g',
    (GaloisKeys.draw s.context s.secretKey rotations).run.run g = (.ok s.galoisKeys, g')

theorem draw_spec {profile : Profile} {context : Context} {rotations : List ℤ}
    {generator : Generator}
    (h : ((draw profile context rotations).run.run generator).1 = .ok s) :
    s.profile = profile ∧ s.context = context ∧ s.KeysDrawn rotations := by
  obtain ⟨g', hdraw⟩ : ∃ g', (draw profile context rotations).run.run generator = (.ok s, g') :=
    ⟨_, Prod.ext h rfl⟩
  obtain ⟨secretKey, g₁, hsecret, hdraw⟩ := run_bind_ok hdraw
  obtain ⟨publicKey, g₂, hpublic, hdraw⟩ := run_bind_ok hdraw
  obtain ⟨relinearizationKey, g₃, hrelinearization, hdraw⟩ := run_bind_ok hdraw
  obtain ⟨galoisKeys, g₄, hrotations, hdraw⟩ := run_bind_ok hdraw
  cases hdraw
  exact ⟨rfl, rfl, ⟨generator, run_lift_ok hsecret⟩, ⟨g₁, run_lift_ok hpublic⟩,
    ⟨g₂, g₃, hrelinearization⟩, ⟨g₃, _, hrotations⟩⟩

/-- **What building a scheme returns**: a context of the profile's parameters, a scale that
passed its check, and keys that were drawn. -/
theorem build_spec {profile : Profile} {rotations : List ℤ} {generator : Generator} {id id' : ℕ}
    (h : (build profile rotations generator).run.run id = (.ok s, id')) :
    profile.parameters = .ok s.context.parameters ∧
      Context.make s.context.id s.context.parameters = .ok s.context ∧
      checkScale s.scale (s.context.moduliAt s.context.maxLevel) = .ok () ∧
      s.KeysDrawn rotations := by
  obtain ⟨parameters, id₁, hparameters, hrest⟩ := run_bind_ok h
  obtain ⟨context, id₂, hallocate, hrest⟩ := run_bind_ok hrest
  obtain ⟨⟨⟩, id₃, hscale, hdraw⟩ := run_bind_ok hrest
  obtain ⟨hprofile, rfl, hkeys⟩ := draw_spec (run_liftM_ok hdraw).1
  obtain ⟨hid, rfl⟩ := Context.allocate_spec hallocate
  refine ⟨(run_liftM_ok hparameters).1, hid, ?_, hkeys⟩
  rw [scale, hprofile]
  exact (run_liftM_ok hscale).1

/-- **A scheme can be built** from a profile whose parameters and scale are good, when the chain has
a special prime and the rotation keys can be drawn. -/
theorem exists_build {profile : Profile} {parameters : Parameters} {context : Context}
    {special : Modulus} {rotations : List ℤ} (hparameters : profile.parameters = .ok parameters)
    (hmake : Context.make context.id parameters = .ok context)
    (hscale : checkScale profile.scale (context.moduliAt context.maxLevel) = .ok ())
    (hspecial : context.parameters.special? = some special)
    (hrotations : ∀ sk g, ∃ ks g',
      (GaloisKeys.draw context sk rotations).run.run g = (.ok ks, g')) (generator : Generator) :
    ∃ s : Scheme, (build profile rotations generator).run.run context.id =
      (.ok s, context.id + 1) ∧ s.context = context ∧ s.scale = profile.scale := by
  obtain ⟨s, hdraw, hcontext, hprofile⟩ : ∃ s : Scheme,
      ((draw profile context rotations).run.run generator).1 = .ok s ∧ s.context = context ∧
        s.scale = profile.scale := by
    obtain ⟨secretKey, g₁, hsecret⟩ : ∃ sk g₁, (liftM (SecretKey.draw context) :
        FallibleDrawing SecretKey).run.run generator = (.ok sk, g₁) := ⟨_, _, rfl⟩
    obtain ⟨publicKey, g₂, hpublic⟩ : ∃ pk g₂, (liftM (PublicKey.draw context secretKey) :
        FallibleDrawing PublicKey).run.run g₁ = (.ok pk, g₂) := ⟨_, _, rfl⟩
    obtain ⟨relinearizationKey, g₃, hrelinearization⟩ : ∃ rk g₃,
        (RelinearizationKey.draw context secretKey).run.run g₂ = (.ok rk, g₃) := by
      unfold RelinearizationKey.draw SwitchKey.draw
      rw [hspecial]
      exact ⟨_, _, rfl⟩
    obtain ⟨galoisKeys, g₄, hgalois⟩ := hrotations secretKey g₃
    refine ⟨⟨profile, context, secretKey, publicKey, relinearizationKey, galoisKeys, rotations⟩, ?_,
      rfl, rfl⟩
    unfold draw
    rw [run_bind_eq hsecret, run_bind_eq hpublic, run_bind_eq hrelinearization,
      run_bind_eq hgalois]
    rfl
  have hallocate : (Context.allocate parameters).run.run context.id =
      (.ok context, context.id + 1) := by
    show ((do
      let made ← liftM (Context.make context.id parameters)
      set (context.id + 1)
      pure made : Allocating Context).run.run context.id) = _
    rw [hmake]
    rfl
  refine ⟨s, ?_, hcontext, hprofile⟩
  unfold build
  rw [hparameters]
  show ((do
    let context ← Context.allocate parameters
    liftM (checkScale profile.scale (context.moduliAt context.maxLevel))
    liftM ((draw profile context rotations).run.run generator).1 : Allocating Scheme).run.run
      context.id) = _
  rw [run_bind_eq hallocate, hscale, hdraw]
  rfl

namespace Built

/-- **The context of a scheme** is as the constructors make it. -/
theorem made (h : s.Built) : s.context.Made := by
  obtain ⟨profile, rotations, generator, id, id', hbuild⟩ := h.build
  obtain ⟨hparameters, htables, -, -⟩ := build_spec hbuild
  refine ⟨?_, htables, h.prime⟩
  simp only [Profile.parameters, throw_bind, check_eq_ok, bind_eq_ok] at hparameters
  obtain ⟨-, widths, -, hmake⟩ := hparameters
  exact ⟨_, _, _, hmake⟩

/-- **The secret key of a scheme** is a key of its context. -/
theorem secretKey (h : s.Built) : s.secretKey.BelongsTo s.context := by
  obtain ⟨profile, rotations, generator, id, id', hbuild⟩ := h.build
  obtain ⟨-, -, -, hkeys⟩ := build_spec hbuild
  obtain ⟨g, hsecret⟩ := hkeys.secretKey
  rw [hsecret]
  exact SecretKey.belongsTo_draw h.made g

/-- **The public key of a scheme** is a key of its context. -/
theorem publicKey (h : s.Built) : s.publicKey.BelongsTo s.context := by
  obtain ⟨profile, rotations, generator, id, id', hbuild⟩ := h.build
  obtain ⟨-, -, -, hkeys⟩ := build_spec hbuild
  obtain ⟨g, hpublic⟩ := hkeys.publicKey
  rw [hpublic]
  exact PublicKey.belongsTo_draw h.made h.secretKey g

/-- **The keys of a scheme** are made from draws in range. -/
theorem exists_keyDraws (h : s.Built) : ∃ coefficients a e, s.context.Ternary coefficients ∧
    a.Canonical s.context.degree s.context.parameters.dataModuli ∧ s.context.Errors e ∧
      s.secretKey = .ofDraws s.context coefficients ∧
      s.publicKey = .ofDraws s.context s.secretKey a e := by
  obtain ⟨profile, rotations, generator, id, id', hbuild⟩ := h.build
  obtain ⟨-, -, -, hkeys⟩ := build_spec hbuild
  obtain ⟨g, hsecret⟩ := hkeys.secretKey
  obtain ⟨g', hpublic⟩ := hkeys.publicKey
  exact ⟨_, _, _, s.context.ternary_draw g,
    Context.canonical_drawUniform h.made.cover_dataModuli.fitWords g',
    s.context.errors_drawErrors ((s.context.drawUniform s.context.parameters.dataModuli).run g').2,
    hsecret, hpublic⟩

/-- **The scale of a scheme** has passed its check at the top level. -/
theorem checkScale (h : s.Built) :
    EncryptedReals.checkScale s.scale (s.context.moduliAt s.maxLevel) = .ok () := by
  obtain ⟨profile, rotations, generator, id, id', hbuild⟩ := h.build
  obtain ⟨-, -, hscale, -⟩ := build_spec hbuild
  exact hscale

theorem isFinite_scale (h : s.Built) : s.scale.isFinite = true :=
  (checkScale_eq_ok.mp h.checkScale).1

end Built

/-- A scheme over the small context, at scale 1. -/
theorem exists_built_small :
    ∃ s : Scheme, s.Built ∧ s.context = Context.small ∧ s.scale = 1 := by
  obtain ⟨s, hbuild, hcontext, hscale⟩ := @exists_build ⟨4, [5, 6, 7], 1, .unchecked⟩
    Context.small.parameters Context.small _ [] rfl rfl rfl rfl (fun _ _ => ⟨_, _, rfl⟩) (.ofSeed 0)
  exact ⟨s, ⟨⟨_, _, _, _, _, hbuild⟩, hcontext ▸ Context.made_small.prime⟩, hcontext, hscale⟩

/-! ### Encryption -/

/-- **A ciphertext at the top level and at the scheme's scale.** -/
structure Fresh (s : Scheme) (ct : Ciphertext) : Prop where
  owns : s.context.Owns ct
  level_eq : ct.level = s.maxLevel
  scale_eq : ct.scale = s.scale

/-- **What encryption returns**: the ciphertext of the encoded value, under noise in range. -/
theorem Built.encryptValue_spec (h : s.Built) {value : Float} {g : Generator} {ct : Ciphertext}
    (hct : ((s.encryptValue value s.scale).run.run g).1 = .ok ct) :
    ∃ pt noise, s.context.encodeScalar value s.scale s.maxLevel = .ok pt ∧
      noise.InRange s.context ∧ ct = s.context.encryptWith pt s.publicKey noise := by
  obtain ⟨g', hencrypt⟩ : ∃ g', (s.encryptValue value s.scale).run.run g = (.ok ct, g') :=
    ⟨_, Prod.ext hct rfl⟩
  obtain ⟨pt, g₁, hencode, hencrypt⟩ := run_bind_ok hencrypt
  have hencode := (run_liftM_ok hencode).1
  have hlevel := (Context.Encodes.spec h.made (.inl ⟨_, _, _, hencode⟩)).1
  rw [Context.run_encrypt h.publicKey.owner_eq hlevel] at hencrypt
  cases hencrypt
  exact ⟨pt, _, hencode, Context.Noise.inRange_draw g₁, rfl⟩

/-- **What encryption returns** is fresh, whatever is drawn. -/
theorem Built.fresh (h : s.Built) {value : Float} {g : Generator} {ct : Ciphertext}
    (hct : ((s.encryptValue value s.scale).run.run g).1 = .ok ct) : s.Fresh ct := by
  obtain ⟨pt, noise, hencode, hnoise, rfl⟩ := h.encryptValue_spec hct
  obtain ⟨hlevel, hcanonical⟩ := Context.Encodes.spec h.made (.inl ⟨_, _, _, hencode⟩)
  obtain ⟨integers, -, -, hpt⟩ := Context.encodeScalar_spec h.made hencode
  exact ⟨Context.owns_encryptWith h.made h.publicKey hlevel hcanonical hnoise.fits,
    congrArg Plaintext.level hpt, congrArg Plaintext.scale hpt⟩

/-- **Zero can be encoded** at the scheme's scale. -/
theorem Built.exists_encodeScalar_zero (h : s.Built) :
    ∃ pt, s.context.encodeScalar 0.0 s.scale s.maxLevel = .ok pt := by
  obtain ⟨p, hp⟩ : ∃ p, s.context.embedding.encodeScalar 0.0 s.scale
      (s.context.moduliAt s.maxLevel) = .ok p := by
    rw [Embedding.encodeScalar, bind_of_ok h.checkScale]
    cases hlift : liftCoefficients ((Array.replicate s.context.embedding.degree 0).setIfInBounds 0
        (0.0 * s.scale)) (s.context.moduliAt s.maxLevel) with
    | ok p => exact ⟨p, rfl⟩
    | error e =>
        -- every coefficient is zero, and zero has room
        obtain ⟨-, c, hc, hroom⟩ := liftCoefficients_eq_error hlift
        refine absurd ?_ (hroom 0)
        rcases Array.mem_or_eq_of_mem_setIfInBounds hc with hc | rfl
        · rw [Array.eq_of_mem_replicate hc]
          exact hasRoom_zero
        · exact hasRoom_zero_mul h.isFinite_scale
  have hlevel : s.context.checkLevel s.maxLevel = .ok () := Context.checkLevel_ok.mpr le_rfl
  rw [Context.encodeScalar, bind_of_ok hlevel, bind_of_ok hp]
  exact ⟨_, rfl⟩

/-- A value that the small context can encode at scale 1 can be encoded by a scheme over it. -/
theorem exists_encodeScalar_small {s : Scheme} {x : Float} (hcontext : s.context = .small)
    (hscale : s.scale = 1)
    (hx : (Context.small.embedding.encodeScalar x 1 (Context.small.moduliAt 1)).isOk = true) :
    ∃ pt, s.context.encodeScalar x s.scale s.maxLevel = .ok pt := by
  obtain ⟨p, hp⟩ := exists_ok_of_isOk hx
  rw [hscale, maxLevel, hcontext]
  refine ⟨Context.small.plaintext p 1 1, ?_⟩
  simp only [Context.encodeScalar, bind_eq_ok, pure_eq_ok]
  exact ⟨(), rfl, p, hp, rfl⟩

/-- **A value that can be encoded can be encrypted**, with any generator. -/
theorem Built.exists_encryptValue (h : s.Built) {value : Float} {pt : Plaintext}
    (hencode : s.context.encodeScalar value s.scale s.maxLevel = .ok pt) (g : Generator) :
    ∃ ct, ((s.encryptValue value s.scale).run.run g).1 = .ok ct := by
  have hlevel := (Context.Encodes.spec h.made (.inl ⟨_, _, _, hencode⟩)).1
  have hencrypt := Context.run_encrypt h.publicKey.owner_eq hlevel g
  unfold encryptValue
  rw [hencode]
  exact ⟨_, congrArg Prod.fst hencrypt⟩

end Scheme

end EncryptedReals

import EncryptedReals.Profile
import EncryptedReals.Proofs.PlainOperands

/-!
# Depth

The number of rescales is counted in two ways.  A profile counts before any prime is known: two less than
the widths it stands for, which may be those of the default chain.  A context counts afterwards: one less
than the data moduli, which are the generated primes without the special one.  Both are the number of
times a fresh encryption can be rescaled.

A rescale needs only a transform for its last modulus and the declared shape of its level, and it hands
the shape of the next level on.  So the count rests on the lengths of lists, and not on the primality of
anything.

## Main Definitions

* `Context.rescaleTimes` — a number of rescales in a row

## Main results

* `Profile.depth_eq_maxLevel` — the two counts agree
* `Context.checkOwned_fresh` — fresh encryptions have the shape of their level
* `Context.exists_rescale` — one rescale above level 0
* `Context.exists_rescaleTimes` — the rescales of a ciphertext, by its level
* `Profile.depth_counts_rescales` — a fresh encryption is rescaled exactly as often as the profile says
-/

namespace EncryptedReals

/-! ### Two counts -/

/-- **The top level is two less than the number of primes**, and no less than 0: with a special prime
there is one data modulus less, and without one there is a single modulus. -/
theorem Parameters.maxLevel_eq (params : Parameters) : params.maxLevel = params.moduli.length - 2 := by
  unfold maxLevel dataModuli hasKeySwitching
  split
  · rw [List.length_dropLast]
    omega
  · next hone =>
      rw [decide_eq_true_eq] at hone
      omega

/-- Generated parameters have a prime for each width. -/
theorem Parameters.length_moduli {params : Parameters} {degree : ℕ} {widths : List ℕ}
    {security : Security} (h : make degree widths security = .ok params) :
    params.moduli.length = widths.length := by
  obtain ⟨-, ⟨k, hk, hpower⟩, -, -, hgenerate⟩ := make_spec h
  rw [hpower, ← pow_succ'] at hgenerate
  exact (PrimeChain.generate_spec (by omega) hgenerate).1

/-- The parameters of a profile are made from its widths or from the default ones. -/
theorem Profile.parameters_spec {profile : Profile} {params : Parameters}
    (h : profile.parameters = .ok params) :
    ∃ widths, profile.resolvedWidths = .ok widths ∧
      Parameters.make profile.degree widths profile.security = .ok params := by
  rw [parameters, throw_bind] at h
  obtain ⟨-, hmake⟩ := check_eq_ok.mp h
  exact bind_eq_ok.mp hmake

/-- **The depth of a profile is the top level of its parameters.** -/
theorem Profile.depth_eq_maxLevel {profile : Profile} {params : Parameters}
    (h : profile.parameters = .ok params) : profile.depth = params.maxLevel := by
  obtain ⟨widths, hwidths, hmake⟩ := parameters_spec h
  rw [depth, hwidths, Parameters.maxLevel_eq, Parameters.length_moduli hmake]

/-! ### Contexts and keys by lengths -/

/-- A polynomial that declares a number of coefficients and has a number of limbs. -/
structure ResiduePoly.Declares (degree limbs : ℕ) (p : ResiduePoly) : Prop where
  length_eq : p.limbs.length = limbs
  degree_eq : p.degree = degree

/-- A sum has the shape of its left operand. -/
theorem ResiduePoly.Declares.add {p : ResiduePoly} {degree limbs : ℕ} (hp : p.Declares degree limbs)
    (r : ResiduePoly) (moduli : List Modulus) : (p.add moduli r).Declares degree limbs :=
  ⟨(length_overlay _ _ _).trans hp.length_eq, hp.degree_eq⟩

namespace Context

variable {ctx : Context} {ct : Ciphertext} {pt : Plaintext} {pk : PublicKey} {level : ℕ}

theorem declares_lift {coefficients : Array ℤ} (hsize : coefficients.size = ctx.degree)
    (moduli : List Modulus) : (ctx.lift coefficients moduli).Declares ctx.degree moduli.length :=
  ⟨by rw [lift, forward, ResiduePoly.forward, length_overlay, ResiduePoly.ofInts, List.length_map],
    hsize⟩

/-- **A public key that was drawn** has a limb for each data modulus in both halves. -/
theorem DrawsPublicKey.declares (hpk : ctx.DrawsPublicKey pk) :
    pk.owner = ctx.id ∧ pk.b.Declares ctx.degree ctx.parameters.dataModuli.length ∧
      pk.a.Declares ctx.degree ctx.parameters.dataModuli.length := by
  obtain ⟨sk, g, -, rfl⟩ := hpk
  refine ⟨rfl, ⟨?_, ?_⟩, ⟨?_, rfl⟩⟩
  · exact (length_overlay _ _ _).trans (declares_lift (ctx.errors_drawErrors _).size_eq _).length_eq
  · exact (declares_lift (ctx.errors_drawErrors _).size_eq ctx.parameters.dataModuli).degree_eq
  · exact Drawing.getElem?_mapM.1

/-! ### Fresh encryptions -/

/-- A half of a public key times the mask has the limbs of the level. -/
theorem declares_masked {p : ResiduePoly} {u : Array ℤ} {moduli : List Modulus}
    (hp : p.Declares ctx.degree ctx.parameters.dataModuli.length) (hu : u.size = ctx.degree)
    (hmoduli : moduli.length = level + 1) (hlevel : level < ctx.parameters.dataModuli.length) :
    ((p.truncate (level + 1)).mul moduli (ctx.lift u moduli)).Declares ctx.degree (level + 1) := by
  refine ⟨?_, hp.degree_eq⟩
  rw [ResiduePoly.length_limbs_mul, (declares_lift hu _).length_eq, ResiduePoly.truncate,
    List.length_take, hp.length_eq, hmoduli]
  omega

/-- **A fresh encryption has the shape of its level**, whatever the polynomial of the plaintext is: its
limbs are those of the key, and sums keep the limbs of the left operand. -/
theorem checkOwned_fresh {id : ℕ} {params : Parameters} (hmake : make id params = .ok ctx)
    (hne : params.moduli ≠ []) (hlevel : pt.level ≤ ctx.maxLevel) (hpk : ctx.DrawsPublicKey pk)
    (g : Generator) : ∃ ct, ((ctx.encrypt pt pk).run.run g).1 = .ok ct ∧ ct.level = pt.level ∧
      ctx.checkOwned ct = .ok () := by
  obtain ⟨-, rfl, -⟩ := make_spec hmake
  obtain ⟨howner, hb, ha⟩ := hpk.declares
  have hdata := Parameters.dataModuli_length_pos hne
  have htop : ctx.maxLevel = ctx.parameters.dataModuli.length - 1 := rfl
  have hmoduli := Parameters.length_moduliAt (hlevel.trans_lt (Parameters.maxLevel_lt hne))
  have hu : ((Noise.draw ctx).run g).1.u.size = ctx.degree := (Noise.inRange_draw g).ternary.size_eq
  refine ⟨ctx.encryptWith pt pk ((Noise.draw ctx).run g).1, ?_, rfl,
    checkOwned_iff.mpr ⟨rfl, hlevel, le_rfl, ?_⟩⟩
  · rw [run_encrypt howner hlevel]
  · have hc0 := ((declares_masked hb hu hmoduli (by omega)).add
      (ctx.lift ((Noise.draw ctx).run g).1.e0 (ctx.moduliAt pt.level)) (ctx.moduliAt pt.level)).add
        pt.poly (ctx.moduliAt pt.level)
    have hc1 := (declares_masked ha hu hmoduli (by omega)).add
      (ctx.lift ((Noise.draw ctx).run g).1.e1 (ctx.moduliAt pt.level)) (ctx.moduliAt pt.level)
    rintro p (- | ⟨-, - | ⟨-, ⟨⟩⟩⟩)
    · exact ⟨hc0.length_eq, hc0.degree_eq⟩
    · exact ⟨hc1.length_eq, hc1.degree_eq⟩

/-! ### Rescales -/

/-- **A rescale above level 0** has a limb and a transform to drop, and returns the shape of the level
below. -/
theorem exists_rescale (htables : ctx.maxLevel < ctx.transforms.length)
    (hct : ctx.checkOwned ct = .ok ()) (hlevel : ct.level = level + 1) :
    ∃ r, ctx.rescale ct = .ok r ∧ r.level = level ∧ ctx.checkOwned r = .ok () := by
  obtain ⟨howner, hdeclares⟩ := checkOwned_iff.mp hct
  have hle := hdeclares.level_le
  obtain ⟨last, hlast⟩ : ∃ last, ctx.transforms[ct.level]? = some last :=
    ⟨_, List.getElem?_eq_getElem (hle.trans_lt htables)⟩
  refine ⟨⟨ct.parts.map (ctx.rescalePart (level + 1) last),
    ct.scale / Binary64.nearest last.modulus.value, level, ct.owner⟩, ?_, rfl,
    checkOwned_iff.mpr ⟨howner, ?_, ?_, ?_⟩⟩
  · rw [rescale, bind_of_ok hct, hlast, hlevel]
    rfl
  · show level ≤ ctx.maxLevel
    omega
  · exact hdeclares.two_le_size.trans_eq (List.length_map _).symm
  · refine List.forall_mem_map.mpr fun p hp => ?_
    obtain ⟨hlength, hdegree⟩ := hdeclares.parts p hp
    refine ⟨?_, hdegree⟩
    rw [rescalePart, divideByLast, length_overlay, List.length_take, hlength, hlevel]
    exact Nat.min_eq_left (Nat.le_succ _)

/-- So many rescales in a row, each of the result of the one before. -/
def rescaleTimes (ctx : Context) (ct : Ciphertext) : ℕ → Except Failure Ciphertext
  | 0 => .ok ct
  | count + 1 => do ctx.rescale (← rescaleTimes ctx ct count)

/-- **A ciphertext can be rescaled down to level 0**, by induction on the number of rescales: each finds
the shape that the one before left. -/
theorem exists_rescaleTimes (htables : ctx.maxLevel < ctx.transforms.length)
    (hct : ctx.checkOwned ct = .ok ()) :
    ∀ count ≤ ct.level, ∃ r, ctx.rescaleTimes ct count = .ok r ∧ r.level = ct.level - count ∧
      ctx.checkOwned r = .ok () := by
  intro count
  induction count with
  | zero => exact fun _ => ⟨ct, rfl, rfl, hct⟩
  | succ count ih =>
      intro hcount
      obtain ⟨r, hr, hlevel, hshape⟩ := ih (by omega)
      obtain ⟨lower, hlower⟩ : ∃ lower, r.level = lower + 1 := ⟨ct.level - (count + 1), by omega⟩
      obtain ⟨r', hr', hlevel', hshape'⟩ := exists_rescale htables hshape hlower
      exact ⟨r', by rw [rescaleTimes, bind_of_ok hr, hr'], by omega, hshape'⟩

end Context

/-! ### What a profile promises -/

/-- **The depth of a profile is the number of rescales it gives.**  Where a profile has parameters, its
depth is their top level.  A plaintext of that level can be encrypted in every context of the parameters,
under every public key drawn there; the fresh ciphertext can be rescaled as often as the depth says, each
rescale takes it one level down, and one rescale more fails because the chain is exhausted at level 0. -/
theorem Profile.depth_counts_rescales (profile : Profile) {params : Parameters}
    (hparams : profile.parameters = .ok params) :
    profile.depth = params.maxLevel ∧
    ∀ id ctx, Context.make id params = .ok ctx →
      ∀ pt pk g, pt.level = ctx.maxLevel → ctx.DrawsPublicKey pk →
        ∃ ct, ((ctx.encrypt pt pk).run.run g).1 = .ok ct ∧
          (∀ count ≤ profile.depth, ∃ r, ctx.rescaleTimes ct count = .ok r ∧
            r.level = profile.depth - count) ∧
          ctx.rescaleTimes ct (profile.depth + 1) = .error (.chainExhausted 0) := by
  have hdepth := depth_eq_maxLevel hparams
  refine ⟨hdepth, fun id ctx hmake pt pk g hlevel hpk => ?_⟩
  obtain ⟨widths, -, hwidths⟩ := parameters_spec hparams
  have hne : params.moduli ≠ [] := by
    obtain ⟨-, -, hwidths', -⟩ := Parameters.make_spec hwidths
    rw [← List.length_pos_iff, Parameters.length_moduli hwidths]
    exact List.length_pos_iff.mpr hwidths'
  obtain ⟨-, rfl, htransforms, -⟩ := Context.make_spec hmake
  have htables : ctx.maxLevel < ctx.transforms.length :=
    (Parameters.maxLevel_lt hne).trans_eq (getElem?_of_mapM_ok htransforms).1.symm
  obtain ⟨ct, hct, hfresh, hshape⟩ := Context.checkOwned_fresh hmake hne hlevel.le hpk g
  have htop : ct.level = profile.depth := hfresh.trans (hlevel.trans hdepth.symm)
  have hrescales := Context.exists_rescaleTimes htables hshape
  rw [htop] at hrescales
  refine ⟨ct, hct, fun count hcount => ?_, ?_⟩
  · obtain ⟨r, hr, hrlevel, -⟩ := hrescales count hcount
    exact ⟨r, hr, hrlevel⟩
  · obtain ⟨r, hr, hrlevel, hrshape⟩ := hrescales profile.depth le_rfl
    rw [Context.rescaleTimes, bind_of_ok hr, Context.rescale_bottom hrshape (by omega)]

/-- One rescale for the chain of 17, 41 and 113, and none for 17 alone. -/
theorem Profile.depth_counts_rescales_small :
    (∃ (ct r : Ciphertext), (⟨4, [5, 6, 7], 1, .unchecked⟩ : Profile).depth = 1 ∧
      Context.small.rescaleTimes ct 1 = .ok r ∧ r.level = 0 ∧
      Context.small.rescaleTimes ct 2 = .error (.chainExhausted 0)) ∧
    ∃ (ctx : Context) (ct : Ciphertext), (⟨4, [5], 1, .unchecked⟩ : Profile).depth = 0 ∧
      Context.make 0 ⟨4, [⟨17⟩], .unchecked⟩ = .ok ctx ∧
      ctx.rescaleTimes ct 1 = .error (.chainExhausted 0) := by
  constructor
  · obtain ⟨-, pk, -, hpk⟩ := Context.exists_draws_small
    obtain ⟨-, hrescales⟩ := @depth_counts_rescales ⟨4, [5, 6, 7], 1, .unchecked⟩ _ rfl
    obtain ⟨ct, -, hdown, hlast⟩ := hrescales 0 Context.small rfl ⟨⟨[], 4⟩, 1, 1⟩ pk (.ofSeed 0) rfl hpk
    obtain ⟨r, hr, hlevel⟩ := hdown 1 le_rfl
    exact ⟨ct, r, rfl, hr, hlevel, hlast⟩
  · obtain ⟨ctx, hmake⟩ : ∃ ctx, Context.make 0 ⟨4, [⟨17⟩], .unchecked⟩ = .ok ctx := ⟨_, rfl⟩
    have hpk : ctx.DrawsPublicKey _ := ⟨_, .ofSeed 0, ⟨.ofSeed 0, rfl⟩, rfl⟩
    obtain ⟨-, hrescales⟩ := @depth_counts_rescales ⟨4, [5], 1, .unchecked⟩ _ rfl
    obtain ⟨ct, -, -, hlast⟩ :=
      hrescales 0 ctx hmake ⟨⟨[], 4⟩, 1, ctx.maxLevel⟩ _ (.ofSeed 0) rfl hpk
    exact ⟨ctx, ct, rfl, hmake, hlast⟩

end EncryptedReals

import EncryptedReals.Proofs.Safety
import EncryptedReals.Proofs.Schemes

/-!
# Reachable ciphertexts are well-formed

The ciphertexts of a context start as encryptions of plaintexts that it encoded, under its public keys,
and go on by the operations with its other keys.  All of them are well-formed, whatever is drawn and
whichever operations succeed, and so no operation on them reads past the end of a vector or adds up to
more than a word.

## Main Definitions

* `Call` — the calls of the operations on ciphertexts, with their operands
* `Call.Safe`, `Call.Follows` — a call stays in range; what its result looks like
* `Context.Reachable` — the ciphertexts that runs of the operations give

## Main results

* `Call.step` — one call keeps the shape, and stays in range
* `Context.Reachable.owns` — reachable ciphertexts are well-formed
* `Context.reachable_safe` — the invariant in full, and what follows from it for every run
-/

namespace EncryptedReals

variable {strict : Prop} {ctx : Context}

/-! ### Keys of a context -/

namespace Context

/-- The secrets that a context draws. -/
def DrawsSecret (ctx : Context) (sk : SecretKey) : Prop :=
  ∃ g, sk = ((SecretKey.draw ctx).run g).1

/-- The public keys that a context draws. -/
def DrawsPublicKey (ctx : Context) (pk : PublicKey) : Prop :=
  ∃ sk g, ctx.DrawsSecret sk ∧ pk = ((PublicKey.draw ctx sk).run g).1

/-- The relinearization keys that a context draws. -/
def DrawsRelinearizationKey (ctx : Context) (rk : RelinearizationKey) : Prop :=
  ∃ sk g g', ctx.DrawsSecret sk ∧ (RelinearizationKey.draw ctx sk).run.run g = (.ok rk, g')

/-- The rotation keys that a context draws. -/
def DrawsGaloisKeys (ctx : Context) (ks : GaloisKeys) : Prop :=
  ∃ sk steps g g', ctx.DrawsSecret sk ∧ (GaloisKeys.draw ctx sk steps).run.run g = (.ok ks, g')

theorem DrawsSecret.belongsTo (h : ctx.Made) {sk : SecretKey} (hsk : ctx.DrawsSecret sk) :
    sk.BelongsTo ctx := by
  obtain ⟨g, rfl⟩ := hsk
  exact SecretKey.belongsTo_draw h g

theorem DrawsPublicKey.belongsTo (h : ctx.Made) {pk : PublicKey} (hpk : ctx.DrawsPublicKey pk) :
    pk.BelongsTo ctx := by
  obtain ⟨sk, g, hsk, rfl⟩ := hpk
  exact PublicKey.belongsTo_draw h (hsk.belongsTo h) g

/-- **A relinearization key that was drawn** has a canonical switching key. -/
theorem DrawsRelinearizationKey.belongsTo (h : ctx.Made) {rk : RelinearizationKey}
    (hrk : ctx.DrawsRelinearizationKey rk) : rk.key.BelongsTo ctx := by
  obtain ⟨sk, g, g', hsk, hdraw⟩ := hrk
  have hmade := RelinearizationKey.madeFor_draw (pairDraw_draw h) hdraw
  exact hmade.key.belongsTo h (hsk.belongsTo h) (target_spec h (hsk.belongsTo h)).1

/-- **Rotation keys that were drawn** have canonical switching keys for all rotations. -/
theorem DrawsGaloisKeys.belongsTo (h : ctx.Made) {ks : GaloisKeys} (hks : ctx.DrawsGaloisKeys ks)
    {step : ℤ} {key : SwitchKey}
    (hkey : ks.find? (Automorphism.element step ctx.degree) = some key) : key.BelongsTo ctx := by
  obtain ⟨sk, steps, g, g', hsk, hdraw⟩ := hks
  have hmade := GaloisKeys.madeFor_draw (pairDraw_draw h) hdraw
  have hodd := Automorphism.odd_element h.degree_pos step
  exact (hmade.key _ key hkey).belongsTo h (hsk.belongsTo h)
    (GaloisKeys.target_spec h (hsk.belongsTo h) hodd).1

end Context

/-! ### Calls -/

/-- **The calls of the operations on ciphertexts**, with their operands. -/
inductive Call where
  | add (a b : Ciphertext)
  /-- The sum, written into the left operand. -/
  | addInPlace (a b : Ciphertext)
  | sub (a b : Ciphertext)
  | negate (a : Ciphertext)
  | multiply (a b : Ciphertext)
  | multiplyPlain (a : Ciphertext) (pt : Plaintext)
  | addPlain (a : Ciphertext) (pt : Plaintext)
  | relinearize (a : Ciphertext) (rk : RelinearizationKey)
  | rescale (a : Ciphertext)
  | switchTo (a : Ciphertext) (level : ℕ)
  | rotate (a : Ciphertext) (step : ℤ) (ks : GaloisKeys)

namespace Call

/-- What a call returns. -/
def perform (ctx : Context) : Call → Except Failure Ciphertext
  | add a b => ctx.add a b
  | addInPlace a b => do
    let (outcome, sum) := (ctx.addInPlace b).run.run a
    outcome
    return sum
  | sub a b => ctx.sub a b
  | negate a => ctx.negate a
  | multiply a b => ctx.multiply a b
  | multiplyPlain a pt => ctx.multiplyPlain a pt
  | addPlain a pt => ctx.addPlain a pt
  | relinearize a rk => ctx.relinearize a rk
  | rescale a => ctx.rescale a
  | switchTo a level => ctx.switchTo a level
  | rotate a step ks => ctx.rotate a step ks

/-- The ciphertexts that a call works on. -/
def operands : Call → List Ciphertext
  | add a b | addInPlace a b | sub a b | multiply a b => [a, b]
  | negate a | multiplyPlain a _ | addPlain a _ | relinearize a _ | rescale a | switchTo a _
  | rotate a _ _ => [a]

/-- **The other operands belong to the context**: plaintexts that it encoded, and keys that it drew. -/
def Admissible (ctx : Context) : Call → Prop
  | multiplyPlain _ pt | addPlain _ pt => ctx.Encodes pt
  | relinearize _ rk => ctx.DrawsRelinearizationKey rk
  | rotate _ _ ks => ctx.DrawsGaloisKeys ks
  | _ => True

/-- **A call stays in range** after its checks have passed. -/
def Safe (strict : Prop) (ctx : Context) : Call → Prop
  | add a b | addInPlace a b => ∀ ct, ctx.add a b = .ok ct → ctx.SumSafe strict a b
  | sub a b => ∀ negated, ctx.negate b = .ok negated → ctx.NegateSafe strict b ∧
    ∀ ct, ctx.add a negated = .ok ct → ctx.SumSafe strict a negated
  | negate a => ∀ ct, ctx.negate a = .ok ct → ctx.NegateSafe strict a
  | multiply a b => ∀ ct, ctx.multiply a b = .ok ct → ctx.ProductSafe strict a b
  | multiplyPlain a pt => ∀ ct, ctx.multiplyPlain a pt = .ok ct → ctx.PlainProductSafe a pt
  | addPlain a pt => ∀ ct, ctx.addPlain a pt = .ok ct → ctx.PlainSumSafe strict a pt
  | relinearize a rk => ∀ ct, ctx.relinearize a rk = .ok ct → ctx.RelinearizeSafe strict a rk.key
  | rescale a => ctx.RescaleSafe strict a
  | switchTo _ _ => True
  | rotate a step ks => ∀ ct, ctx.rotate a step ks = .ok ct →
    ∀ key, ks.find? (Automorphism.element step ctx.degree) = some key →
      ctx.RotateSafe strict a (Automorphism.element step ctx.degree) key

/-- **The level and the size of a result.** -/
def Follows (ct : Ciphertext) : Call → Prop
  | add a b | addInPlace a b | sub a b =>
    a.level = b.level ∧ ct.level = a.level ∧ ct.size = max a.size b.size
  | multiply a b => a.level = b.level ∧ ct.level = a.level ∧ ct.size = a.size + b.size - 1
  | negate a | multiplyPlain a _ | addPlain a _ | rotate a _ _ =>
    ct.level = a.level ∧ ct.size = a.size
  | relinearize a _ => ct.level = a.level ∧ ct.size = 2
  | rescale a => ct.level + 1 = a.level ∧ ct.size = a.size
  | switchTo a level => level ≤ a.level ∧ ct.level = level ∧ ct.size = a.size

/-- Writing a sum into the left operand leaves the sum there. -/
theorem perform_addInPlace (a b : Ciphertext) :
    (addInPlace a b).perform ctx = (add a b).perform ctx := by
  rw [perform, perform, Context.run_addInPlace_eq]
  cases ctx.add a b with
  | error e => rfl
  | ok sum => rfl

/-- **A call stays in range and keeps the shape**, when its operands have it. -/
theorem step (h : ctx.Made) (call : Call) (hcall : call.Admissible ctx)
    (hshaped : ∀ x ∈ call.operands, ctx.Shaped strict x) :
    call.Safe strict ctx ∧
      ∀ ct, call.perform ctx = .ok ct → ctx.Shaped strict ct ∧ call.Follows ct := by
  cases call with
  | add a b =>
      have hboth := hshaped
      simp only [operands, List.forall_mem_cons] at hboth
      obtain ⟨ha, hb, -⟩ := hboth
      exact ⟨fun ct hct => (ha.add h hb hct).1, fun ct hct => (ha.add h hb hct).2⟩
  | addInPlace a b =>
      simp only [operands, List.forall_mem_cons] at hshaped
      obtain ⟨ha, hb, -⟩ := hshaped
      refine ⟨fun ct hct => (ha.add h hb hct).1, fun ct hct => ?_⟩
      rw [perform_addInPlace] at hct
      exact (ha.add h hb hct).2
  | sub a b =>
      simp only [operands, List.forall_mem_cons] at hshaped
      obtain ⟨ha, hb, -⟩ := hshaped
      refine ⟨fun negated hnegate => ?_, fun ct hct => ?_⟩
      · obtain ⟨hsafe, hnegated, -⟩ := hb.negate h hnegate
        exact ⟨hsafe, fun ct hct => (ha.add h hnegated hct).1⟩
      · simp only [perform, Context.sub, bind_eq_ok] at hct
        obtain ⟨negated, hnegate, hadd⟩ := hct
        obtain ⟨-, hnegated, hlevel, hsize⟩ := hb.negate h hnegate
        obtain ⟨-, hresult, hfollows⟩ := ha.add h hnegated hadd
        rw [hlevel, hsize] at hfollows
        exact ⟨hresult, hfollows⟩
  | negate a =>
      have ha := hshaped a (List.mem_singleton.mpr rfl)
      exact ⟨fun ct hct => (ha.negate h hct).1, fun ct hct => (ha.negate h hct).2⟩
  | multiply a b =>
      simp only [operands, List.forall_mem_cons] at hshaped
      obtain ⟨ha, hb, -⟩ := hshaped
      exact ⟨fun ct hct => (ha.multiply h hb hct).1, fun ct hct => (ha.multiply h hb hct).2⟩
  | multiplyPlain a pt =>
      have ha := hshaped a (List.mem_singleton.mpr rfl)
      have hpt := (hcall.spec h).2
      exact ⟨fun ct hct => (ha.multiplyPlain h hpt hct).1,
        fun ct hct => (ha.multiplyPlain h hpt hct).2⟩
  | addPlain a pt =>
      have ha := hshaped a (List.mem_singleton.mpr rfl)
      have hpt := (hcall.spec h).2
      exact ⟨fun ct hct => (ha.addPlain h hpt hct).1, fun ct hct => (ha.addPlain h hpt hct).2⟩
  | relinearize a rk =>
      have ha := hshaped a (List.mem_singleton.mpr rfl)
      have hkey := hcall.belongsTo h
      exact ⟨fun ct hct => (ha.relinearize h hkey hct).1,
        fun ct hct => (ha.relinearize h hkey hct).2⟩
  | rescale a => exact (hshaped a (List.mem_singleton.mpr rfl)).rescale h
  | switchTo a level =>
      have ha := hshaped a (List.mem_singleton.mpr rfl)
      exact ⟨trivial, fun ct hct => ha.switchTo hct⟩
  | rotate a step ks =>
      have ha := hshaped a (List.mem_singleton.mpr rfl)
      have hkeys := fun key => @Context.DrawsGaloisKeys.belongsTo ctx h ks hcall step key
      exact ⟨fun ct hct => (ha.rotate h hkeys hct).1, fun ct hct => (ha.rotate h hkeys hct).2⟩

end Call

/-! ### Runs -/

namespace Context

/-- **The reachable ciphertexts** of a context: encryptions of plaintexts that it encoded, under its
public keys and any generator, and what calls on reachable ciphertexts return. -/
inductive Reachable (ctx : Context) : Ciphertext → Prop
  | encrypt {pt : Plaintext} {pk : PublicKey} {ct : Ciphertext} {g g' : Generator}
      (hpt : ctx.Encodes pt) (hpk : ctx.DrawsPublicKey pk)
      (hct : (ctx.encrypt pt pk).run.run g = (.ok ct, g')) : Reachable ctx ct
  | perform {call : Call} {ct : Ciphertext} (hcall : call.Admissible ctx)
      (hoperands : ∀ x ∈ call.operands, Reachable ctx x) (hct : call.perform ctx = .ok ct) :
      Reachable ctx ct

/-- **An encryption** is that of the noise drawn. -/
theorem eq_encryptWith (h : ctx.Made) {pt : Plaintext} {pk : PublicKey} {ct : Ciphertext}
    {g g' : Generator} (hpt : ctx.Encodes pt) (hpk : ctx.DrawsPublicKey pk)
    (hct : (ctx.encrypt pt pk).run.run g = (.ok ct, g')) :
    ct = ctx.encryptWith pt pk ((Noise.draw ctx).run g).1 := by
  rw [run_encrypt (hpk.belongsTo h).owner_eq (hpt.spec h).1] at hct
  cases hct
  rfl

/-- **Reachable ciphertexts are well-formed**, by induction on the run. -/
theorem Reachable.owns (h : ctx.Made) {ct : Ciphertext} (hct : ctx.Reachable ct) : ctx.Owns ct := by
  induction hct with
  | encrypt hpt hpk hct =>
      obtain ⟨hlevel, hcanonical⟩ := hpt.spec h
      rw [eq_encryptWith h hpt hpk hct]
      exact owns_encryptWith h (hpk.belongsTo h) hlevel hcanonical (Noise.inRange_draw _).fits
  | perform hcall hoperands hct ih =>
      have hshaped := fun x hx => shaped_iff_owns.mpr (ih x hx)
      exact shaped_iff_owns.mp (((Call.step h _ hcall hshaped).2 _ hct).1)

/-- **Reachable ciphertexts keep their shape, and no run leaves its ranges.**  Every reachable
ciphertext carries the context's number, a level of the chain and two parts or more; each part has one
limb for each modulus of the level, of as many residues as the ring has coefficients, all of them below
the modulus.  Every operation on reachable ciphertexts stays in range, its sums and differences fit in
words, and its result has the level and the size that belong to it.  Encoding, encryption and decryption
stay in range too. -/
theorem reachable_safe (h : ctx.Made) :
    (∀ ct, ctx.Reachable ct →
      ct.owner = ctx.id ∧ ct.level ≤ ctx.maxLevel ∧ 2 ≤ ct.size ∧
        ∀ p ∈ ct.parts, p.degree = ctx.degree ∧ p.limbs.length = ct.level + 1 ∧
          ∀ (i : ℕ) (a : Array ℕ), p.limbs[i]? = some a → a.size = ctx.degree ∧
            ∃ q, ctx.parameters.moduli[i]? = some q ∧ ∀ x ∈ a, x < q.value) ∧
    (∀ call : Call, call.Admissible ctx → (∀ x ∈ call.operands, ctx.Reachable x) →
      call.Safe True ctx ∧ ∀ ct, call.perform ctx = .ok ct → call.Follows ct) ∧
    (∀ pt, ctx.Encodes pt → ctx.EncodeSafe True pt) ∧
    (∀ pt pk g, ctx.Encodes pt → ctx.DrawsPublicKey pk →
      ctx.EncryptSafe True pt pk ((Noise.draw ctx).run g).1) ∧
    ∀ ct sk, ctx.Reachable ct → ctx.DrawsSecret sk → ctx.DecryptSafe True ct sk := by
  refine ⟨fun ct hct => ?_, fun call hcall hoperands => ?_, fun pt hpt => encodeSafe h hpt,
    fun pt pk g hpt hpk => ?_, fun ct sk hct hsk => ?_⟩
  · have hown := hct.owns h
    refine ⟨hown.owner_eq, hown.level_le, hown.two_le_size, fun p hp => ?_⟩
    have hcanonical := hown.canonical p hp
    refine ⟨hcanonical.degree_eq, hcanonical.length_eq.trans (h.length_moduliAt hown.level_le),
      fun i a ha => ?_⟩
    have hlt := (List.getElem?_eq_some_iff.mp ha).1
    rw [hcanonical.length_eq] at hlt
    have hq := List.getElem?_eq_getElem hlt
    have hvector := hcanonical.isVector i _ hq
    rw [ResiduePoly.limb_eq_of_getElem? ha] at hvector
    refine ⟨hvector.size_eq, _, (Parameters.getElem?_moduliAt.mp hq).2, fun x hx => ?_⟩
    obtain ⟨k, hk, rfl⟩ := Array.mem_iff_getElem.mp hx
    have hresidue := hvector.lt k (hvector.size_eq ▸ hk)
    rwa [Array.getD_eq_getD_getElem?, Array.getElem?_eq_getElem hk, Option.getD_some] at hresidue
  · have hshaped := fun x hx => shaped_iff_owns.mpr ((hoperands x hx).owns h)
    obtain ⟨hsafe, hresult⟩ := call.step h hcall hshaped
    exact ⟨hsafe, fun ct hct => (hresult ct hct).2⟩
  · obtain ⟨hlevel, hcanonical⟩ := hpt.spec h
    exact encryptSafe h (hpk.belongsTo h) hlevel hcanonical (Noise.inRange_draw g).fits
  · exact (shaped_iff_owns.mpr (hct.owns h)).decryptSafe h (hsk.belongsTo h)

/-- The value 0 at level 1 of the small context, at a scale that was accepted. -/
theorem exists_encodes_small {scale : Float}
    (h : (small.embedding.encodeScalar 0 scale (small.moduliAt 1)).toOption.isSome = true) :
    ∃ pt, small.Encodes pt ∧ pt.level = 1 ∧ pt.scale = scale := by
  obtain ⟨p, hp⟩ := Option.isSome_iff_exists.mp h
  refine ⟨small.plaintext p scale 1, .inl ⟨0, scale, 1, ?_⟩, rfl, rfl⟩
  simp only [encodeScalar, bind_eq_ok, pure_eq_ok]
  exact ⟨(), rfl, p, eq_ok_of_toOption hp, rfl⟩

/-- The small context draws a secret and a public key of it. -/
theorem exists_draws_small : ∃ sk pk, small.DrawsSecret sk ∧ small.DrawsPublicKey pk :=
  ⟨_, _, ⟨.ofSeed 0, rfl⟩, ⟨_, .ofSeed 0, ⟨.ofSeed 0, rfl⟩, rfl⟩⟩

/-- An encryption of the value 0 at level 1 of the small context, at a scale that was accepted. -/
theorem exists_reachable_small {scale : Float}
    (h : (small.embedding.encodeScalar 0 scale (small.moduliAt 1)).toOption.isSome = true) :
    ∃ ct, small.Reachable ct ∧ ct.level = 1 ∧ ct.scale = scale := by
  obtain ⟨pt, hpt, hlevel, hscale⟩ := exists_encodes_small h
  obtain ⟨-, pk, -, hpk⟩ := exists_draws_small
  have hct := run_encrypt (hpk.belongsTo made_small).owner_eq (hpt.spec made_small).1 (.ofSeed 0)
  exact ⟨_, .encrypt hpt hpk hct, hlevel, hscale⟩

/-- An encryption over the small context, and what is left of it after rescaling. -/
theorem reachable_safe_small : ∃ (ct ct' : Ciphertext) (pt : Plaintext) (pk : PublicKey)
    (sk : SecretKey), small.Reachable ct ∧ (Call.rescale ct).perform small = .ok ct' ∧
      small.Reachable ct' ∧ (ct'.owner = 0 ∧ ct'.level ≤ 1 ∧ 2 ≤ ct'.size ∧
        ∀ p ∈ ct'.parts, p.degree = 4 ∧ p.limbs.length = ct'.level + 1 ∧
          ∀ (i : ℕ) (a : Array ℕ), p.limbs[i]? = some a → a.size = 4 ∧
            ∃ q : Modulus, [⟨17⟩, ⟨41⟩, ⟨113⟩][i]? = some q ∧ ∀ x ∈ a, x < q.value) ∧
      (Call.rescale ct).Safe True small ∧ ct'.level + 1 = ct.level ∧ ct'.size = ct.size ∧
      small.EncodeSafe True pt ∧ small.EncryptSafe True pt pk ((Noise.draw small).run (.ofSeed 0)).1 ∧
      small.DecryptSafe True ct' sk := by
  obtain ⟨hshape, hcalls, hencode, hencrypt, hdecrypt⟩ := reachable_safe made_small
  obtain ⟨pt, hpt, -⟩ := @exists_encodes_small 1 (by decide +kernel)
  obtain ⟨sk, pk, hsk, hpk⟩ := exists_draws_small
  obtain ⟨ct, hct, hlevel, -⟩ := @exists_reachable_small 1 (by decide +kernel)
  obtain ⟨last, lastPsi, -, hlast⟩ := made_small.exists_limb (i := 1) (q := ⟨41⟩) rfl
  have hrescale : (Call.rescale ct).perform small = .ok _ :=
    rescale_eq made_small (hct.owns made_small) hlevel hlast
  have hoperands : ∀ x ∈ (Call.rescale ct).operands, small.Reachable x := by
    intro x hx
    rw [List.mem_singleton.mp hx]
    exact hct
  obtain ⟨hsafe, hfollows⟩ := hcalls (.rescale ct) trivial hoperands
  obtain ⟨hdown, hsize⟩ := hfollows _ hrescale
  have hct' := @Reachable.perform small (.rescale ct) _ trivial hoperands hrescale
  exact ⟨ct, _, pt, pk, sk, hct, hrescale, hct', hshape _ hct', hsafe, hdown, hsize,
    hencode pt hpt, hencrypt pt pk _ hpt hpk, hdecrypt _ sk hct' hsk⟩

end Context

end EncryptedReals

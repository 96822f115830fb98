import EncryptedReals.Proofs.Reachable

/-!
# Accepted ciphertexts

A ciphertext is a record that anyone can fill in, so every operation checks its operands before it
reads a limb.  The check counts: parts, limbs of each part, and the degree that a part declares.  It
never looks at the lengths of the limbs themselves, and a part whose limbs are longer or shorter
than it declares passes.  Ciphertexts that are declared wrongly are refused by the check and by every
operation.  Accepted ones are safe to work on when their limbs have the declared length, and not
otherwise.

## Main Definitions

* `Context.Declares` — level, size, limb counts and declared degrees are in order
* `Context.Filled` — every limb has one entry for each coefficient

## Main results

* `Context.shaped_iff` — what is accepted and filled has the shape that operations need
* `Context.refused` — whatever is declared wrongly is refused
* `Context.accepted_safe` — what acceptance is worth
* `Context.exists_accepted_not_filled` — acceptance alone is not enough
-/

namespace EncryptedReals

open ResiduePoly

namespace Context

variable {ctx : Context} {ct : Ciphertext}

/-! ### Declared and actual shapes -/

/-- **The declared shape is in order**: a level of the chain, two parts or more, and for each part a
limb count that belongs to the level and the degree of the ring. -/
structure Declares (ctx : Context) (ct : Ciphertext) : Prop where
  level_le : ct.level ≤ ctx.maxLevel
  two_le_size : 2 ≤ ct.size
  parts : ∀ p ∈ ct.parts, p.limbs.length = ct.level + 1 ∧ p.degree = ctx.degree

/-- **Every limb has one entry for each coefficient** of the ring. -/
def Filled (ctx : Context) (ct : Ciphertext) : Prop :=
  ∀ p ∈ ct.parts, ∀ a ∈ p.limbs, a.size = ctx.degree

theorem Owns.filled (h : ctx.Owns ct) : ctx.Filled ct :=
  fun p hp => (h.canonical p hp).sized.size_eq

theorem checkShape_iff_declares : ctx.checkShape ct = .ok () ↔ ctx.Declares ct :=
  checkShape_ok.trans
    ⟨fun ⟨hlevel, hsize, hparts⟩ => ⟨hlevel, hsize, hparts⟩,
      fun h => ⟨h.level_le, h.two_le_size, h.parts⟩⟩

theorem checkOwned_iff : ctx.checkOwned ct = .ok () ↔ ct.owner = ctx.id ∧ ctx.Declares ct := by
  rw [checkOwned, throw_bind, check_eq_ok, bne_iff_ne, not_not, checkShape_iff_declares]

/-- **What is accepted and filled** has the shape that operations need, with any residues. -/
theorem shaped_iff (h : ctx.Made) :
    ctx.Shaped False ct ↔ ctx.checkOwned ct = .ok () ∧ ctx.Filled ct := by
  rw [checkOwned_iff]
  constructor
  · intro hct
    refine ⟨⟨hct.owner_eq, hct.level_le, hct.two_le_size, fun p hp => ?_⟩, fun p hp =>
      (hct.parts p hp).sized.size_eq⟩
    have hsized := (hct.parts p hp).sized
    exact ⟨hsized.length_eq.trans (h.length_moduliAt hct.level_le), hsized.degree_eq⟩
  · rintro ⟨⟨howner, hdeclares⟩, hfilled⟩
    refine ⟨howner, hdeclares.level_le, hdeclares.two_le_size, fun p hp => ?_⟩
    obtain ⟨hlength, hdegree⟩ := hdeclares.parts p hp
    have hmoduli := h.length_moduliAt hdeclares.level_le
    exact ⟨⟨hdegree, hlength.trans hmoduli.symm, hfilled p hp⟩, False.elim⟩

end Context

/-! ### Refusals -/

/-- What does not succeed fails. -/
theorem exists_error {ε α : Type} {x : Except ε α} (h : ∀ a, x ≠ .ok a) : ∃ e, x = .error e := by
  cases x with
  | error e => exact ⟨e, rfl⟩
  | ok a => exact absurd rfl (h a)

/-- **A call that succeeds has accepted its operands.** -/
theorem Call.accepted {ctx : Context} {call : Call} {ct : Ciphertext}
    (hct : call.perform ctx = .ok ct) : ∀ x ∈ call.operands, ctx.checkOwned x = .ok () := by
  have hpair : ∀ {a b : Ciphertext}, ctx.checkOwned a = .ok () ∧ ctx.checkOwned b = .ok () →
      ∀ x ∈ [a, b], ctx.checkOwned x = .ok () := fun ⟨ha, hb⟩ =>
    List.forall_mem_cons.mpr ⟨ha, List.forall_mem_singleton.mpr hb⟩
  have hadd : ∀ a b, ctx.add a b = .ok ct →
      ctx.checkOwned a = .ok () ∧ ctx.checkOwned b = .ok () := by
    intro a b hct
    simp only [Context.add, check_bind_eq_ok] at hct
    exact ⟨hct.1, hct.2.1⟩
  have hnegate : ∀ a ct, ctx.negate a = .ok ct → ctx.checkOwned a = .ok () := by
    intro a ct hct
    simp only [Context.negate, check_bind_eq_ok] at hct
    exact hct.1
  cases call with
  | add a b => exact hpair (hadd a b hct)
  | addInPlace a b =>
      rw [perform_addInPlace] at hct
      exact hpair (hadd a b hct)
  | sub a b =>
      simp only [perform, Context.sub, bind_eq_ok] at hct
      obtain ⟨negated, hneg, hct⟩ := hct
      exact hpair ⟨(hadd a negated hct).1, hnegate b negated hneg⟩
  | negate a => exact List.forall_mem_singleton.mpr (hnegate a ct hct)
  | multiply a b =>
      simp only [perform, Context.multiply, check_bind_eq_ok] at hct
      exact hpair ⟨hct.1, hct.2.1⟩
  | multiplyPlain a pt =>
      simp only [perform, Context.multiplyPlain, check_bind_eq_ok] at hct
      exact List.forall_mem_singleton.mpr hct.1
  | addPlain a pt =>
      simp only [perform, Context.addPlain, check_bind_eq_ok] at hct
      exact List.forall_mem_singleton.mpr hct.1
  | relinearize a rk =>
      simp only [perform, Context.relinearize, check_bind_eq_ok] at hct
      exact List.forall_mem_singleton.mpr hct.1
  | rescale a =>
      simp only [perform, Context.rescale, check_bind_eq_ok] at hct
      exact List.forall_mem_singleton.mpr hct.1
  | switchTo a level =>
      simp only [perform, Context.switchTo, check_bind_eq_ok] at hct
      exact List.forall_mem_singleton.mpr hct.1
  | rotate a step ks =>
      simp only [perform, Context.rotate, check_bind_eq_ok] at hct
      exact List.forall_mem_singleton.mpr hct.1

namespace Context

variable {ctx : Context} {ct : Ciphertext} {sk : SecretKey}

/-- A decryption that succeeds has accepted its ciphertext. -/
theorem accepted_of_decrypt {pt : Plaintext} (hpt : ctx.decrypt ct sk = .ok pt) :
    ctx.checkOwned ct = .ok () := by
  rw [decrypt, check_bind_eq_ok, checkDecryptable_ok, checkShape_iff_declares] at hpt
  exact checkOwned_iff.mpr ⟨hpt.1.1, hpt.1.2.2⟩

/-- **Whatever is declared wrongly is refused**, by the check, by every call and by decryption. -/
theorem refused (hdeclares : ¬ctx.Declares ct) :
    (∃ e, ctx.checkShape ct = .error e) ∧
      (∀ call : Call, ct ∈ call.operands → ∃ e, call.perform ctx = .error e) ∧
        ∀ sk, ∃ e, ctx.decrypt ct sk = .error e := by
  have hrefused : ctx.checkOwned ct ≠ .ok () := fun h => hdeclares (checkOwned_iff.mp h).2
  refine ⟨exists_error fun _ h => hdeclares (checkShape_iff_declares.mp h), fun call hmem => ?_,
    fun sk => ?_⟩
  · exact exists_error fun _ h => hrefused (Call.accepted h ct hmem)
  · exact exists_error fun _ h => hrefused (accepted_of_decrypt h)

/-! ### What acceptance is worth -/

/-- **Acceptance and safety.**  A ciphertext is accepted exactly when its declared shape is in
order, and refused by the check, by every operation and by decryption when it is not.  Operations on
accepted ciphertexts whose limbs are filled stay in range and combine limbs without a rest, whatever
the residues are, and what they return is accepted and filled again; so is decryption, which returns
a polynomial of full limbs. -/
theorem accepted_safe (h : ctx.Made) :
    (∀ ct : Ciphertext, (ctx.checkShape ct = .ok () ↔ ctx.Declares ct) ∧
      (¬ctx.Declares ct → (∃ e, ctx.checkShape ct = .error e) ∧
        (∀ call : Call, ct ∈ call.operands → ∃ e, call.perform ctx = .error e) ∧
          ∀ sk, ∃ e, ctx.decrypt ct sk = .error e)) ∧
    (∀ call : Call, call.Admissible ctx →
      (∀ x ∈ call.operands, ctx.checkOwned x = .ok () ∧ ctx.Filled x) →
        call.Safe False ctx ∧ ∀ ct, call.perform ctx = .ok ct →
          ctx.checkOwned ct = .ok () ∧ ctx.Filled ct) ∧
    ∀ (ct : Ciphertext) (sk : SecretKey), ctx.checkOwned ct = .ok () → ctx.Filled ct →
      ctx.DrawsSecret sk → ctx.DecryptSafe False ct sk ∧ ∃ pt, ctx.decrypt ct sk = .ok pt ∧
        pt.poly.Sized ctx.degree (ct.level + 1) := by
  refine ⟨fun ct => ⟨checkShape_iff_declares, refused⟩,
    fun call hcall hoperands => ?_, fun ct sk haccepted hfilled hsk => ?_⟩
  · obtain ⟨hsafe, hresult⟩ := call.step h hcall fun x hx => (shaped_iff h).mpr (hoperands x hx)
    exact ⟨hsafe, fun ct hct => (shaped_iff h).mp (hresult ct hct).1⟩
  · have hct := (shaped_iff h).mpr ⟨haccepted, hfilled⟩
    have hkey := hsk.belongsTo h
    have hshape := (checkShape_iff_declares.mpr (checkOwned_iff.mp haccepted).2)
    have hparts : ct.parts ≠ [] := by
      intro hnil
      have hsize := hct.two_le_size
      rw [Ciphertext.size, hnil] at hsize
      exact absurd hsize (by decide)
    have hmessage := shaped_evaluateAt (h.fitWordsAt ct.level)
      (canonical_secretAt hkey ct.level).shaped hparts hct.parts
    refine ⟨hct.decryptSafe h hkey, ⟨ctx.message sk ct, ct.scale, ct.level⟩, ?_, ?_⟩
    · rw [decrypt, check_bind_eq_ok, checkDecryptable_ok]
      exact ⟨⟨hct.owner_eq, hkey.owner_eq, hshape⟩, rfl⟩
    · rw [← h.length_moduliAt hct.level_le]
      exact hmessage.sized

/-- A ciphertext that declares the shape of the small context, with limbs of any length. -/
def declared (length residue : ℕ) : Ciphertext where
  parts := List.replicate 2 ⟨List.replicate 2 (Array.replicate length residue), 4⟩
  scale := 1
  level := 1
  owner := 0

theorem checkOwned_declared (length residue : ℕ) :
    small.checkOwned (declared length residue) = .ok () := by
  refine checkOwned_iff.mpr ⟨rfl, le_rfl, le_rfl, fun p hp => ?_⟩
  rw [List.eq_of_mem_replicate hp]
  exact ⟨List.length_replicate, rfl⟩

/-- **Filled limbs of large residues** are safe over the small context, and are refused at another
level. -/
theorem accepted_safe_small :
    small.checkOwned (declared 4 1000) = .ok () ∧ small.Filled (declared 4 1000) ∧
      (∃ e, (Call.rescale { declared 4 1000 with level := 0 }).perform small = .error e) ∧
      (Call.rescale (declared 4 1000)).Safe False small ∧
      ∃ (ct : Ciphertext) (sk : SecretKey),
        (Call.rescale (declared 4 1000)).perform small = .ok ct ∧
        small.checkOwned ct = .ok () ∧ small.Filled ct ∧ small.DecryptSafe False ct sk ∧
          ∃ pt, small.decrypt ct sk = .ok pt ∧ pt.poly.Sized 4 (ct.level + 1) := by
  obtain ⟨hshapes, hcalls, hdecrypt⟩ := accepted_safe made_small
  obtain ⟨sk, -, hsk, -⟩ := exists_draws_small
  have haccepted := checkOwned_declared 4 1000
  have hfilled : small.Filled (declared 4 1000) := by
    intro p hp a ha
    rw [List.eq_of_mem_replicate hp] at ha
    rw [List.eq_of_mem_replicate ha]
    exact Array.size_replicate
  have hlevel : ¬small.Declares { declared 4 1000 with level := 0 } := fun hdeclares =>
    absurd (hdeclares.parts _ (List.mem_replicate.mpr ⟨two_ne_zero, rfl⟩)).1 (by decide)
  have hrefused := ((hshapes _).2 hlevel).2.1 (.rescale _) (List.mem_singleton.mpr rfl)
  have hoperands : ∀ x ∈ (Call.rescale (declared 4 1000)).operands,
      small.checkOwned x = .ok () ∧ small.Filled x :=
    List.forall_mem_singleton.mpr ⟨haccepted, hfilled⟩
  obtain ⟨hsafe, hresult⟩ := hcalls (.rescale (declared 4 1000)) trivial hoperands
  obtain ⟨ct, hrescale⟩ : ∃ ct, (Call.rescale (declared 4 1000)).perform small = .ok ct := by
    simp only [Call.perform, rescale, check_bind_eq_ok]
    exact ⟨_, haccepted, rfl⟩
  obtain ⟨haccepted', hfilled'⟩ := hresult ct hrescale
  obtain ⟨hdecryptSafe, hmessage⟩ := hdecrypt ct sk haccepted' hfilled' hsk
  exact ⟨haccepted, hfilled, hrefused, hsafe, ct, sk, hrescale, haccepted', hfilled',
    hdecryptSafe, hmessage⟩

/-- **Acceptance alone is not enough**: a ciphertext whose limbs are twice as long as it declares is
accepted, and neither rescaling nor decrypting it stays in range. -/
theorem exists_accepted_not_filled : ∃ ct : Ciphertext, ct.owner = small.id ∧
    small.checkShape ct = .ok () ∧ ¬small.Filled ct ∧ ¬(Call.rescale ct).Safe False small ∧
      ∃ sk, small.DrawsSecret sk ∧ ¬small.DecryptSafe False ct sk := by
  have hmem : (⟨List.replicate 2 (Array.replicate 8 0), 4⟩ : ResiduePoly) ∈ (declared 8 0).parts :=
    List.mem_replicate.mpr ⟨two_ne_zero, rfl⟩
  obtain ⟨sk, -, hsk, -⟩ := exists_draws_small
  refine ⟨declared 8 0, rfl, ?_, fun hfilled => ?_, fun hsafe => ?_, sk, hsk, fun hsafe => ?_⟩
  · exact checkShape_iff_declares.mpr (checkOwned_iff.mp (checkOwned_declared 8 0)).2
  · exact absurd (hfilled _ hmem _ (List.mem_replicate.mpr ⟨two_ne_zero, rfl⟩)) (by decide)
  · obtain ⟨-, last, hlast, hparts⟩ := hsafe one_ne_zero
    obtain rfl : Transform.ofRoot ⟨41⟩ 4 2 38 = last := Option.some.inj hlast
    exact absurd (hparts _ hmem).2.inverse.1 (by decide)
  · have hproduct := (hsafe.steps 0 _ rfl one_lt_two).1
    have hmeet := (hproduct.limbs 0 ⟨17⟩ rfl).size_eq
    have hs := (canonical_secretAt (hsk.belongsTo made_small) 1).isVector 0 ⟨17⟩ rfl
    have hlength : 8 = 4 := hmeet.trans hs.size_eq
    exact absurd hlength (by decide)

end Context

end EncryptedReals

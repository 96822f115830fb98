import EncryptedReals.Proofs.Acceptance

/-!
# Refusals

An operation examines its ciphertexts one after the other before it looks at anything else, and each
of them by four checks in a fixed order: owner, level, size, limbs.  The first check that fails decides
what the operation answers.  So a call with several things wrong has one answer, which depends on
neither scales nor keys nor the state of the chain.  The difference is the one operation that examines
its right operand first, since it negates it.

Keys come next, also where they would not be used.  Decryption makes the same checks and reports each
failure as its own.

## Main Definitions

* `Context.Defect` — the first thing that is wrong with a ciphertext
* `Call.examined` — the ciphertexts of a call in the order of examination

## Main results

* `Context.checkOwned_eq_error` — the check fails with the first defect
* `Call.perform_of_examined` — the first defect of the operands decides
* `Context.refusal_order` — all refusals, and that a sum which fails changes nothing
-/

namespace EncryptedReals

namespace Context

variable {ctx : Context} {ct : Ciphertext} {e : Failure}

/-! ### Defects -/

/-- **The first thing that is wrong with a ciphertext**, in the order owner, level, size, limbs, with
the failure that reports it. -/
inductive Defect (ctx : Context) (ct : Ciphertext) : Failure → Prop
  | owner (howner : ct.owner ≠ ctx.id) :
      Defect ctx ct (.mismatch (.foreignCiphertext ct.owner ctx.id))
  | level (howner : ct.owner = ctx.id) (hlevel : ctx.maxLevel < ct.level) :
      Defect ctx ct (.mismatch (.levelAboveTop ct.level ctx.maxLevel))
  | size (howner : ct.owner = ctx.id) (hlevel : ct.level ≤ ctx.maxLevel) (hsize : ct.size < 2) :
      Defect ctx ct (.unsupportedSize ct.size)
  /-- The first part that declares other limbs than its level asks for. -/
  | part (howner : ct.owner = ctx.id) (hlevel : ct.level ≤ ctx.maxLevel) (hsize : 2 ≤ ct.size)
      {before after : List ResiduePoly} {p : ResiduePoly} (hparts : ct.parts = before ++ p :: after)
      (hbefore : ∀ r ∈ before, r.limbs.length = ct.level + 1 ∧ r.degree = ctx.degree)
      (hp : ¬(p.limbs.length = ct.level + 1 ∧ p.degree = ctx.degree)) :
      Defect ctx ct (.mismatch
        (.partShape p.limbs.length p.degree ct.level (ct.level + 1) ctx.degree))

/-- A defect is a mismatch, or a size below two that is reported as it is. -/
theorem Defect.kind_or (h : ctx.Defect ct e) :
    e.kind = .mismatch ∨ ct.size < 2 ∧ e = .unsupportedSize ct.size := by
  cases h with
  | owner => exact .inl rfl
  | level => exact .inl rfl
  | size _ _ hsize => exact .inr ⟨hsize, rfl⟩
  | part => exact .inl rfl

theorem checkLevel_eq_error {level : ℕ} : ctx.checkLevel level = .error e ↔
    ctx.maxLevel < level ∧ .mismatch (.levelAboveTop level ctx.maxLevel) = e := by
  unfold checkLevel
  split
  · next h => simp [h]
  · next h => simp [h]

theorem checkPart_eq_error {level : ℕ} {p : ResiduePoly} : ctx.checkPart level p = .error e ↔
    ¬(p.limbs.length = level + 1 ∧ p.degree = ctx.degree) ∧
      .mismatch (.partShape p.limbs.length p.degree level (level + 1) ctx.degree) = e := by
  by_cases h : p.limbs.length = level + 1 ∧ p.degree = ctx.degree
  · simp [checkPart_ok.mpr h, h]
  · have hcheck : (p.limbs.length != level + 1 || p.degree != ctx.degree) = true := by
      rcases not_and_or.mp h with h | h <;> simp [h]
    simp [checkPart, hcheck, h]

/-- **The check of a shape fails with the first defect** in level, size and limbs. -/
theorem checkShape_eq_error (howner : ct.owner = ctx.id) :
    ctx.checkShape ct = .error e ↔ ctx.Defect ct e := by
  rw [checkShape, bind_eq_error, checkLevel_eq_error]
  constructor
  · rintro (⟨hlevel, rfl⟩ | ⟨⟨⟩, hlevel, hrest⟩)
    · exact .level howner hlevel
    · have hlevel := checkLevel_ok.mp hlevel
      simp only [throw_bind, check_eq_error] at hrest
      rcases hrest with ⟨hsize, rfl⟩ | ⟨hsize, hparts⟩
      · exact .size howner hlevel hsize
      · obtain ⟨before, p, after, hsplit, hbefore, hcheck⟩ := forM_eq_error.mp hparts
        obtain ⟨hp, rfl⟩ := checkPart_eq_error.mp hcheck
        exact .part howner hlevel (not_lt.mp hsize) hsplit
          (fun r hr => checkPart_ok.mp (hbefore r hr)) hp
  · rintro (h | ⟨-, hlevel⟩ | ⟨-, hlevel, hsize⟩ | ⟨-, hlevel, hsize, hparts, hbefore, hp⟩)
    · exact absurd howner h
    · exact .inl ⟨hlevel, rfl⟩
    · refine .inr ⟨(), checkLevel_ok.mpr hlevel, ?_⟩
      simp only [throw_bind, check_eq_error]
      exact .inl ⟨hsize, trivial⟩
    · refine .inr ⟨(), checkLevel_ok.mpr hlevel, ?_⟩
      simp only [throw_bind, check_eq_error]
      refine .inr ⟨not_lt.mpr hsize, forM_eq_error.mpr ⟨_, _, _, hparts, ?_, ?_⟩⟩
      · exact fun r hr => checkPart_ok.mpr (hbefore r hr)
      · exact checkPart_eq_error.mpr ⟨hp, rfl⟩

/-- **The check of an operand fails with its first defect.** -/
theorem checkOwned_eq_error : ctx.checkOwned ct = .error e ↔ ctx.Defect ct e := by
  simp only [checkOwned, throw_bind, check_eq_error, bne_iff_ne]
  constructor
  · rintro (⟨howner, rfl⟩ | ⟨howner, hshape⟩)
    · exact .owner howner
    · exact (checkShape_eq_error (not_not.mp howner)).mp hshape
  · intro h
    by_cases howner : ct.owner = ctx.id
    · exact .inr ⟨not_not.mpr howner, (checkShape_eq_error howner).mpr h⟩
    · cases h with
      | owner => exact .inl ⟨howner, rfl⟩
      | level h | size h | part h => exact absurd h howner

/-- What is foreign or declared wrongly has a first defect. -/
theorem exists_defect (h : ct.owner ≠ ctx.id ∨ ¬ctx.Declares ct) : ∃ e, ctx.Defect ct e := by
  obtain ⟨e, he⟩ : ∃ e, ctx.checkOwned ct = .error e := exists_error fun _ hok =>
    h.elim (· (checkOwned_iff.mp hok).1) (· (checkOwned_iff.mp hok).2)
  exact ⟨e, checkOwned_eq_error.mp he⟩

end Context

/-! ### The order of examination -/

namespace Call

variable {ctx : Context} {e : Failure}

/-- **The ciphertexts of a call in the order in which it examines them.** -/
def examined : Call → List Ciphertext
  | sub a b => [b, a]
  | call => call.operands

theorem mem_examined {call : Call} {x : Ciphertext} : x ∈ call.examined ↔ x ∈ call.operands := by
  cases call <;> simp [examined, operands, or_comm]

/-- **The first defect of the operands decides**: the call fails as the examination does. -/
theorem perform_of_examined (call : Call) (h : call.examined.forM ctx.checkOwned = .error e) :
    call.perform ctx = .error e := by
  have hsingle : ∀ {a : Ciphertext}, [a].forM ctx.checkOwned = .error e →
      ctx.checkOwned a = .error e := by
    intro a h
    rcases bind_eq_error.mp h with h | ⟨⟨⟩, -, h⟩
    · exact h
    · cases h
  have hpair : ∀ {a b : Ciphertext}, [a, b].forM ctx.checkOwned = .error e →
      ctx.checkOwned a = .error e ∨ ctx.checkOwned a = .ok () ∧ ctx.checkOwned b = .error e := by
    intro a b h
    rcases bind_eq_error.mp h with h | ⟨⟨⟩, ha, h⟩
    · exact .inl h
    · exact .inr ⟨ha, hsingle h⟩
  have hadd : ∀ {a b : Ciphertext}, [a, b].forM ctx.checkOwned = .error e →
      ctx.add a b = .error e := by
    intro a b h
    rcases hpair h with ha | ⟨ha, hb⟩
    · exact bind_of_error ha
    · rw [Context.add, bind_of_ok ha]
      exact bind_of_error hb
  cases call with
  | add a b => exact hadd h
  | addInPlace a b =>
      rw [perform_addInPlace]
      exact hadd h
  | sub a b =>
      rcases hpair h with hb | ⟨hb, ha⟩
      · exact bind_of_error (bind_of_error hb)
      · have hnegate : ctx.negate b =
            .ok { b with parts := b.parts.map fun p => p.neg (ctx.moduliAt b.level) } :=
          bind_of_ok hb
        exact (bind_of_ok hnegate).trans (bind_of_error ha)
  | multiply a b =>
      rcases hpair h with ha | ⟨ha, hb⟩
      · exact bind_of_error ha
      · rw [perform, Context.multiply, bind_of_ok ha]
        exact bind_of_error hb
  | negate a | multiplyPlain a pt | addPlain a pt | relinearize a rk | rescale a | switchTo a level
  | rotate a step ks => exact bind_of_error (hsingle h)

end Call

/-! ### All refusals -/

namespace Context

variable {ctx : Context}

/-- **How calls are refused.**  A call one of whose ciphertexts is foreign or declared wrongly fails
with the first defect of the first such operand in the order of examination, whatever else is wrong.
Keys of another context are refused for every ciphertext that is accepted, whatever its size and
whatever the step.  Decryption reports the same defects as failures of decryption.  A sum into the
left operand that fails, for any reason, leaves the operand as it was. -/
theorem refusal_order (ctx : Context) :
    (∀ call : Call, (∃ x ∈ call.operands, x.owner ≠ ctx.id ∨ ¬ctx.Declares x) →
      ∃ before x after e, call.examined = before ++ x :: after ∧
        (∀ y ∈ before, y.owner = ctx.id ∧ ctx.Declares y) ∧ ctx.Defect x e ∧
          (e.kind = .mismatch ∨ x.size < 2 ∧ e = .unsupportedSize x.size) ∧
            call.perform ctx = .error e) ∧
    (∀ (ct : Ciphertext) (rk : RelinearizationKey), ct.owner = ctx.id → ctx.Declares ct →
      rk.owner ≠ ctx.id →
        ctx.relinearize ct rk = .error (.mismatch .foreignRelinearizationKey)) ∧
    (∀ (ct : Ciphertext) (step : ℤ) (ks : GaloisKeys), ct.owner = ctx.id → ctx.Declares ct →
      ks.owner ≠ ctx.id → ctx.rotate ct step ks = .error (.mismatch .foreignGaloisKeys)) ∧
    (∀ (ct : Ciphertext) (sk : SecretKey), ct.owner ≠ ctx.id ∨ ¬ctx.Declares ct →
      ∃ e e', ctx.Defect ct e ∧ ctx.decrypt ct sk = .error e' ∧ e'.kind = .decryption ∧
        e' = if ct.owner = ctx.id ∧ sk.owner = ctx.id then .undecryptable e
          else .foreignDecryption ct.owner ctx.id) ∧
    ∀ (a b a' : Ciphertext) e, (ctx.addInPlace b).run.run a = (.error e, a') → a' = a := by
  refine ⟨fun call hdefect => ?_, fun ct rk howner hdeclares hrk => ?_,
    fun ct step ks howner hdeclares hks => ?_, fun ct sk hdefect => ?_, fun a b a' e hrun => ?_⟩
  · obtain ⟨x, hx, hdefect⟩ := hdefect
    obtain ⟨e', hx'⟩ := exists_defect hdefect
    obtain ⟨e, hexamined⟩ : ∃ e, call.examined.forM ctx.checkOwned = .error e :=
      exists_error fun _ hok => by
        have haccepted := forM_eq_ok.mp hok x (Call.mem_examined.mpr hx)
        rw [checkOwned_eq_error.mpr hx'] at haccepted
        cases haccepted
    obtain ⟨before, y, after, hsplit, hbefore, hy⟩ := forM_eq_error.mp hexamined
    have hy := checkOwned_eq_error.mp hy
    exact ⟨before, y, after, e, hsplit, fun r hr => checkOwned_iff.mp (hbefore r hr), hy,
      hy.kind_or, call.perform_of_examined hexamined⟩
  · rw [relinearize, bind_of_ok (checkOwned_iff.mpr ⟨howner, hdeclares⟩), howner]
    simp only [throw_bind, check_eq_error, bne_iff_ne]
    exact .inl ⟨hrk, trivial⟩
  · rw [rotate, bind_of_ok (checkOwned_iff.mpr ⟨howner, hdeclares⟩), howner]
    simp only [throw_bind, check_eq_error, bne_iff_ne]
    exact .inl ⟨hks, trivial⟩
  · obtain ⟨e, hdefect⟩ := exists_defect hdefect
    by_cases hown : ct.owner = ctx.id ∧ sk.owner = ctx.id
    · refine ⟨e, .undecryptable e, hdefect, bind_of_error ?_, rfl, (if_pos hown).symm⟩
      simp [checkDecryptable, hown, (checkShape_eq_error hown.1).mpr hdefect, Except.mapError]
    · refine ⟨e, .foreignDecryption ct.owner ctx.id, hdefect, bind_of_error ?_, rfl,
        (if_neg hown).symm⟩
      have hforeign : (ct.owner != ctx.id || sk.owner != ctx.id) = true := by
        rcases not_and_or.mp hown with h | h <;> simp [h]
      simp only [checkDecryptable, if_pos hforeign]
  · rw [run_addInPlace_eq] at hrun
    cases hadd : ctx.add a b with
    | error e' =>
        rw [hadd] at hrun
        cases hrun
        rfl
    | ok sum =>
        rw [hadd] at hrun
        cases hrun

/-- **Several things are wrong at once.**  The left operand is foreign and the right one has a single
part: the sum reports the owner and the difference the size.  A rotation by nothing refuses foreign
keys, and decryption reports the size in its own way. -/
theorem refusal_order_small :
    let a : Ciphertext := { Ciphertext.small false with owner := 5, scale := 2 }
    let b : Ciphertext := { Ciphertext.small false with parts := (Ciphertext.small false).parts.take 1 }
    let sk := SecretKey.ofDraws small #[1, 0, -1, 1]
    (Call.add a b).perform small = .error (.mismatch (.foreignCiphertext 5 0)) ∧
      (Call.sub a b).perform small = .error (.unsupportedSize 1) ∧
      small.rotate (.small false) 0 ⟨[], 5⟩ = .error (.mismatch .foreignGaloisKeys) ∧
      small.decrypt b sk = .error (.undecryptable (.unsupportedSize 1)) ∧
      ((small.addInPlace b).run.run a).2 = a := by
  intro a b sk
  obtain ⟨hcalls, -, hrotate, hdecrypt, haccumulator⟩ := refusal_order small
  have hcheckA : small.checkOwned a = .error (.mismatch (.foreignCiphertext 5 0)) := rfl
  have hcheckB : small.checkOwned b = .error (.unsupportedSize 1) := rfl
  have hsingle : ¬small.Declares b := fun h => absurd h.two_le_size (by decide)
  -- the operand that is examined first is the one with the defect
  have hfirst : ∀ (call : Call) x y e, call.examined = [x, y] → x ∈ call.operands →
      small.checkOwned x = .error e → call.perform small = .error e := by
    intro call x y e hexamined hx he
    have hdefect : x.owner ≠ small.id ∨ ¬small.Declares x := by
      by_contra haccepted
      rw [checkOwned_iff.mpr (by simpa [not_or] using haccepted)] at he
      cases he
    obtain ⟨before, z, after, e', hsplit, hbefore, hz, -, hperform⟩ := hcalls call ⟨x, hx, hdefect⟩
    rw [hexamined] at hsplit
    cases before with
    | nil =>
        cases hsplit
        rw [← checkOwned_eq_error, he] at hz
        cases hz
        exact hperform
    | cons w before =>
        obtain ⟨rfl, -⟩ := List.cons.inj hsplit
        obtain ⟨howner, hdeclares⟩ := hbefore x List.mem_cons_self
        exact absurd hdefect (by simp [howner, hdeclares])
  refine ⟨hfirst _ a b _ rfl (by simp [Call.operands]) hcheckA,
    hfirst _ b a _ rfl (by simp [Call.operands]) hcheckB, ?_, ?_, ?_⟩
  · have haccepted := checkOwned_iff.mp ((owns_small false).checkOwned made_small)
    exact hrotate _ 0 ⟨[], 5⟩ haccepted.1 haccepted.2 (by decide)
  · obtain ⟨e, e', hdefect, hfails, -, rfl⟩ := hdecrypt b sk (.inr hsingle)
    rw [← checkOwned_eq_error, hcheckB] at hdefect
    cases hdefect
    exact hfails
  · exact haccumulator a b _ (.mismatch (.foreignCiphertext 5 0)) (Prod.ext rfl rfl)

end Context

end EncryptedReals

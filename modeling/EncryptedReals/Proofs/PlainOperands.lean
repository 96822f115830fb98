import EncryptedReals.Proofs.Acceptance

/-!
# Plaintext operands

A plaintext is a record that anyone can fill in, and unlike a ciphertext it is not checked.  An operation
compares two numbers, the level and the scale that the plaintext names, and then combines polynomials as
far as both operands reach.

What comes of it is not the same for sums and for products.  A sum keeps the limbs and the entries of its
left operand and adds to them what the plaintext has (`residue?_add`), so sums with a plaintext and fresh
encryptions are full whatever the plaintext is.  A product has only the limbs and the entries that both
operands have (`residue?_mul`), so it is full exactly when the plaintext reaches far enough.

## Main Definitions

* `ResiduePoly.residue?` — an entry of a limb, if there is one
* `Context.Covers` — the plaintext has a full limb for each modulus of its level

## Main results

* `ResiduePoly.residue?_add`, `ResiduePoly.residue?_mul` — sums and products of any two polynomials
* `Context.shaped_addPlain`, `Context.shaped_plainProduct`, `Context.shaped_encryptWith` — the shapes of
  what comes out
* `Context.plainOperand_shape` — which plaintexts are accepted, and what comes of them
* `Context.exists_plainOperand_not_refused` — plaintexts that do not fit are accepted
-/

namespace EncryptedReals

/-! ### Entries -/

namespace ResiduePoly

variable {i j : ℕ} {r : ResiduePoly}

/-- **An entry of a limb**, if the polynomial has the limb and the limb is long enough. -/
def residue? (p : ResiduePoly) (i j : ℕ) : Option ℕ :=
  p.limbs[i]?.bind fun a => a[j]?

/-- An entry of two combined limbs, where the left one has it. -/
theorem getElem?_overlayEntries (f : ℕ → ℕ → ℕ) (a b : Array ℕ) (j : ℕ) :
    (overlayEntries f a b)[j]? = a[j]?.map fun x => (b[j]?.map (f x)).getD x := by
  rw [overlayEntries, Array.getElem?_mapIdx]
  cases b[j]? <;> rfl

/-- An entry of a product of limbs, where both have it. -/
theorem getElem?_mulEntries (q : Modulus) (a b : Array ℕ) (j : ℕ) :
    (mulEntries q a b)[j]? = a[j]?.bind fun x => b[j]?.map (q.mul x) := by
  rw [mulEntries, Array.getElem?_zipWith]
  cases a[j]? <;> cases b[j]? <;> rfl

/-- **A sum has the entries of its left operand**, and adds to each the entry that the right one has
in its place. -/
theorem residue?_add (moduli : List Modulus) (p r : ResiduePoly) (i j : ℕ) :
    (p.add moduli r).residue? i j = (p.residue? i j).map fun x =>
      (moduli[i]?.bind fun q => (r.residue? i j).map (q.add x)).getD x := by
  rw [residue?, residue?, residue?, add, getElem?_overlay_eq, getElem?_zip]
  -- two limbs are combined where both polynomials have one and there is a modulus
  cases p.limbs[i]? <;> cases r.limbs[i]? <;> cases moduli[i]?
  case some.some.some a b q => exact getElem?_overlayEntries q.add a b j
  all_goals simp

/-- **A product has the entries that both operands have**, where there is a modulus. -/
theorem residue?_mul (moduli : List Modulus) (p r : ResiduePoly) (i j : ℕ) :
    (p.mul moduli r).residue? i j = moduli[i]?.bind fun q =>
      (p.residue? i j).bind fun x => (r.residue? i j).map (q.mul x) := by
  rw [residue?, residue?, residue?, mul, List.getElem?_map, getElem?_zip, getElem?_zip]
  cases p.limbs[i]? <;> cases r.limbs[i]? <;> cases moduli[i]?
  case some.some.some a b q => exact getElem?_mulEntries q a b j
  all_goals simp

/-- Where the right operand has no entry, a sum is its left operand. -/
theorem residue?_add_of_none (moduli : List Modulus) (p : ResiduePoly) (hr : r.residue? i j = none) :
    (p.add moduli r).residue? i j = p.residue? i j := by
  rw [residue?_add, hr]
  cases p.residue? i j <;> cases moduli[i]? <;> rfl

/-- Where the right operand has no entry, a product has none. -/
theorem residue?_mul_of_none (moduli : List Modulus) (p : ResiduePoly) (hr : r.residue? i j = none) :
    (p.mul moduli r).residue? i j = none := by
  rw [residue?_mul, hr]
  cases p.residue? i j <;> cases moduli[i]? <;> rfl

end ResiduePoly

/-! ### Ciphertexts with a plaintext operand -/

namespace Context

open ResiduePoly

variable {ctx : Context} {ct ct' : Ciphertext} {pt : Plaintext}

/-- **The plaintext has a full limb** for each modulus of its level.  What it has beyond that is not
looked at. -/
structure Covers (ctx : Context) (pt : Plaintext) : Prop where
  limbs : pt.level < pt.poly.limbs.length
  entries : ∀ i ≤ pt.level, ctx.degree ≤ (pt.poly.limb i).size

/-- What the plaintext has to reach, by the moduli of its level. -/
theorem covers_iff (h : ctx.Made) (hle : ct.level ≤ ctx.maxLevel) (hlevel : pt.level = ct.level) :
    ctx.Covers pt ↔ (ctx.moduliAt ct.level).length ≤ pt.poly.limbs.length ∧
      ∀ i < (ctx.moduliAt ct.level).length, ctx.degree ≤ (pt.poly.limb i).size := by
  rw [h.length_moduliAt hle, ← hlevel]
  exact ⟨fun hcovers => ⟨hcovers.limbs, fun i hi => hcovers.entries i (by omega)⟩,
    fun ⟨hlimbs, hentries⟩ => ⟨hlimbs, fun i hi => hentries i (by omega)⟩⟩

/-- A sum with the plaintext is asked about two numbers. -/
theorem addPlain_eq_ok {c0 : ResiduePoly} {rest : List ResiduePoly}
    (hct : ctx.checkOwned ct = .ok ()) (hparts : ct.parts = c0 :: rest) :
    ctx.addPlain ct pt = .ok ct' ↔ (pt.level = ct.level ∧ (pt.scale != ct.scale) = false) ∧
      { ct with parts := c0.add (ctx.moduliAt ct.level) pt.poly :: rest } = ct' := by
  simp only [addPlain, hct, hparts, throw_bind, check_eq_ok, check_bind_eq_ok, pure_eq_ok, bne_iff_ne,
    Bool.or_eq_true, ne_eq, not_or, not_not, true_and, Bool.not_eq_true]

/-- The product of every part with the polynomial of a plaintext. -/
def plainProduct (ctx : Context) (ct : Ciphertext) (pt : Plaintext) : Ciphertext :=
  { ct with
    parts := ct.parts.map fun p => p.mul (ctx.moduliAt ct.level) pt.poly
    scale := ct.scale * pt.scale }

/-- A product with the plaintext is asked about two numbers. -/
theorem multiplyPlain_eq_ok (hct : ctx.checkOwned ct = .ok ()) :
    ctx.multiplyPlain ct pt = .ok ct' ↔
      (pt.level = ct.level ∧ ctx.checkProductScale (ct.scale * pt.scale) ct.level = .ok ()) ∧
        ctx.plainProduct ct pt = ct' := by
  simp only [multiplyPlain, plainProduct, hct, throw_bind, check_eq_ok, check_bind_eq_ok, pure_eq_ok,
    bne_iff_ne, ne_eq, not_not, true_and, and_assoc]

/-- **A sum with any plaintext** has the shape of the ciphertext. -/
theorem shaped_addPlain {c0 : ResiduePoly} {rest : List ResiduePoly} (hct : ctx.Shaped False ct)
    (hparts : ct.parts = c0 :: rest) :
    ctx.Shaped False { ct with parts := c0.add (ctx.moduliAt ct.level) pt.poly :: rest } := by
  have hsize := hct.two_le_size
  have hshaped := hct.parts
  rw [Ciphertext.size, hparts] at hsize
  rw [hparts, List.forall_mem_cons] at hshaped
  refine ⟨hct.owner_eq, hct.level_le, hsize, List.forall_mem_cons.mpr ⟨?_, hshaped.2⟩⟩
  exact ⟨hshaped.1.sized.add _ _, False.elim⟩

/-- What is the same for all parts holds of all of them when it holds. -/
theorem forall_parts_iff (hsize : 2 ≤ ct.size) {P : Prop} {Q : ResiduePoly → Prop}
    (h : ∀ p ∈ ct.parts, Q p ↔ P) : (∀ p ∈ ct.parts, Q p) ↔ P := by
  obtain ⟨p, hp⟩ : ∃ p, p ∈ ct.parts :=
    List.exists_mem_of_length_pos (Nat.zero_lt_two.trans_le hsize)
  exact ⟨fun hparts => (h p hp).mp (hparts p hp), fun hP r hr => (h r hr).mpr hP⟩

theorem size_plainProduct : (ctx.plainProduct ct pt).size = ct.size :=
  List.length_map _

/-- **A product with a plaintext** has the shape of the ciphertext exactly when the plaintext covers
its level. -/
theorem shaped_plainProduct (h : ctx.Made) (hct : ctx.Shaped False ct) (hlevel : pt.level = ct.level) :
    ctx.Shaped False (ctx.plainProduct ct pt) ↔ ctx.Covers pt := by
  have hpart : ∀ p ∈ ct.parts, (p.mul (ctx.moduliAt ct.level) pt.poly).Shaped False ctx.degree
      (ctx.moduliAt ct.level) ↔ ctx.Covers pt := fun p hp => by
    rw [covers_iff h hct.level_le hlevel, ← (hct.parts p hp).sized.mul_iff]
    exact ⟨fun hproduct => hproduct.sized, fun hsized => ⟨hsized, False.elim⟩⟩
  rw [← forall_parts_iff hct.two_le_size hpart]
  exact ⟨fun hproduct p hp => hproduct.parts _ (List.mem_map_of_mem hp),
    fun hparts => ⟨hct.owner_eq, hct.level_le, size_plainProduct.ge.trans' hct.two_le_size,
      List.forall_mem_map.mpr hparts⟩⟩

/-- The check accepts a product with a plaintext that has the limbs of its level, however long. -/
theorem checkOwned_plainProduct (h : ctx.Made) (hct : ctx.checkOwned ct = .ok ())
    (hlevel : pt.level = ct.level) :
    ctx.checkOwned (ctx.plainProduct ct pt) = .ok () ↔ pt.level < pt.poly.limbs.length := by
  rw [checkOwned_iff] at hct ⊢
  obtain ⟨howner, hdeclares⟩ := hct
  have hpart : ∀ p ∈ ct.parts, (p.mul (ctx.moduliAt ct.level) pt.poly).limbs.length = ct.level + 1 ∧
      p.degree = ctx.degree ↔ pt.level < pt.poly.limbs.length := fun p hp => by
    obtain ⟨hlimbs, hdegree⟩ := hdeclares.parts p hp
    rw [length_limbs_mul, hlimbs, h.length_moduliAt hdeclares.level_le]
    omega
  rw [← forall_parts_iff hdeclares.two_le_size hpart]
  exact ⟨fun hproduct p hp => hproduct.2.parts _ (List.mem_map_of_mem hp),
    fun hparts => ⟨howner, hdeclares.level_le, size_plainProduct.ge.trans' hdeclares.two_le_size,
      List.forall_mem_map.mpr hparts⟩⟩

/-- **A fresh encryption of any plaintext** of a level of the chain has the shape of its level. -/
theorem shaped_encryptWith {pk : PublicKey} {noise : Noise} (h : ctx.Made) (hpk : pk.BelongsTo ctx)
    (hlevel : pt.level ≤ ctx.maxLevel) (hn : noise.Fits ctx) :
    ctx.Shaped False (ctx.encryptWith pt pk noise) := by
  have hb := canonical_masked h hlevel hpk.canonical_b hn.size_u hn.size_e0
  have ha := canonical_masked h hlevel hpk.canonical_a hn.size_u hn.size_e1
  refine ⟨rfl, hlevel, le_rfl, ?_⟩
  rintro p (- | ⟨-, - | ⟨-, ⟨⟩⟩⟩)
  · exact ⟨hb.sized.add _ _, False.elim⟩
  · exact ha.shaped

/-- An encryption is asked about the level. -/
theorem run_encrypt_eq_ok {pk : PublicKey} (hpk : pk.owner = ctx.id) (g : Generator) :
    ((ctx.encrypt pt pk).run.run g).1 = .ok ct ↔
      pt.level ≤ ctx.maxLevel ∧ ctx.encryptWith pt pk ((Noise.draw ctx).run g).1 = ct := by
  by_cases hlevel : pt.level ≤ ctx.maxLevel
  · rw [run_encrypt hpk hlevel, Except.ok.injEq, and_iff_right hlevel]
  · -- the check fails before anything is drawn
    have hcheck : ∀ u, ctx.checkEncryptable pt pk ≠ .ok u := fun u hu => by
      simp only [checkEncryptable, check_eq_ok, throw_bind] at hu
      exact hlevel (checkLevel_ok.mp hu.2)
    obtain ⟨e, he⟩ := exists_error hcheck
    refine ⟨fun hrun => ?_, fun hrun => absurd hrun.1 hlevel⟩
    rw [encrypt, he] at hrun
    cases hrun

/-! ### What is accepted, and what comes of it -/

/-- **Plaintext operands of any form.**  Whether a plaintext is accepted depends on its level and its
scale alone.  Sums and fresh encryptions are accepted and filled again whatever its polynomial is, and
where it has no entry a sum is the ciphertext itself.  A product has the limbs and the entries that the
plaintext has too, so the check accepts it exactly when there is a limb for each modulus of the level,
and it is filled as well exactly when none of these limbs is too short. -/
theorem plainOperand_shape (h : ctx.Made) (pt : Plaintext) :
    (∀ ct, ctx.checkOwned ct = .ok () → ctx.Filled ct →
      ((∃ r, ctx.addPlain ct pt = .ok r) ↔ pt.level = ct.level ∧ (pt.scale != ct.scale) = false) ∧
      (∀ r, ctx.addPlain ct pt = .ok r → ctx.checkOwned r = .ok () ∧ ctx.Filled r ∧
        ∀ i j, pt.poly.residue? i j = none →
          r.parts.map (·.residue? i j) = ct.parts.map (·.residue? i j)) ∧
      ((∃ r, ctx.multiplyPlain ct pt = .ok r) ↔
        pt.level = ct.level ∧ ctx.checkProductScale (ct.scale * pt.scale) ct.level = .ok ()) ∧
      ∀ r, ctx.multiplyPlain ct pt = .ok r →
        (∀ i j, pt.poly.residue? i j = none → ∀ p ∈ r.parts, p.residue? i j = none) ∧
        (ctx.checkOwned r = .ok () ↔ pt.level < pt.poly.limbs.length) ∧
        (ctx.checkOwned r = .ok () ∧ ctx.Filled r ↔ ctx.Covers pt)) ∧
    ∀ pk : PublicKey, pk.BelongsTo ctx → ∀ g,
      ((∃ r, ((ctx.encrypt pt pk).run.run g).1 = .ok r) ↔ pt.level ≤ ctx.maxLevel) ∧
      ∀ r, ((ctx.encrypt pt pk).run.run g).1 = .ok r → ctx.checkOwned r = .ok () ∧ ctx.Filled r := by
  refine ⟨fun ct hct hfilled => ?_, fun pk hpk g => ?_⟩
  · have hshaped := (shaped_iff h).mpr ⟨hct, hfilled⟩
    obtain ⟨c0, rest, hparts⟩ : ∃ c0 rest, ct.parts = c0 :: rest :=
      List.exists_cons_of_length_pos (Nat.zero_lt_two.trans_le hshaped.two_le_size)
    refine ⟨?_, fun r hr => ?_, ?_, fun r hr => ?_⟩
    · simp only [addPlain_eq_ok hct hparts, exists_and_left, exists_eq', and_true]
    · obtain ⟨-, rfl⟩ := (addPlain_eq_ok hct hparts).mp hr
      obtain ⟨haccepted, hfull⟩ := (shaped_iff h).mp (shaped_addPlain hshaped hparts)
      refine ⟨haccepted, hfull, fun i j hnone => ?_⟩
      rw [hparts, List.map_cons, List.map_cons, residue?_add_of_none _ _ hnone]
    · simp only [multiplyPlain_eq_ok hct, exists_and_left, exists_eq', and_true]
    · obtain ⟨⟨hlevel, -⟩, rfl⟩ := (multiplyPlain_eq_ok hct).mp hr
      refine ⟨fun i j hnone => List.forall_mem_map.mpr fun p _ => residue?_mul_of_none _ p hnone, ?_⟩
      exact ⟨checkOwned_plainProduct h hct hlevel,
        (shaped_iff h).symm.trans (shaped_plainProduct h hshaped hlevel)⟩
  · refine ⟨?_, fun r hr => ?_⟩
    · simp only [run_encrypt_eq_ok hpk.owner_eq, exists_and_left, exists_eq', and_true]
    · obtain ⟨hlevel, rfl⟩ := (run_encrypt_eq_ok hpk.owner_eq g).mp hr
      exact (shaped_iff h).mp (shaped_encryptWith h hpk hlevel (Noise.inRange_draw g).fits)

/-- A plaintext of the small context at level 1, which has two moduli, with any limbs. -/
def carrying (limbs : List (Array ℕ)) : Plaintext where
  poly := ⟨limbs, 4⟩
  scale := 1
  level := 1

section Small

variable {limbs : List (Array ℕ)}

theorem accepted_small :
    small.checkOwned (.small false) = .ok () ∧ small.Filled (.small false) :=
  ⟨(owns_small false).checkOwned made_small, (owns_small false).filled⟩

theorem exists_addPlain_small : ∃ r, small.addPlain (.small false) (carrying limbs) = .ok r := by
  have hscale : ((1 : Float) != 1) = false := by decide +kernel
  exact ⟨_, (addPlain_eq_ok accepted_small.1 rfl).mpr ⟨⟨rfl, hscale⟩, rfl⟩⟩

theorem multiplyPlain_small : small.multiplyPlain (.small false) (carrying limbs) =
    .ok (small.plainProduct (.small false) (carrying limbs)) := by
  have hscale : small.checkProductScale (1 * 1) 1 = .ok () := eq_ok_of_toOption (by decide +kernel)
  exact (multiplyPlain_eq_ok accepted_small.1).mpr ⟨⟨rfl, hscale⟩, rfl⟩

/-- A plaintext of one entry is summed and encrypted, and a product with one of two full limbs is full. -/
theorem plainOperand_shape_small : ∃ a b c : Ciphertext, ∃ (pk : PublicKey) (g : Generator),
    small.addPlain (.small false) (carrying [#[1]]) = .ok a ∧ small.checkOwned a = .ok () ∧
      small.Filled a ∧
    small.multiplyPlain (.small false) (carrying [#[1, 2, 3, 4], #[5, 6, 7, 8]]) = .ok b ∧
      small.checkOwned b = .ok () ∧ small.Filled b ∧
    ((small.encrypt (carrying [#[1]]) pk).run.run g).1 = .ok c ∧ small.checkOwned c = .ok () ∧
      small.Filled c := by
  obtain ⟨haccepted, hfilled⟩ := accepted_small
  obtain ⟨-, pk, -, hpk⟩ := exists_draws_small
  obtain ⟨hsums, hencrypt⟩ := plainOperand_shape made_small (carrying [#[1]])
  obtain ⟨hproducts, -⟩ := plainOperand_shape made_small (carrying [#[1, 2, 3, 4], #[5, 6, 7, 8]])
  obtain ⟨-, hsum, -, -⟩ := hsums _ haccepted hfilled
  obtain ⟨-, -, -, hproduct⟩ := hproducts _ haccepted hfilled
  obtain ⟨hfresh, hfull⟩ := hencrypt pk (hpk.belongsTo made_small) (.ofSeed 0)
  obtain ⟨a, ha⟩ := exists_addPlain_small
  obtain ⟨c, hc⟩ := hfresh.mpr le_rfl
  obtain ⟨hacceptedSum, hfilledSum, -⟩ := hsum a ha
  obtain ⟨hacceptedFresh, hfilledFresh⟩ := hfull c hc
  obtain ⟨hacceptedProduct, hfilledProduct⟩ :=
    (hproduct _ multiplyPlain_small).2.2.mpr ⟨by decide, by decide⟩
  exact ⟨a, _, c, pk, _, ha, hacceptedSum, hfilledSum, multiplyPlain_small, hacceptedProduct,
    hfilledProduct, hc, hacceptedFresh, hfilledFresh⟩

/-- **Plaintexts that do not fit are not refused.**  One with a single limb for two moduli is added,
encrypted and multiplied, and the product fails the check of its own context; with two limbs of one entry
the product passes the check and is not filled. -/
theorem exists_plainOperand_not_refused :
    small.checkOwned (.small false) = .ok () ∧ small.Filled (.small false) ∧
    (∃ pt : Plaintext, pt.level = 1 ∧ pt.poly.limbs.length = 1 ∧
      (∃ r, small.addPlain (.small false) pt = .ok r) ∧
      (∃ pk : PublicKey, pk.BelongsTo small ∧
        ∀ g, ∃ r, ((small.encrypt pt pk).run.run g).1 = .ok r) ∧
      ∃ r, small.multiplyPlain (.small false) pt = .ok r ∧ ∃ e, small.checkShape r = .error e) ∧
    ∃ (pt : Plaintext) (r : Ciphertext), small.multiplyPlain (.small false) pt = .ok r ∧
      small.checkShape r = .ok () ∧ ¬small.Filled r := by
  obtain ⟨haccepted, hfilled⟩ := accepted_small
  have hshaped := (shaped_iff made_small).mpr ⟨haccepted, hfilled⟩
  obtain ⟨-, pk, -, hpk⟩ := exists_draws_small
  have hbelongs := hpk.belongsTo made_small
  refine ⟨haccepted, hfilled,
    ⟨carrying [#[1, 2, 3, 4]], rfl, rfl, exists_addPlain_small, ⟨pk, hbelongs, fun g => ?_⟩, _,
      multiplyPlain_small, ?_⟩, carrying [#[1], #[2]], _, multiplyPlain_small, ?_⟩
  · exact ⟨_, (run_encrypt_eq_ok hbelongs.owner_eq g).mpr ⟨le_rfl, rfl⟩⟩
  · exact exists_error fun _ hshape =>
      absurd ((checkShape_iff_declares.mp hshape).parts _ List.mem_cons_self).1 (by decide)
  · have hproduct : small.checkOwned (small.plainProduct (.small false) (carrying [#[1], #[2]])) =
        .ok () := (checkOwned_plainProduct made_small haccepted rfl).mpr (by decide)
    refine ⟨checkShape_iff_declares.mpr (checkOwned_iff.mp hproduct).2, fun hfull => ?_⟩
    have hcovers := (shaped_plainProduct made_small hshaped rfl).mp
      ((shaped_iff made_small).mpr ⟨hproduct, hfull⟩)
    exact absurd (hcovers.entries 0 (Nat.zero_le 1)) (by decide)

end Small

end Context

end EncryptedReals

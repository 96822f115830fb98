import EncryptedReals.Proofs.Sums

/-!
# Sums and products of ciphertexts obey the laws of a ring

In each entry of each limb a list of parts gives the coefficients of a polynomial over the ring
of the modulus.  The parts of a sum give the sum of the two polynomials and those of a product
their product, whatever the numbers of parts.  Residues are canonical, so the polynomials and
the number of parts determine the parts, and every law of these polynomial rings is a law of
ciphertexts, bit for bit.

## Main Definitions

* `partsPoly` — the polynomial of a list of parts, in one entry of one limb
* `Context.productParts` — the parts of a product

## Main results

* `Context.partsPoly_addParts`, `Context.partsPoly_productParts` — sums and products
* `Context.parts_ext` — the polynomials determine the parts
* `Context.add_multiply_laws` — commutativity, associativity and distributivity

## Design Notes

Only the parts obey the laws.  The scale of a product is rounded, so regrouping may change it,
and the two sides of a law may be accepted or refused by themselves.
-/

namespace EncryptedReals

open Polynomial

/-- **The polynomial of a list of parts**: its coefficients are the entries of the parts. -/
noncomputable def partsPoly (q : Modulus) (i k : ℕ) (parts : List ResiduePoly) :
    (ZMod q.value)[X] :=
  listPoly (parts.map fun p => p.value q i k)

namespace Context

variable {ctx : Context} {a b c ct : Ciphertext} {moduli : List Modulus} {q : Modulus}
  {n i k level : ℕ}

/-- **The parts of a product.** -/
def productParts (moduli : List Modulus) (zero : ResiduePoly) (as bs : List ResiduePoly) :
    List ResiduePoly :=
  (List.range (as.length + bs.length - 1)).map (productPart moduli zero as bs)

theorem length_productParts (moduli : List Modulus) (zero : ResiduePoly)
    (as bs : List ResiduePoly) :
    (productParts moduli zero as bs).length = as.length + bs.length - 1 := by
  rw [productParts, List.length_map, List.length_range]

/-! ### Lists of parts -/

/-- A coefficient is the entry of the part, of which a missing one is zero. -/
theorem coeff_partsPoly (hq : moduli[i]? = some q) (hk : k < n) (parts : List ResiduePoly)
    (m : ℕ) :
    (partsPoly q i k parts).coeff m = (parts.getD m (.zero n moduli.length)).value q i k := by
  rw [partsPoly, coeff_listPoly, ← ResiduePoly.value_zero hq hk, List.getD_map]

section Parts

variable {as bs cs : List ResiduePoly} (hw : FitWords moduli)
  (has : ∀ p ∈ as, p.Canonical n moduli)

include hw has

/-- **The polynomials and the number of parts determine the parts.** -/
theorem parts_ext (hbs : ∀ p ∈ bs, p.Canonical n moduli) (hlength : as.length = bs.length)
    (hpoly : ∀ (i : ℕ) (q : Modulus), moduli[i]? = some q → ∀ k < n,
      partsPoly q i k as = partsPoly q i k bs) : as = bs := by
  refine List.ext_getElem hlength fun m hleft hright => ?_
  rw [← List.getD_eq_getElem _ (ResiduePoly.zero n moduli.length) hleft,
    ← List.getD_eq_getElem _ (ResiduePoly.zero n moduli.length) hright]
  refine (canonical_getD hw has m).ext (canonical_getD hw hbs m) fun i q hq k hk => ?_
  rw [← coeff_partsPoly hq hk, ← coeff_partsPoly hq hk, hpoly i q hq k hk]

/-- **The parts of a sum** have the sum of the polynomials. -/
theorem partsPoly_addParts (hbs : ∀ p ∈ bs, p.Canonical n moduli) (hq : moduli[i]? = some q)
    (hk : k < n) :
    partsPoly q i k (addParts moduli (.zero n moduli.length) as bs) =
      partsPoly q i k as + partsPoly q i k bs := by
  refine Polynomial.ext fun m => ?_
  rw [coeff_add, coeff_partsPoly hq hk, coeff_partsPoly hq hk, coeff_partsPoly hq hk,
    getD_addParts hw has,
    ResiduePoly.value_add hw (canonical_getD hw has m) (canonical_getD hw hbs m) hq hk]

/-- **The parts of a product** have the product of the polynomials. -/
theorem partsPoly_productParts (hbs : ∀ p ∈ bs, p.Canonical n moduli)
    (hq : moduli[i]? = some q) (hk : k < n) :
    partsPoly q i k (productParts moduli (.zero n moduli.length) as bs) =
      partsPoly q i k as * partsPoly q i k bs := by
  rw [partsPoly, productParts, map_value_productPart hw has hbs hq hk, listPoly_convolution,
    partsPoly, partsPoly]

theorem canonical_productParts (hbs : ∀ p ∈ bs, p.Canonical n moduli) :
    ∀ p ∈ productParts moduli (.zero n moduli.length) as bs, p.Canonical n moduli :=
  List.forall_mem_map.mpr fun m _ => canonical_productPart hw has hbs m

variable (hbs : ∀ p ∈ bs, p.Canonical n moduli)

include hbs

theorem addParts_comm :
    addParts moduli (.zero n moduli.length) as bs =
      addParts moduli (.zero n moduli.length) bs as := by
  refine parts_ext hw (canonical_addParts hw has hbs) (canonical_addParts hw hbs has) ?_
    fun i q hq k hk => ?_
  · rw [length_addParts, length_addParts, max_comm]
  · rw [partsPoly_addParts hw has hbs hq hk, partsPoly_addParts hw hbs has hq hk, add_comm]

theorem productParts_comm :
    productParts moduli (.zero n moduli.length) as bs =
      productParts moduli (.zero n moduli.length) bs as := by
  refine parts_ext hw (canonical_productParts hw has hbs) (canonical_productParts hw hbs has) ?_
    fun i q hq k hk => ?_
  · rw [length_productParts, length_productParts, add_comm]
  · rw [partsPoly_productParts hw has hbs hq hk, partsPoly_productParts hw hbs has hq hk, mul_comm]

variable (hcs : ∀ p ∈ cs, p.Canonical n moduli)

include hcs

/-- **Products of parts can be regrouped.**  The middle factor has a part, or the two sides
would differ in length. -/
theorem productParts_assoc (hlength : bs ≠ []) :
    productParts moduli (.zero n moduli.length)
        (productParts moduli (.zero n moduli.length) as bs) cs =
      productParts moduli (.zero n moduli.length) as
        (productParts moduli (.zero n moduli.length) bs cs) := by
  have hab := canonical_productParts hw has hbs
  have hbc := canonical_productParts hw hbs hcs
  have hpos := List.length_pos_iff.mpr hlength
  refine parts_ext hw (canonical_productParts hw hab hcs) (canonical_productParts hw has hbc) ?_
    fun i q hq k hk => ?_
  · simp only [length_productParts]
    omega
  · rw [partsPoly_productParts hw hab hcs hq hk, partsPoly_productParts hw has hbs hq hk,
      partsPoly_productParts hw has hbc hq hk, partsPoly_productParts hw hbs hcs hq hk, mul_assoc]

/-- **A product with a sum of parts** is the sum of the products. -/
theorem productParts_addParts (hlength : as ≠ []) :
    productParts moduli (.zero n moduli.length) as
        (addParts moduli (.zero n moduli.length) bs cs) =
      addParts moduli (.zero n moduli.length)
        (productParts moduli (.zero n moduli.length) as bs)
        (productParts moduli (.zero n moduli.length) as cs) := by
  have hbc := canonical_addParts hw hbs hcs
  have hab := canonical_productParts hw has hbs
  have hac := canonical_productParts hw has hcs
  have hpos := List.length_pos_iff.mpr hlength
  refine parts_ext hw (canonical_productParts hw has hbc) (canonical_addParts hw hab hac) ?_
    fun i q hq k hk => ?_
  · simp only [length_productParts, length_addParts]
    omega
  · rw [partsPoly_productParts hw has hbc hq hk, partsPoly_addParts hw hbs hcs hq hk,
      partsPoly_addParts hw hab hac hq hk, partsPoly_productParts hw has hbs hq hk,
      partsPoly_productParts hw has hcs hq hk, mul_add]

end Parts

/-! ### Ciphertexts -/

/-- The parts that addition returns, at the level of its operands. -/
theorem parts_add (h : ctx.Made) (ha : ctx.Owns a) (hlevel : a.level = level)
    (hadd : ctx.add a b = .ok ct) : b.level = level ∧ ct.level = level ∧
      ct.parts = addParts (ctx.moduliAt level) (.zero ctx.degree (ctx.moduliAt level).length)
        a.parts b.parts := by
  simp only [add, bind_eq_ok, pure_eq_ok] at hadd
  obtain ⟨⟨⟩, -, ⟨⟩, -, ⟨⟩, hsummands, rfl⟩ := hadd
  subst hlevel
  rw [h.length_moduliAt ha.level_le]
  exact ⟨(checkSummands_ok hsummands).symm, rfl, rfl⟩

/-- The parts that multiplication returns, at the level of its operands. -/
theorem parts_multiply (h : ctx.Made) (ha : ctx.Owns a) (hlevel : a.level = level)
    (hmul : ctx.multiply a b = .ok ct) : b.level = level ∧ ct.level = level ∧
      ct.parts = productParts (ctx.moduliAt level)
        (.zero ctx.degree (ctx.moduliAt level).length) a.parts b.parts := by
  simp only [multiply, throw_bind, check_eq_ok, bind_eq_ok, pure_eq_ok, bne_iff_ne, ne_eq,
    not_not] at hmul
  obtain ⟨⟨⟩, -, ⟨⟩, -, hab, ⟨⟩, -, rfl⟩ := hmul
  subst hlevel
  rw [h.length_moduliAt ha.level_le]
  exact ⟨hab.symm, rfl, rfl⟩

theorem Owns.canonicalAt (ha : ctx.Owns a) (hlevel : a.level = level) :
    ∀ p ∈ a.parts, p.Canonical ctx.degree (ctx.moduliAt level) :=
  hlevel ▸ ha.canonical

/-- **The parts of ciphertexts obey the laws of a commutative ring**, bit for bit and whatever
the sizes, wherever the calls on both sides succeed: sums and products can be swapped and
regrouped, and a product with a sum is the sum of the products. -/
theorem add_multiply_laws (h : ctx.Made) (ha : ctx.Owns a) (hb : ctx.Owns b) (hc : ctx.Owns c) :
    (∀ l r, ctx.add a b = .ok l → ctx.add b a = .ok r → l.parts = r.parts) ∧
      (∀ ab bc l r, ctx.add a b = .ok ab → ctx.add ab c = .ok l → ctx.add b c = .ok bc →
        ctx.add a bc = .ok r → l.parts = r.parts) ∧
      (∀ l r, ctx.multiply a b = .ok l → ctx.multiply b a = .ok r → l.parts = r.parts) ∧
      (∀ ab bc l r, ctx.multiply a b = .ok ab → ctx.multiply ab c = .ok l →
        ctx.multiply b c = .ok bc → ctx.multiply a bc = .ok r → l.parts = r.parts) ∧
      ∀ bc ab ac l r, ctx.add b c = .ok bc → ctx.multiply a bc = .ok l →
        ctx.multiply a b = .ok ab → ctx.multiply a c = .ok ac → ctx.add ab ac = .ok r →
          l.parts = r.parts := by
  have hw := h.fitWordsAt a.level
  refine ⟨fun l r hl hr => ?_, fun ab bc l r hab hl hbc hr => ?_, fun l r hl hr => ?_,
    fun ab bc l r hab hl hbc hr => ?_, fun bc ab ac l r hbc hl hab hac hr => ?_⟩
  · obtain ⟨hlevel, -, hleft⟩ := parts_add h ha rfl hl
    obtain ⟨-, -, hright⟩ := parts_add h hb hlevel hr
    rw [hleft, hright, addParts_comm hw ha.canonical (hb.canonicalAt hlevel)]
  · obtain ⟨hlevel, hab', hsum⟩ := parts_add h ha rfl hab
    obtain ⟨hlevel', -, hleft⟩ := parts_add h (add_spec h ha hb hab).1 hab' hl
    obtain ⟨-, -, hsum'⟩ := parts_add h hb hlevel hbc
    obtain ⟨-, -, hright⟩ := parts_add h ha rfl hr
    rw [hleft, hright, hsum, hsum', addParts_assoc hw ha.canonical (hb.canonicalAt hlevel)
      (hc.canonicalAt hlevel')]
  · obtain ⟨hlevel, -, hleft⟩ := parts_multiply h ha rfl hl
    obtain ⟨-, -, hright⟩ := parts_multiply h hb hlevel hr
    rw [hleft, hright, productParts_comm hw ha.canonical (hb.canonicalAt hlevel)]
  · obtain ⟨hlevel, hab', hproduct⟩ := parts_multiply h ha rfl hab
    obtain ⟨hlevel', -, hleft⟩ := parts_multiply h (multiply_spec h ha hb hab).1 hab' hl
    obtain ⟨-, -, hproduct'⟩ := parts_multiply h hb hlevel hbc
    obtain ⟨-, -, hright⟩ := parts_multiply h ha rfl hr
    rw [hleft, hright, hproduct, hproduct', productParts_assoc hw ha.canonical
      (hb.canonicalAt hlevel) (hc.canonicalAt hlevel') hb.parts_ne_nil]
  · obtain ⟨hlevel, hab', hproduct⟩ := parts_multiply h ha rfl hab
    obtain ⟨hlevel', -, hproduct'⟩ := parts_multiply h ha rfl hac
    obtain ⟨-, -, hsum⟩ := parts_add h hb hlevel hbc
    obtain ⟨-, -, hleft⟩ := parts_multiply h ha rfl hl
    obtain ⟨-, -, hright⟩ := parts_add h (multiply_spec h ha hb hab).1 hab' hr
    rw [hleft, hright, hsum, hproduct, hproduct', productParts_addParts hw ha.canonical
      (hb.canonicalAt hlevel) (hc.canonicalAt hlevel') ha.parts_ne_nil]

/-- The laws for two parts, three parts and their sum over the small context, where every call
succeeds. -/
theorem add_multiply_laws_small :
    ∃ c c' cc bc abc p p' pc q aq abc' ac psum : Ciphertext, small.Owns c ∧
      small.add (.small false) (.small true) = .ok c ∧
      small.add (.small true) (.small false) = .ok c' ∧ c.parts = c'.parts ∧
      small.add c c = .ok cc ∧ small.add (.small true) c = .ok bc ∧
      small.add (.small false) bc = .ok abc ∧ cc.parts = abc.parts ∧
      small.multiply (.small false) (.small true) = .ok p ∧
      small.multiply (.small true) (.small false) = .ok p' ∧ p.parts = p'.parts ∧
      small.multiply p c = .ok pc ∧ small.multiply (.small true) c = .ok q ∧
      small.multiply (.small false) q = .ok aq ∧ pc.parts = aq.parts ∧
      small.multiply (.small false) bc = .ok abc' ∧ small.multiply (.small false) c = .ok ac ∧
      small.add p ac = .ok psum ∧ abc'.parts = psum.parts := by
  obtain ⟨c, c', cc, bc, abc, p, p', pc, q, aq, abc', ac, psum, hc, hc', hcc, hbc, habc, hp, hp',
      hpc, hq, haq, habc', hac, hpsum⟩ :
      ∃ c c' cc bc abc p p' pc q aq abc' ac psum : Ciphertext,
        small.add (.small false) (.small true) = .ok c ∧
        small.add (.small true) (.small false) = .ok c' ∧ small.add c c = .ok cc ∧
        small.add (.small true) c = .ok bc ∧ small.add (.small false) bc = .ok abc ∧
        small.multiply (.small false) (.small true) = .ok p ∧
        small.multiply (.small true) (.small false) = .ok p' ∧ small.multiply p c = .ok pc ∧
        small.multiply (.small true) c = .ok q ∧ small.multiply (.small false) q = .ok aq ∧
        small.multiply (.small false) bc = .ok abc' ∧ small.multiply (.small false) c = .ok ac ∧
        small.add p ac = .ok psum :=
    ⟨_, _, _, _, _, _, _, _, _, _, _, _, _, rfl, rfl, rfl, rfl, rfl, rfl, rfl, rfl, rfl, rfl, rfl, rfl,
      rfl⟩
  have hown := (add_spec made_small (owns_small false) (owns_small true) hc).1
  obtain ⟨haddComm, haddAssoc, hmulComm, hmulAssoc, hdistrib⟩ :=
    add_multiply_laws made_small (owns_small false) (owns_small true) hown
  exact ⟨c, c', cc, bc, abc, p, p', pc, q, aq, abc', ac, psum, hown, hc, hc', haddComm _ _ hc hc',
    hcc, hbc, habc, haddAssoc _ _ _ _ hc hcc hbc habc, hp, hp', hmulComm _ _ hp hp', hpc, hq, haq,
    hmulAssoc _ _ _ _ hp hpc hq haq, habc', hac, hpsum,
    hdistrib _ _ _ _ _ hbc habc' hp hac hpsum⟩

end Context

end EncryptedReals

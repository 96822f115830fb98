import EncryptedReals.Evaluation
import EncryptedReals.Proofs.Decryption

/-!
# What the operations do to phases

Every operation without a key is exact: it acts on the phase of its operands, entry by
entry, as the ring operation it stands for.  Each has one lemma (`add_spec`,
`multiply_spec`, …) that also says that a well-formed result comes out and at which
level.

The sizes of the operands are free.  A sum pads the shorter list of parts with zeros,
which `horner` does not see; the parts of a product are the coefficients of the product of
two polynomials whose coefficients are the parts (`horner_convolution`).

## Design Notes

The phase is taken at any polynomial, not only at a secret.  The operations know
nothing of the secret.
-/

namespace EncryptedReals

open Finset Polynomial

/-! ### Products of lists -/

section Convolution

variable {R : Type} [CommRing R]

/-- The polynomial with the given coefficients. -/
noncomputable def listPoly : List R → R[X]
  | [] => 0
  | a :: as => listPoly as * X + C a

theorem eval_listPoly (x : R) (as : List R) : (listPoly as).eval x = horner x as := by
  induction as with
  | nil => rw [listPoly, eval_zero, horner_nil]
  | cons a as ih => rw [listPoly, eval_add, eval_mul, eval_X, eval_C, ih, horner_cons]

theorem coeff_listPoly : ∀ (as : List R) (k : ℕ), (listPoly as).coeff k = as.getD k 0 := by
  intro as
  induction as with
  | nil => intro k; rw [listPoly, coeff_zero, List.getD_nil]
  | cons a as ih =>
      intro k
      cases k with
      | zero =>
          rw [listPoly, coeff_add, coeff_mul_X_zero, zero_add, coeff_C_zero, List.getD_cons_zero]
      | succ k =>
          rw [listPoly, coeff_add, coeff_mul_X, coeff_C_succ, add_zero, ih, List.getD_cons_succ]

/-- Coefficient `k` of the product of two lists. -/
def convolution (as bs : List R) (k : ℕ) : R :=
  ∑ i ∈ range (k + 1), as.getD i 0 * bs.getD (k - i) 0

theorem listPoly_convolution (as bs : List R) :
    listPoly ((List.range (as.length + bs.length - 1)).map (convolution as bs)) =
      listPoly as * listPoly bs := by
  refine Polynomial.ext fun k => ?_
  have hproduct : (listPoly as * listPoly bs).coeff k = convolution as bs k := by
    rw [coeff_mul, Finset.Nat.sum_antidiagonal_eq_sum_range_succ_mk]
    exact sum_congr rfl fun i _ => by rw [coeff_listPoly, coeff_listPoly]
  rw [coeff_listPoly, hproduct, List.getD_eq_getElem?_getD, List.getElem?_map]
  by_cases hk : k < as.length + bs.length - 1
  · rw [List.getElem?_range hk, Option.map_some, Option.getD_some]
  · -- past the end one of the two lists has no entry
    rw [List.getElem?_eq_none (by rw [List.length_range]; omega), Option.map_none, Option.getD_none]
    refine (sum_eq_zero fun i hi => ?_).symm
    have hik : i ≤ k := by
      have := mem_range.mp hi
      omega
    by_cases hi : i < as.length
    · rw [List.getD_eq_default bs 0 (by omega), mul_zero]
    · rw [List.getD_eq_default as 0 (by omega), zero_mul]

/-- **The value of a product of lists** is the product of the values. -/
theorem horner_convolution (x : R) (as bs : List R) :
    horner x ((List.range (as.length + bs.length - 1)).map (convolution as bs)) =
      horner x as * horner x bs := by
  rw [← eval_listPoly, ← eval_listPoly, ← eval_listPoly, listPoly_convolution, eval_mul]

end Convolution

/-! ### Lists of parts -/

theorem map_overlay {α β γ δ : Type} {P : α → Prop} {Q : β → Prop} {f : α → β → α}
    {g : γ → δ → γ} {u : α → γ} {v : β → δ} (h : ∀ a b, P a → Q b → u (f a b) = g (u a) (v b)) :
    ∀ {as : List α} {bs : List β}, (∀ a ∈ as, P a) → (∀ b ∈ bs, Q b) →
      (overlay f as bs).map u = overlay g (as.map u) (bs.map v) := by
  intro as
  induction as with
  | nil => intro bs _ _; rfl
  | cons a as ih =>
      intro bs has hbs
      cases bs with
      | nil => rfl
      | cons b bs =>
          rw [List.forall_mem_cons] at has hbs
          rw [overlay, List.map_cons, List.map_cons, List.map_cons, overlay, h a b has.1 hbs.1,
            ih has.2 hbs.2]

namespace Context

variable {ctx : Context} {a b ct : Ciphertext} {pt : Plaintext} {moduli : List Modulus}
  {n i k level : ℕ} {q : Modulus} {s : ResiduePoly}

/-! ### Sums -/

theorem checkSummands_ok (h : checkSummands a b = .ok ()) : a.level = b.level := by
  simp only [checkSummands, throw_bind, check_eq_ok, bne_iff_ne, ne_eq, not_not] at h
  exact h.1

/-- A sum has as many parts as its longer summand. -/
theorem length_addParts (moduli : List Modulus) (zero : ResiduePoly) (as bs : List ResiduePoly) :
    (addParts moduli zero as bs).length = max as.length bs.length := by
  rw [addParts, length_overlay, List.length_append, List.length_replicate]
  omega

section Parts

variable {as bs : List ResiduePoly} (hw : FitWords moduli)
  (has : ∀ p ∈ as, p.Canonical n moduli) (hbs : ∀ p ∈ bs, p.Canonical n moduli)

include hw has hbs

theorem canonical_addParts :
    ∀ p ∈ addParts moduli (.zero n moduli.length) as bs, p.Canonical n moduli := by
  refine forall_mem_overlay (Q := fun p => p.Canonical n moduli)
    (fun p r hp hr => hp.add hw hr) ?_ hbs
  intro p hp
  rcases List.mem_append.mp hp with hp | hp
  · exact has p hp
  · rw [List.eq_of_mem_replicate hp]
    exact ResiduePoly.canonical_zero hw

/-- **A sum of parts**, the shorter list padded, has the sum of the phases. -/
theorem phase_addParts (hq : moduli[i]? = some q) (hk : k < n) (s : ResiduePoly) :
    phase q i k s (addParts moduli (.zero n moduli.length) as bs) =
      phase q i k s as + phase q i k s bs := by
  have hpadded : ∀ p ∈ as ++ List.replicate (bs.length - as.length) (.zero n moduli.length),
      p.Canonical n moduli := by
    intro p hp
    rcases List.mem_append.mp hp with hp | hp
    · exact has p hp
    · rw [List.eq_of_mem_replicate hp]
      exact ResiduePoly.canonical_zero hw
  rw [phase, addParts, map_overlay (g := fun x y => x + y) (v := fun p => p.value q i k)
    (fun p r hp hr => ResiduePoly.value_add hw hp hr hq hk) hpadded hbs, List.map_append,
    List.map_replicate, ResiduePoly.value_zero hq hk, horner_overlay_add _ ?_,
    horner_append_zeros, phase, phase]
  rw [List.length_append, List.length_map, List.length_map, List.length_replicate]
  omega

end Parts

/-- **Addition** adds phases, whatever the sizes. -/
theorem add_spec (h : ctx.Made) (ha : ctx.Owns a) (hb : ctx.Owns b) (hadd : ctx.add a b = .ok ct) :
    ctx.Owns ct ∧ a.level = b.level ∧ ct.level = a.level ∧
      ∀ (i : ℕ) (q : Modulus), (ctx.moduliAt a.level)[i]? = some q → ∀ k < ctx.degree,
        ∀ s, phase q i k s ct.parts = phase q i k s a.parts + phase q i k s b.parts := by
  simp only [add, bind_eq_ok, pure_eq_ok] at hadd
  obtain ⟨⟨⟩, -, ⟨⟩, -, ⟨⟩, hsummands, rfl⟩ := hadd
  have hlevel := checkSummands_ok hsummands
  have hw := h.fitWordsAt a.level
  have hb' : ∀ p ∈ b.parts, p.Canonical ctx.degree (ctx.moduliAt a.level) := hlevel ▸ hb.canonical
  have hlength := h.length_moduliAt ha.level_le
  refine ⟨⟨ha.owner_eq, ha.level_le, ?_, ?_⟩, hlevel, rfl, fun i q hq k hk s => ?_⟩
  · have hsize := ha.two_le_size
    rw [Ciphertext.size] at hsize ⊢
    rw [addParts, length_overlay, List.length_append]
    omega
  · rw [← hlength]
    exact canonical_addParts hw ha.canonical hb'
  · rw [← hlength]
    exact phase_addParts hw ha.canonical hb' hq hk s

/-- **A sum into the left operand** leaves there what addition returns.  Where addition fails, it
fails in the same way and leaves the operand alone: all checks come before the first change. -/
theorem run_addInPlace_eq (a b : Ciphertext) : (ctx.addInPlace b).run.run a =
    match ctx.add a b with
    | .ok sum => (.ok (), sum)
    | .error e => (.error e, a) := by
  have hread : (getThe Ciphertext : ExceptT Failure (StateM Ciphertext) Ciphertext).run.run a =
      (.ok a, a) :=
    rfl
  rw [addInPlace, add, run_bind_eq hread, run_liftM_bind]
  cases ctx.checkOwned a with
  | error e => rfl
  | ok u =>
      dsimp only
      rw [run_liftM_bind]
      cases ctx.checkOwned b with
      | error e => rfl
      | ok v =>
          dsimp only
          rw [run_liftM_bind]
          cases checkSummands a b with
          | error e => rfl
          | ok w => rfl

/-- **Negation** negates the phase. -/
theorem negate_spec (h : ctx.Made) (ha : ctx.Owns a) (hneg : ctx.negate a = .ok ct) :
    ctx.Owns ct ∧ ct.level = a.level ∧
      ∀ (i : ℕ) (q : Modulus), (ctx.moduliAt a.level)[i]? = some q → ∀ k < ctx.degree,
        ∀ s, phase q i k s ct.parts = -phase q i k s a.parts := by
  simp only [negate, bind_eq_ok, pure_eq_ok] at hneg
  obtain ⟨⟨⟩, -, rfl⟩ := hneg
  have hw := h.fitWordsAt a.level
  refine ⟨⟨ha.owner_eq, ha.level_le, ?_, ?_⟩, rfl, fun i q hq k hk s => ?_⟩
  · rw [Ciphertext.size, List.length_map]
    exact ha.two_le_size
  · exact List.forall_mem_map.mpr fun p hp => (ha.canonical p hp).neg hw
  · rw [phase, phase, ← horner_map_neg, List.map_map, List.map_map]
    refine congrArg (horner _) (List.map_congr_left fun p hp => ?_)
    exact ResiduePoly.value_neg hw (ha.canonical p hp) hq hk

/-- **Subtraction** subtracts phases. -/
theorem sub_spec (h : ctx.Made) (ha : ctx.Owns a) (hb : ctx.Owns b) (hsub : ctx.sub a b = .ok ct) :
    ctx.Owns ct ∧ a.level = b.level ∧ ct.level = a.level ∧
      ∀ (i : ℕ) (q : Modulus), (ctx.moduliAt a.level)[i]? = some q → ∀ k < ctx.degree,
        ∀ s, phase q i k s ct.parts = phase q i k s a.parts - phase q i k s b.parts := by
  simp only [sub, bind_eq_ok] at hsub
  obtain ⟨negated, hnegate, hadd⟩ := hsub
  obtain ⟨hnegated, hnegatedLevel, hnegatedPhase⟩ := negate_spec h hb hnegate
  obtain ⟨hct, hlevel, hctLevel, hphase⟩ := add_spec h ha hnegated hadd
  have hab : a.level = b.level := hlevel.trans hnegatedLevel
  refine ⟨hct, hab, hctLevel, fun i q hq k hk s => ?_⟩
  rw [hphase i q hq k hk s, hnegatedPhase i q (hab ▸ hq) k hk s, sub_eq_add_neg]

/-! ### Products -/

/-- One more product of parts whose indices add up to `k`. -/
def addProduct (moduli : List Modulus) (as bs : List ResiduePoly) (k : ℕ) (acc : ResiduePoly)
    (i : ℕ) : ResiduePoly :=
  match as[i]?, bs[k - i]? with
  | some p, some r => acc.addMul moduli p r
  | _, _ => acc

theorem productPart_eq (moduli : List Modulus) (zero : ResiduePoly) (as bs : List ResiduePoly)
    (k : ℕ) :
    productPart moduli zero as bs k = (List.range (k + 1)).foldl (addProduct moduli as bs k) zero :=
  rfl

section Parts

variable {as bs : List ResiduePoly} (hw : FitWords moduli)
  (has : ∀ p ∈ as, p.Canonical n moduli) (hbs : ∀ p ∈ bs, p.Canonical n moduli)

include hw has hbs

/-- A product that is added adds the product of the entries; a missing part counts as zero. -/
theorem addProduct_spec {acc : ResiduePoly} (hacc : acc.Canonical n moduli) (k m : ℕ) :
    (addProduct moduli as bs k acc m).Canonical n moduli ∧
      ∀ (i : ℕ) (q : Modulus), moduli[i]? = some q → ∀ j < n,
        (addProduct moduli as bs k acc m).value q i j = acc.value q i j +
          (as.map fun p => p.value q i j).getD m 0 *
            (bs.map fun p => p.value q i j).getD (k - m) 0 := by
  have hentry : ∀ (i : ℕ) (q : Modulus) (j : ℕ) (cs : List ResiduePoly) (l : ℕ),
      (cs.map fun p => p.value q i j).getD l 0 = (cs[l]?.map fun p => p.value q i j).getD 0 := by
    intro i q j cs l
    rw [List.getD_eq_getElem?_getD, List.getElem?_map]
  simp only [hentry, addProduct]
  cases ha : as[m]? with
  | none =>
      refine ⟨hacc, fun i q _ j _ => ?_⟩
      rw [Option.map_none, Option.getD_none, zero_mul, add_zero]
  | some p =>
      cases hb : bs[k - m]? with
      | none =>
          refine ⟨hacc, fun i q _ j _ => ?_⟩
          rw [Option.map_none, Option.getD_none, mul_zero, add_zero]
      | some r =>
          have hp := has p (List.mem_of_getElem? ha)
          have hr := hbs r (List.mem_of_getElem? hb)
          have hmul := hp.mul hw hr
          simp only [ResiduePoly.addMul_eq hacc hp hr]
          refine ⟨hacc.add hw hmul, fun i q hq j hj => ?_⟩
          rw [ResiduePoly.value_add hw hacc hmul hq hj, ResiduePoly.value_mul hp hr hq hj,
            Option.map_some, Option.map_some, Option.getD_some, Option.getD_some]

/-- The sum of the first products, by induction on their number. -/
theorem foldl_addProduct (k : ℕ) :
    ∀ m : ℕ, ∃ acc, acc = (List.range m).foldl (addProduct moduli as bs k)
          (.zero n moduli.length) ∧ acc.Canonical n moduli ∧
        ∀ (i : ℕ) (q : Modulus), moduli[i]? = some q → ∀ j < n,
          acc.value q i j = ∑ l ∈ range m, (as.map fun p => p.value q i j).getD l 0 *
            (bs.map fun p => p.value q i j).getD (k - l) 0 := by
  intro m
  induction m with
  | zero =>
      refine ⟨_, rfl, ResiduePoly.canonical_zero hw, fun i q hq j hj => ?_⟩
      rw [range_zero, sum_empty]
      exact ResiduePoly.value_zero hq hj
  | succ m ih =>
      obtain ⟨acc, hacc, hcanonical, hvalue⟩ := ih
      obtain ⟨hcanonical', hvalue'⟩ := addProduct_spec hw has hbs hcanonical k m
      refine ⟨addProduct moduli as bs k acc m, ?_, hcanonical', fun i q hq j hj => ?_⟩
      · rw [List.range_succ, List.foldl_append, List.foldl_cons, List.foldl_nil, ← hacc]
      · rw [hvalue' i q hq j hj, hvalue i q hq j hj, sum_range_succ]

theorem canonical_productPart (k : ℕ) :
    (productPart moduli (.zero n moduli.length) as bs k).Canonical n moduli := by
  obtain ⟨acc, hacc, hcanonical, -⟩ := foldl_addProduct hw has hbs k (k + 1)
  rw [productPart_eq, ← hacc]
  exact hcanonical

/-- **A part of a product** is a coefficient of the product of the lists of parts. -/
theorem value_productPart (k : ℕ) {j : ℕ} (hq : moduli[i]? = some q) (hj : j < n) :
    (productPart moduli (.zero n moduli.length) as bs k).value q i j =
      convolution (as.map fun p => p.value q i j) (bs.map fun p => p.value q i j) k := by
  obtain ⟨acc, hacc, -, hvalue⟩ := foldl_addProduct hw has hbs k (k + 1)
  rw [productPart_eq, ← hacc, hvalue i q hq j hj, convolution]

/-- The entries of the parts of a product are the product of the lists of entries. -/
theorem map_value_productPart (hq : moduli[i]? = some q) (hk : k < n) :
    ((List.range (as.length + bs.length - 1)).map
        (productPart moduli (.zero n moduli.length) as bs)).map (fun p => p.value q i k) =
      (List.range ((as.map fun p => p.value q i k).length +
          (bs.map fun p => p.value q i k).length - 1)).map
        (convolution (as.map fun p => p.value q i k) (bs.map fun p => p.value q i k)) := by
  rw [List.map_map, List.length_map, List.length_map]
  exact List.map_congr_left fun l _ => value_productPart hw has hbs l hq hk

/-- **The parts of a product** have the product of the phases. -/
theorem phase_product (hq : moduli[i]? = some q) (hk : k < n) (s : ResiduePoly) :
    phase q i k s ((List.range (as.length + bs.length - 1)).map
        (productPart moduli (.zero n moduli.length) as bs)) =
      phase q i k s as * phase q i k s bs := by
  rw [phase, map_value_productPart hw has hbs hq hk, horner_convolution, phase, phase]

end Parts

/-- **Multiplication** multiplies phases, whatever the sizes. -/
theorem multiply_spec (h : ctx.Made) (ha : ctx.Owns a) (hb : ctx.Owns b)
    (hmul : ctx.multiply a b = .ok ct) :
    ctx.Owns ct ∧ a.level = b.level ∧ ct.level = a.level ∧
      ∀ (i : ℕ) (q : Modulus), (ctx.moduliAt a.level)[i]? = some q → ∀ k < ctx.degree,
        ∀ s, phase q i k s ct.parts = phase q i k s a.parts * phase q i k s b.parts := by
  simp only [multiply, throw_bind, check_eq_ok, bind_eq_ok, pure_eq_ok, bne_iff_ne, ne_eq,
    not_not] at hmul
  obtain ⟨⟨⟩, -, ⟨⟩, -, hlevel, ⟨⟩, -, rfl⟩ := hmul
  have hw := h.fitWordsAt a.level
  have hb' : ∀ p ∈ b.parts, p.Canonical ctx.degree (ctx.moduliAt a.level) := hlevel ▸ hb.canonical
  have hlength := h.length_moduliAt ha.level_le
  refine ⟨⟨ha.owner_eq, ha.level_le, ?_, ?_⟩, hlevel, rfl, fun i q hq k hk s => ?_⟩
  · have hsizea := ha.two_le_size
    have hsizeb := hb.two_le_size
    rw [Ciphertext.size, List.length_map, List.length_range]
    omega
  · rw [← hlength]
    exact List.forall_mem_map.mpr fun l _ => canonical_productPart hw ha.canonical hb' l
  · rw [← hlength]
    exact phase_product hw ha.canonical hb' hq hk s

/-! ### Levels -/

/-- **Switching to a lower level** keeps the phase in the limbs that remain. -/
theorem switchTo_spec (ha : ctx.Owns a) (hswitch : ctx.switchTo a level = .ok ct) :
    ctx.Owns ct ∧ level ≤ a.level ∧ ct.level = level ∧
      ∀ (i : ℕ) (q : Modulus), (ctx.moduliAt level)[i]? = some q → ∀ k < ctx.degree,
        ∀ s, phase q i k s ct.parts = phase q i k s a.parts := by
  simp only [switchTo, throw_bind, check_eq_ok, bind_eq_ok, pure_eq_ok, not_lt] at hswitch
  obtain ⟨⟨⟩, -, hlevel, rfl⟩ := hswitch
  refine ⟨⟨ha.owner_eq, hlevel.trans ha.level_le, ?_, ?_⟩, hlevel, rfl, fun i q hq k hk s => ?_⟩
  · rw [Ciphertext.size, List.length_map]
    exact ha.two_le_size
  · refine List.forall_mem_map.mpr fun p hp => ?_
    rw [← ctx.take_moduliAt hlevel]
    exact (ha.canonical p hp).truncate (level + 1)
  · have hi : i < level + 1 := Nat.lt_succ_of_le (Parameters.getElem?_moduliAt.mp hq).1
    rw [phase, phase, List.map_map]
    exact congrArg (horner _) (List.map_congr_left fun p _ => p.value_truncate q hi)

/-! ### Plaintext operands -/

/-- **Multiplication by a plaintext** multiplies the phase by its entries. -/
theorem multiplyPlain_spec (h : ctx.Made) (ha : ctx.Owns a)
    (hpt : pt.poly.Canonical ctx.degree (ctx.moduliAt pt.level))
    (hmul : ctx.multiplyPlain a pt = .ok ct) :
    ctx.Owns ct ∧ pt.level = a.level ∧ ct.level = a.level ∧
      ∀ (i : ℕ) (q : Modulus), (ctx.moduliAt a.level)[i]? = some q → ∀ k < ctx.degree,
        ∀ s, phase q i k s ct.parts = phase q i k s a.parts * pt.poly.value q i k := by
  simp only [multiplyPlain, throw_bind, check_eq_ok, bind_eq_ok, pure_eq_ok, bne_iff_ne, ne_eq,
    not_not] at hmul
  obtain ⟨⟨⟩, -, hlevel, ⟨⟩, -, rfl⟩ := hmul
  have hw := h.fitWordsAt a.level
  rw [hlevel] at hpt
  refine ⟨⟨ha.owner_eq, ha.level_le, ?_, ?_⟩, hlevel, rfl, fun i q hq k hk s => ?_⟩
  · rw [Ciphertext.size, List.length_map]
    exact ha.two_le_size
  · exact List.forall_mem_map.mpr fun p hp => (ha.canonical p hp).mul hw hpt
  · rw [phase, phase, ← horner_map_mul, List.map_map, List.map_map]
    refine congrArg (horner _) (List.map_congr_left fun p hp => ?_)
    exact ResiduePoly.value_mul (ha.canonical p hp) hpt hq hk

/-- **Addition of a plaintext** adds its entries to the phase. -/
theorem addPlain_spec (h : ctx.Made) (ha : ctx.Owns a)
    (hpt : pt.poly.Canonical ctx.degree (ctx.moduliAt pt.level))
    (hadd : ctx.addPlain a pt = .ok ct) :
    ctx.Owns ct ∧ pt.level = a.level ∧ ct.level = a.level ∧
      ∀ (i : ℕ) (q : Modulus), (ctx.moduliAt a.level)[i]? = some q → ∀ k < ctx.degree,
        ∀ s, phase q i k s ct.parts = phase q i k s a.parts + pt.poly.value q i k := by
  simp only [addPlain, throw_bind, check_eq_ok, bind_eq_ok, Bool.or_eq_true, bne_iff_ne, ne_eq,
    not_or, not_not] at hadd
  obtain ⟨⟨⟩, -, ⟨hlevel, -⟩, hresult⟩ := hadd
  have hw := h.fitWordsAt a.level
  rw [hlevel] at hpt
  cases hparts : a.parts with
  | nil => exact absurd hparts ha.parts_ne_nil
  | cons c0 rest =>
      have hcanonical := ha.canonical
      rw [hparts, List.forall_mem_cons] at hcanonical
      rw [hparts, pure_eq_ok] at hresult
      subst hresult
      refine ⟨⟨ha.owner_eq, ha.level_le, ?_, ?_⟩, hlevel, rfl, fun i q hq k hk s => ?_⟩
      · have hsize := ha.two_le_size
        rw [Ciphertext.size, hparts] at hsize
        exact hsize
      · exact List.forall_mem_cons.mpr ⟨hcanonical.1.add hw hpt, hcanonical.2⟩
      · rw [phase, phase, List.map_cons, List.map_cons, horner_cons, horner_cons,
          ResiduePoly.value_add hw hcanonical.1 hpt hq hk, add_assoc]

end Context

end EncryptedReals

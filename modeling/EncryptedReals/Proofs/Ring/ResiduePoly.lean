import EncryptedReals.Proofs.Ring.Transform

/-!
# Polynomials by residues, limb by limb

A polynomial is *canonical* over a list of moduli when it has one limb for each,
of the declared number of coefficients, all of them canonical residues.  The
operations keep polynomials canonical, and each acts on every entry of every
limb as the ring of the limb's modulus does (`value_add`, `value_mul`, …).  The
values determine a canonical polynomial (`Canonical.ext`), so that equations
between polynomials are proved entry by entry.

## Main Definitions

* `ResiduePoly.Canonical` — the shape, with canonical residues
* `ResiduePoly.value` — an entry, in the ring of the modulus of its limb
* `Transform.Cover` — a lawful transform for each modulus

## Design Notes

A modulus comes in through its index: `moduli[i]? = some q`.  Where a transform is
at hand the modulus is `t.modulus`, so that the points of the transform and the
values of a limb live in one ring without a cast.
-/

namespace EncryptedReals

/-- Every modulus is positive and leaves a bit of its word free. -/
def FitWords (moduli : List Modulus) : Prop :=
  ∀ q ∈ moduli, 0 < q.value ∧ q.value < 2 ^ 63

/-- Every modulus is a word. -/
def AreWords (moduli : List Modulus) : Prop :=
  ∀ q ∈ moduli, q.value < 2 ^ 64

theorem FitWords.areWords {moduli : List Modulus} (h : FitWords moduli) : AreWords moduli :=
  fun q hq => (h q hq).2.trans (by norm_num)

/-- **Each modulus has a lawful transform** of length `n` at its index. -/
def Transform.Cover (n : ℕ) (moduli : List Modulus) (transforms : List Transform) : Prop :=
  ∀ (i : ℕ) (q : Modulus), moduli[i]? = some q →
    ∃ t : Transform, transforms[i]? = some t ∧ t.modulus = q ∧ t.size = n ∧ ∃ psi, t.Lawful psi

theorem Transform.Cover.fitWords {n : ℕ} {moduli : List Modulus} {transforms : List Transform}
    (h : Transform.Cover n moduli transforms) : FitWords moduli := by
  intro q hq
  obtain ⟨i, hi⟩ := List.mem_iff_getElem?.mp hq
  obtain ⟨t, -, rfl, -, psi, ht⟩ := h i q hi
  exact ⟨ht.pos, ht.small⟩

/-- **What is combined at an index** is what the left list has there, with what the right list has. -/
theorem getElem?_overlay_eq {α β : Type} (f : α → β → α) :
    ∀ (as : List α) (bs : List β) (i : ℕ), (overlay f as bs)[i]? =
      as[i]?.map fun a => (bs[i]?.map (f a)).getD a := by
  intro as
  induction as with
  | nil => exact fun _ _ => rfl
  | cons a as ih =>
      intro bs i
      cases bs with
      | nil => simp [overlay]
      | cons b bs =>
          cases i with
          | zero => rfl
          | succ i => exact ih bs i

/-- Where both lists have a member, they are combined. -/
theorem getElem?_overlay {α β : Type} (f : α → β → α) {as : List α} {bs : List β} {i : ℕ} {a : α}
    {b : β} (ha : as[i]? = some a) (hb : bs[i]? = some b) : (overlay f as bs)[i]? = some (f a b) := by
  rw [getElem?_overlay_eq, ha, hb]
  rfl

/-- Two lists taken together have what both have at an index. -/
theorem getElem?_zip {α β : Type} (as : List α) (bs : List β) (i : ℕ) :
    (as.zip bs)[i]? = as[i]?.bind fun a => bs[i]?.map (Prod.mk a) := by
  rw [List.zip, List.getElem?_zipWith]
  cases as[i]? <;> cases bs[i]? <;> rfl

theorem length_overlay {α β : Type} (f : α → β → α) :
    ∀ (as : List α) (bs : List β), (overlay f as bs).length = as.length := by
  intro as
  induction as with
  | nil => intro bs; rfl
  | cons a as ih =>
      intro bs
      cases bs with
      | nil => rfl
      | cons b bs => rw [overlay, List.length_cons, List.length_cons, ih]

/-- What holds of both lists' members and is kept by combining holds of every member. -/
theorem forall_mem_overlay {α β : Type} {P : α → Prop} {Q : β → Prop} {f : α → β → α}
    (hf : ∀ a b, P a → Q b → P (f a b)) :
    ∀ {as : List α} {bs : List β}, (∀ a ∈ as, P a) → (∀ b ∈ bs, Q b) →
      ∀ c ∈ overlay f as bs, P c := by
  intro as
  induction as with
  | nil => intro bs _ _ c hc; simp [overlay] at hc
  | cons a as ih =>
      intro bs has hbs
      cases bs with
      | nil => exact has
      | cons b bs =>
          rw [List.forall_mem_cons] at has hbs
          rw [overlay, List.forall_mem_cons]
          exact ⟨hf a b has.1 hbs.1, ih has.2 hbs.2⟩

namespace ResiduePoly

variable {n i : ℕ} {q : Modulus} {moduli : List Modulus} {p r : ResiduePoly}

/-! ### Limbs and entries -/

/-- A limb, empty where there is none. -/
def limb (p : ResiduePoly) (i : ℕ) : Array ℕ :=
  p.limbs.getD i #[]

/-- The entries of a limb in the ring of a modulus. -/
def value (p : ResiduePoly) (q : Modulus) (i k : ℕ) : ZMod q.value :=
  q.view (p.limb i) k

theorem limb_eq_of_getElem? {a : Array ℕ} (h : p.limbs[i]? = some a) : p.limb i = a := by
  rw [limb, List.getD_eq_getElem?_getD, h, Option.getD_some]

theorem getElem?_limbs (h : i < p.limbs.length) : p.limbs[i]? = some (p.limb i) := by
  rw [limb, List.getD_eq_getElem?_getD, List.getElem?_eq_getElem h, Option.getD_some]

/-- **A polynomial of `n` coefficients with canonical residues** for each modulus. -/
structure Canonical (n : ℕ) (moduli : List Modulus) (p : ResiduePoly) : Prop where
  degree_eq : p.degree = n
  length_eq : p.limbs.length = moduli.length
  isVector : ∀ (i : ℕ) (q : Modulus), moduli[i]? = some q → q.IsVector n (p.limb i)

/-- The shape can be checked limb by limb. -/
theorem canonical_iff :
    p.Canonical n moduli ↔ p.degree = n ∧ p.limbs.length = moduli.length ∧
      ∀ x ∈ p.limbs.zip moduli, x.1.size = n ∧ ∀ k < n, x.1.getD k 0 < x.2.value := by
  constructor
  · intro h
    refine ⟨h.degree_eq, h.length_eq, fun x hx => ?_⟩
    obtain ⟨i, hi⟩ := List.mem_iff_getElem?.mp hx
    obtain ⟨hlimb, hq⟩ := List.getElem?_zip_eq_some.mp hi
    have hvector := h.isVector i x.2 hq
    rw [limb_eq_of_getElem? hlimb] at hvector
    exact ⟨hvector.size_eq, hvector.lt⟩
  · rintro ⟨hdegree, hlength, hlimbs⟩
    refine ⟨hdegree, hlength, fun i q hq => ?_⟩
    have hi : i < p.limbs.length := hlength ▸ (List.getElem?_eq_some_iff.mp hq).1
    have hzip : (p.limbs.zip moduli)[i]? = some (p.limb i, q) :=
      List.getElem?_zip_eq_some.mpr ⟨getElem?_limbs hi, hq⟩
    obtain ⟨hsize, hlt⟩ := hlimbs _ (List.mem_of_getElem? hzip)
    exact ⟨hsize, hlt⟩

instance : Decidable (p.Canonical n moduli) :=
  decidable_of_iff _ canonical_iff.symm

namespace Canonical

/-- There is a limb for each modulus. -/
theorem getElem? (hp : p.Canonical n moduli) (hq : moduli[i]? = some q) :
    p.limbs[i]? = some (p.limb i) := by
  refine getElem?_limbs ?_
  rw [hp.length_eq]
  exact (List.getElem?_eq_some_iff.mp hq).1

theorem getElem?_zip (hp : p.Canonical n moduli) (hq : moduli[i]? = some q) :
    (p.limbs.zip moduli)[i]? = some (p.limb i, q) :=
  List.getElem?_zip_eq_some.mpr ⟨hp.getElem? hq, hq⟩

/-- **The values determine a canonical polynomial.** -/
theorem ext (hp : p.Canonical n moduli) (hr : r.Canonical n moduli)
    (h : ∀ (i : ℕ) (q : Modulus), moduli[i]? = some q →
      ∀ k < n, p.value q i k = r.value q i k) : p = r := by
  have hlimbs : p.limbs = r.limbs := by
    refine List.ext_getElem? fun i => ?_
    cases hq : moduli[i]? with
    | none =>
        have hle := List.getElem?_eq_none_iff.mp hq
        rw [List.getElem?_eq_none (hp.length_eq ▸ hle), List.getElem?_eq_none (hr.length_eq ▸ hle)]
    | some q =>
        rw [hp.getElem? hq, hr.getElem? hq,
          (hp.isVector i q hq).ext (hr.isVector i q hq) (h i q hq)]
  cases p
  cases r
  cases hlimbs
  cases hp.degree_eq.trans hr.degree_eq.symm
  rfl

end Canonical

/-! ### Arithmetic -/

theorem limb_add (hp : p.Canonical n moduli) (hr : r.Canonical n moduli)
    (hq : moduli[i]? = some q) :
    (p.add moduli r).limb i = Array.zipWith q.add (p.limb i) (r.limb i) := by
  have hsize : (p.limb i).size ≤ (r.limb i).size := by
    rw [(hp.isVector i q hq).size_eq, (hr.isVector i q hq).size_eq]
  have hlimb : (p.add moduli r).limbs[i]? = some (overlayEntries q.add (p.limb i) (r.limb i)) := by
    rw [add, getElem?_overlay _ (hp.getElem? hq) (hr.getElem?_zip hq)]
  rw [limb_eq_of_getElem? hlimb, overlayEntries_eq_zipWith _ hsize]

theorem limb_sub (hp : p.Canonical n moduli) (hr : r.Canonical n moduli)
    (hq : moduli[i]? = some q) :
    (p.sub moduli r).limb i = Array.zipWith q.sub (p.limb i) (r.limb i) := by
  have hsize : (p.limb i).size ≤ (r.limb i).size := by
    rw [(hp.isVector i q hq).size_eq, (hr.isVector i q hq).size_eq]
  have hlimb : (p.sub moduli r).limbs[i]? = some (overlayEntries q.sub (p.limb i) (r.limb i)) := by
    rw [sub, getElem?_overlay _ (hp.getElem? hq) (hr.getElem?_zip hq)]
  rw [limb_eq_of_getElem? hlimb, overlayEntries_eq_zipWith _ hsize]

theorem limb_mul (hp : p.Canonical n moduli) (hr : r.Canonical n moduli)
    (hq : moduli[i]? = some q) :
    (p.mul moduli r).limb i = Array.zipWith q.mul (p.limb i) (r.limb i) := by
  refine limb_eq_of_getElem? ?_
  have hzip : (p.limbs.zip (r.limbs.zip moduli))[i]? = some (p.limb i, r.limb i, q) :=
    List.getElem?_zip_eq_some.mpr ⟨hp.getElem? hq, hr.getElem?_zip hq⟩
  rw [mul, List.getElem?_map, hzip]
  rfl

theorem limb_neg (hp : p.Canonical n moduli) (hq : moduli[i]? = some q) :
    (p.neg moduli).limb i = (p.limb i).map q.neg := by
  refine limb_eq_of_getElem? ?_
  rw [neg, List.getElem?_map, hp.getElem?_zip hq]
  rfl

namespace Canonical

theorem add (hw : FitWords moduli) (hp : p.Canonical n moduli) (hr : r.Canonical n moduli) :
    (p.add moduli r).Canonical n moduli := by
  refine ⟨hp.degree_eq, (length_overlay _ _ _).trans hp.length_eq, fun i q hq => ?_⟩
  rw [limb_add hp hr hq]
  exact (hp.isVector i q hq).add (hw q (List.mem_of_getElem? hq)).2 (hr.isVector i q hq)

theorem sub (hw : FitWords moduli) (hp : p.Canonical n moduli) (hr : r.Canonical n moduli) :
    (p.sub moduli r).Canonical n moduli := by
  refine ⟨hp.degree_eq, (length_overlay _ _ _).trans hp.length_eq, fun i q hq => ?_⟩
  rw [limb_sub hp hr hq]
  exact (hp.isVector i q hq).sub (hw q (List.mem_of_getElem? hq)).2 (hr.isVector i q hq)

theorem mul (hw : FitWords moduli) (hp : p.Canonical n moduli) (hr : r.Canonical n moduli) :
    (p.mul moduli r).Canonical n moduli := by
  refine ⟨hp.degree_eq, ?_, fun i q hq => ?_⟩
  · simp [ResiduePoly.mul, hp.length_eq, hr.length_eq]
  · rw [limb_mul hp hr hq]
    exact Modulus.IsVector.mul (hw q (List.mem_of_getElem? hq)).1 (hp.isVector i q hq).size_eq
      (hr.isVector i q hq).size_eq

theorem neg (hw : FitWords moduli) (hp : p.Canonical n moduli) :
    (p.neg moduli).Canonical n moduli := by
  refine ⟨hp.degree_eq, ?_, fun i q hq => ?_⟩
  · simp [ResiduePoly.neg, hp.length_eq]
  · rw [limb_neg hp hq]
    exact (hp.isVector i q hq).neg (hw q (List.mem_of_getElem? hq)).2

end Canonical

variable {k : ℕ}

theorem value_add (hw : FitWords moduli) (hp : p.Canonical n moduli) (hr : r.Canonical n moduli)
    (hq : moduli[i]? = some q) (hk : k < n) :
    (p.add moduli r).value q i k = p.value q i k + r.value q i k := by
  rw [value, limb_add hp hr hq, Modulus.view_add (hw q (List.mem_of_getElem? hq)).2
    (hp.isVector i q hq) (hr.isVector i q hq) hk, value, value]

theorem value_sub (hw : FitWords moduli) (hp : p.Canonical n moduli) (hr : r.Canonical n moduli)
    (hq : moduli[i]? = some q) (hk : k < n) :
    (p.sub moduli r).value q i k = p.value q i k - r.value q i k := by
  rw [value, limb_sub hp hr hq, Modulus.view_sub (hw q (List.mem_of_getElem? hq)).2
    (hp.isVector i q hq) (hr.isVector i q hq) hk, value, value]

theorem value_mul (hp : p.Canonical n moduli) (hr : r.Canonical n moduli)
    (hq : moduli[i]? = some q) (hk : k < n) :
    (p.mul moduli r).value q i k = p.value q i k * r.value q i k := by
  rw [value, limb_mul hp hr hq, Modulus.view_mul (hp.isVector i q hq).size_eq
    (hr.isVector i q hq).size_eq hk, value, value]

theorem value_neg (hw : FitWords moduli) (hp : p.Canonical n moduli) (hq : moduli[i]? = some q)
    (hk : k < n) : (p.neg moduli).value q i k = -p.value q i k := by
  rw [value, limb_neg hp hq, Modulus.view_neg (hw q (List.mem_of_getElem? hq)).2
    (hp.isVector i q hq) hk, value]

/-- Adding a product to an accumulator is adding the product. -/
theorem addMul_eq {acc : ResiduePoly} (hacc : acc.Canonical n moduli) (hp : p.Canonical n moduli)
    (hr : r.Canonical n moduli) : acc.addMul moduli p r = acc.add moduli (p.mul moduli r) := by
  have hlimbs : (acc.addMul moduli p r).limbs = (acc.add moduli (p.mul moduli r)).limbs := by
    refine List.ext_getElem? fun i => ?_
    cases hq : moduli[i]? with
    | none =>
        have hle : acc.limbs.length ≤ i := hacc.length_eq ▸ List.getElem?_eq_none_iff.mp hq
        rw [List.getElem?_eq_none, List.getElem?_eq_none]
        · rw [add, length_overlay]
          exact hle
        · rw [addMul, length_overlay]
          exact hle
    | some q =>
        have hzip : (p.limbs.zip (r.limbs.zip moduli))[i]? = some (p.limb i, r.limb i, q) :=
          List.getElem?_zip_eq_some.mpr ⟨hp.getElem? hq, hr.getElem?_zip hq⟩
        have hmul : (p.mul moduli r).limbs[i]? = some (mulEntries q (p.limb i) (r.limb i)) := by
          rw [mul, List.getElem?_map, hzip]
          rfl
        have hmulzip : ((p.mul moduli r).limbs.zip moduli)[i]? =
            some (mulEntries q (p.limb i) (r.limb i), q) :=
          List.getElem?_zip_eq_some.mpr ⟨hmul, hq⟩
        rw [addMul, add, getElem?_overlay _ (hacc.getElem? hq) hzip,
          getElem?_overlay _ (hacc.getElem? hq) hmulzip]
  exact congrArg (fun limbs => (⟨limbs, acc.degree⟩ : ResiduePoly)) hlimbs

/-! ### Zero, integers and prefixes -/

theorem canonical_zero (hw : FitWords moduli) : (zero n moduli.length).Canonical n moduli := by
  refine ⟨rfl, List.length_replicate, fun i q hq => ?_⟩
  have hi := (List.getElem?_eq_some_iff.mp hq).1
  rw [limb_eq_of_getElem? (a := Array.replicate n 0) (by simp [zero, hi])]
  exact Modulus.IsVector.replicate_zero (hw q (List.mem_of_getElem? hq)).1

theorem value_zero (hq : moduli[i]? = some q) (hk : k < n) :
    (zero n moduli.length).value q i k = 0 := by
  have hi := (List.getElem?_eq_some_iff.mp hq).1
  rw [value, limb_eq_of_getElem? (a := Array.replicate n 0) (by simp [zero, hi]),
    Modulus.view_replicate_zero hk]

theorem limb_ofInts (c : Array ℤ) (hq : moduli[i]? = some q) :
    (ofInts c moduli).limb i = c.map q.reduce := by
  refine limb_eq_of_getElem? ?_
  rw [ofInts, List.getElem?_map, hq]
  rfl

theorem canonical_ofInts (hw : FitWords moduli) (c : Array ℤ) :
    (ofInts c moduli).Canonical c.size moduli := by
  refine ⟨rfl, List.length_map _, fun i q hq => ?_⟩
  rw [limb_ofInts c hq]
  exact Modulus.IsVector.reduce (hw q (List.mem_of_getElem? hq)).1 c

theorem value_ofInts (hw : FitWords moduli) {c : Array ℤ} (hq : moduli[i]? = some q)
    (hk : k < c.size) : (ofInts c moduli).value q i k = (c.getD k 0 : ℤ) := by
  rw [value, limb_ofInts c hq, Modulus.view_reduce (hw q (List.mem_of_getElem? hq)).1 hk]

theorem limb_truncate (p : ResiduePoly) {l : ℕ} (hi : i < l) :
    (p.truncate l).limb i = p.limb i := by
  rw [limb, truncate, List.getD_eq_getElem?_getD, List.getElem?_take_of_lt hi,
    ← List.getD_eq_getElem?_getD, limb]

theorem value_truncate (p : ResiduePoly) (q : Modulus) {l : ℕ} (hi : i < l) :
    (p.truncate l).value q i k = p.value q i k := by
  rw [value, limb_truncate p hi, value]

theorem Canonical.truncate (hp : p.Canonical n moduli) (l : ℕ) :
    (p.truncate l).Canonical n (moduli.take l) := by
  refine ⟨hp.degree_eq, ?_, fun i q hq => ?_⟩
  · simp [ResiduePoly.truncate, hp.length_eq]
  · have hil : i < l := by
      have hlt := (List.getElem?_eq_some_iff.mp hq).1
      rw [List.length_take] at hlt
      omega
    rw [List.getElem?_take_of_lt hil] at hq
    rw [limb_truncate p hil]
    exact hp.isVector i q hq

/-! ### Transforms -/

section Transforms

variable {transforms : List Transform} {t : Transform} {psi : ZMod t.modulus.value}

theorem limb_forward (hp : i < p.limbs.length) (ht : transforms[i]? = some t) :
    (p.forward transforms).limb i = t.forward (p.limb i) :=
  limb_eq_of_getElem? (getElem?_overlay _ (getElem?_limbs hp) ht)

theorem limb_inverse (hp : i < p.limbs.length) (ht : transforms[i]? = some t) :
    (p.inverse transforms).limb i = t.inverse (p.limb i) :=
  limb_eq_of_getElem? (getElem?_overlay _ (getElem?_limbs hp) ht)

namespace Canonical

theorem length_lt (hp : p.Canonical n moduli) (hq : moduli[i]? = some q) : i < p.limbs.length := by
  rw [hp.length_eq]
  exact (List.getElem?_eq_some_iff.mp hq).1

theorem forward (hp : p.Canonical n moduli) (hcover : Transform.Cover n moduli transforms) :
    (p.forward transforms).Canonical n moduli := by
  refine ⟨hp.degree_eq, (length_overlay _ _ _).trans hp.length_eq, fun i q hq => ?_⟩
  obtain ⟨t, ht, rfl, rfl, psi, hlawful⟩ := hcover i q hq
  rw [limb_forward (hp.length_lt hq) ht]
  exact hlawful.isVector_forward (hp.isVector i _ hq)

theorem inverse (hp : p.Canonical n moduli) (hcover : Transform.Cover n moduli transforms) :
    (p.inverse transforms).Canonical n moduli := by
  refine ⟨hp.degree_eq, (length_overlay _ _ _).trans hp.length_eq, fun i q hq => ?_⟩
  obtain ⟨t, ht, rfl, rfl, psi, hlawful⟩ := hcover i q hq
  rw [limb_inverse (hp.length_lt hq) ht]
  exact hlawful.isVector_inverse (hp.isVector i _ hq)

/-- **Values of a limb** are the values of its polynomial at the points. -/
theorem value_forward (hp : p.Canonical n moduli) (hq : moduli[i]? = some t.modulus)
    (ht : transforms[i]? = some t) (hn : t.size = n) (hlawful : t.Lawful psi) {k : ℕ} (hk : k < n) :
    (p.forward transforms).value t.modulus i k =
      Negacyclic.eval n (p.value t.modulus i) (t.point psi k) := by
  subst hn
  rw [value, limb_forward (hp.length_lt hq) ht, hlawful.view_forward (hp.isVector i _ hq) hk]
  rfl

/-- **The coefficients of a limb** are those of any polynomial with its values. -/
theorem value_inverse_of_eval (hp : p.Canonical n moduli) (hq : moduli[i]? = some t.modulus)
    (ht : transforms[i]? = some t) (hn : t.size = n) (hlawful : t.Lawful psi)
    {c : ℕ → ZMod t.modulus.value}
    (hc : ∀ j < n, p.value t.modulus i j = Negacyclic.eval n c (t.point psi j)) {k : ℕ}
    (hk : k < n) : (p.inverse transforms).value t.modulus i k = c k := by
  subst hn
  rw [value, limb_inverse (hp.length_lt hq) ht]
  exact hlawful.view_inverse_of_eval (hp.isVector i _ hq) hc hk

/-- The coefficients of a limb have the values of the limb. -/
theorem eval_inverse (hp : p.Canonical n moduli) (hq : moduli[i]? = some t.modulus)
    (ht : transforms[i]? = some t) (hn : t.size = n) (hlawful : t.Lawful psi) {k : ℕ} (hk : k < n) :
    Negacyclic.eval n ((p.inverse transforms).value t.modulus i) (t.point psi k) =
      p.value t.modulus i k := by
  subst hn
  have hvalue : (p.inverse transforms).value t.modulus i =
      t.modulus.view (t.inverse (p.limb i)) := by
    funext j
    rw [value, limb_inverse (hp.length_lt hq) ht]
  rw [hvalue, hlawful.eval_inverse (hp.isVector i _ hq) hk, value]

end Canonical

end Transforms

end ResiduePoly

end EncryptedReals

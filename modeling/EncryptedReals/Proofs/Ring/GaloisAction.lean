import EncryptedReals.Proofs.Ring.Automorphism
import EncryptedReals.Proofs.Ring.Product

/-!
# The odd exponents act by ring automorphisms

Modulo `X ^ n + 1` the substitution of `X ^ g` keeps sums and products, substituting twice
multiplies the exponents, and so the inverse exponent modulo `2 * n` undoes it.  These laws are
read off the values at the class of `X`, where a substitution is a change of the point, and no
double sum over coefficients is ever formed.

The permutation of a vector looks for the source of each entry.  It is also what remains when the
coefficients are put in their places one after the other (`Automorphism.scatter_eq_permute`): `n`
coefficients come to `n` different places, and in a longer vector the last one that comes counts.

## Main Definitions

* `Automorphism.scatter` — the coefficients put in their places in order
* `ResiduePoly.IsSumOf`, `ResiduePoly.IsProductOf` — sums and products by coefficients

## Main results

* `Automorphism.bijOn_place` — every entry is the place of one power
* `Automorphism.substitute_mul`, `Automorphism.substitute_substitute` — the laws
* `ResiduePoly.automorphism_action` — the same for polynomials by residues
-/

namespace EncryptedReals

open Negacyclic

namespace Automorphism

variable {n g h : ℕ}

/-! ### Laws of the substitution -/

section Laws

variable {R : Type*} [CommRing R] {k : ℕ}

/-- **A substitution is multiplicative.** -/
theorem substitute_mul (hg : Odd g) (a b : ℕ → R) (hk : k < n) :
    substitute n g (mul n a b) k = mul n (substitute n g a) (substitute n g b) k := by
  refine eq_of_forall_eval_eq (fun S _ f x hx => ?_) hk
  simp only [hom_substitute, hom_mul]
  rw [eval_substitute hx, eval_mul (pow_pow_eq_neg_one hx hg), eval_mul hx, eval_substitute hx,
    eval_substitute hx]

/-- **Substitutions compose** by multiplying their exponents. -/
theorem substitute_substitute (hh : Odd h) (g : ℕ) (c : ℕ → R) (hk : k < n) :
    substitute n h (substitute n g c) k = substitute n (g * h % (2 * n)) c k := by
  refine eq_of_forall_eval_eq (fun S _ f x hx => ?_) hk
  simp only [hom_substitute]
  rw [eval_substitute hx, eval_substitute (pow_pow_eq_neg_one hx hh), eval_substitute hx,
    pow_mod_of_pow_eq_neg_one hx, mul_comm g h, pow_mul]

/-- The exponent 1 substitutes nothing. -/
theorem substitute_one (c : ℕ → R) (hk : k < n) : substitute n 1 c k = c k := by
  refine eq_of_forall_eval_eq (fun S _ f x hx => ?_) hk
  simp only [hom_substitute]
  rw [eval_substitute hx, pow_one]

end Laws

/-! ### Places -/

/-- Inverse exponents are odd. -/
theorem odd_of_mul_modEq_one (hinverse : g * h ≡ 1 [MOD 2 * n]) : Odd h := by
  have hodd : Odd (g * h) := Nat.odd_iff.mpr (hinverse.of_mul_right n)
  exact (Nat.odd_mul.mp hodd).2

/-- **Every entry is the place of one power.** -/
theorem bijOn_place (hn : ∃ k, 1 ≤ k ∧ n = 2 ^ k) (hg : Odd g) :
    Set.BijOn (fun i => i * g % n) (Set.Iio n) (Set.Iio n) := by
  refine ⟨fun i hi => Nat.mod_lt _ (Nat.zero_lt_of_lt hi), fun i hi j hj hij => ?_, fun k hk => ?_⟩
  · have hplace := Nat.mod_lt (j * g) (Nat.zero_lt_of_lt hj)
    rw [(mul_mod_eq_iff hn hg hi hplace).mp hij, ← (mul_mod_eq_iff hn hg hj hplace).mp rfl]
  · have hsource := Nat.mod_lt (k * inverseElement g n) (Nat.zero_lt_of_lt hk)
    exact ⟨_, hsource, (mul_mod_eq_iff hn hg hsource hk).mpr rfl⟩

section Scatter

variable {q : Modulus} {a : Array ℕ} {i k m : ℕ}

/-- The coefficient of `X ^ i` with the sign of `X ^ (i * g)`. -/
def signed (q : Modulus) (n g : ℕ) (a : Array ℕ) (i : ℕ) : ℕ :=
  if i * g % (2 * n) < n then a.getD i 0 else q.sub 0 (a.getD i 0)

/-- Puts the coefficient of `X ^ i` in its place.  Exponents from `n` on take the sign of
`X ^ n`. -/
def put (q : Modulus) (n g : ℕ) (a out : Array ℕ) (i : ℕ) : Array ℕ :=
  let e := i * g % (2 * n)
  if e < n then out.setIfInBounds e (a.getD i 0)
  else out.setIfInBounds (e - n) (q.sub 0 (a.getD i 0))

/-- **The coefficients put in their places** one after the other. -/
def scatter (q : Modulus) (n g : ℕ) (a : Array ℕ) : Array ℕ :=
  (List.range a.size).foldl (put q n g a) (Array.replicate n 0)

theorem put_eq (hn : 0 < n) (q : Modulus) (a out : Array ℕ) (i : ℕ) :
    put q n g a out i = out.setIfInBounds (i * g % n) (signed q n g a i) := by
  have hplace : i * g % n = i * g % (2 * n) % n := (Nat.mod_mul_left_mod _ 2 n).symm
  have hlt := Nat.mod_lt (i * g) (by omega : 0 < 2 * n)
  simp only [put, signed, hplace]
  generalize i * g % (2 * n) = e at hlt
  by_cases hlow : e < n
  · rw [if_pos hlow, if_pos hlow, Nat.mod_eq_of_lt hlow]
  · rw [if_neg hlow, if_neg hlow, Nat.mod_eq_sub_mod (by omega), Nat.mod_eq_of_lt (by omega)]

/-- The last position of a class that grows by a member. -/
theorem lastPosition_of_mod_eq (hm : m % n = k) : lastPosition n (m + 1) k = m := by
  subst hm
  rw [lastPosition, Nat.add_sub_cancel, Nat.div_mul_cancel (Nat.dvd_sub_mod m)]
  exact Nat.add_sub_cancel' (Nat.mod_le m n)

/-- The last position of the other classes stays. -/
theorem lastPosition_of_mod_ne (hk : k < n) (hm : m % n ≠ k) (hkm : k < m) :
    lastPosition n (m + 1) k = lastPosition n m k := by
  have hdvd : ¬n ∣ m - 1 - k + 1 := by
    rw [show m - 1 - k + 1 = m - k by omega, ← Nat.modEq_iff_dvd' hkm.le]
    intro hmod
    rw [Nat.ModEq, Nat.mod_eq_of_lt hk] at hmod
    exact hm hmod.symm
  rw [lastPosition, lastPosition, show m + 1 - 1 - k = m - 1 - k + 1 by omega, Nat.succ_div,
    if_neg hdvd, add_zero]

/-- **What the first `m` coefficients leave in an entry**: the last one that came, if one did. -/
theorem getD_foldl_put (hn : ∃ k, 1 ≤ k ∧ n = 2 ^ k) (hg : Odd g) (hk : k < n) (m : ℕ) :
    ((List.range m).foldl (put q n g a) (Array.replicate n 0)).size = n ∧
      ((List.range m).foldl (put q n g a) (Array.replicate n 0)).getD k 0 =
        if k * inverseElement g n % n < m then
          signed q n g a (lastPosition n m (k * inverseElement g n % n))
        else 0 := by
  have hpos : 0 < n := by omega
  have hcomes : ∀ i, i * g % n = k ↔ i % n = k * inverseElement g n % n := by
    intro i
    rw [← mul_mod_eq_iff hn hg (Nat.mod_lt i hpos) hk, Nat.mod_mul_mod]
  have hsource := Nat.mod_lt (k * inverseElement g n) hpos
  generalize k * inverseElement g n % n = s at hcomes hsource
  induction m with
  | zero => exact ⟨Array.size_replicate, by simp [hk]⟩
  | succ m ih =>
      obtain ⟨hsize, hentry⟩ := ih
      rw [List.range_succ, List.foldl_append, List.foldl_cons, List.foldl_nil, put_eq hpos]
      refine ⟨by rw [Array.size_setIfInBounds, hsize], ?_⟩
      by_cases hm : m % n = s
      · have hle := Nat.mod_le m n
        rw [(hcomes m).mpr hm, getD_setIfInBounds_self (hsize.symm ▸ hk), if_pos (by omega),
          lastPosition_of_mod_eq hm]
      · have hne : m ≠ s := by
          rintro rfl
          exact hm (Nat.mod_eq_of_lt hsource)
        rw [getD_setIfInBounds_ne (fun h => hm ((hcomes m).mp h)), hentry]
        by_cases hlt : s < m
        · rw [if_pos hlt, if_pos (by omega), lastPosition_of_mod_ne hsource hm hlt]
        · rw [if_neg hlt, if_neg (by omega)]

/-- **The permutation puts every coefficient in its place**, the later ones over the earlier. -/
theorem scatter_eq_permute (hn : ∃ k, 1 ≤ k ∧ n = 2 ^ k) (hg : Odd g) (q : Modulus) (a : Array ℕ) :
    scatter q n g a = permute q n g a := by
  have hpos : 0 < n := by
    have := half_pos hn
    omega
  have hsize : (scatter q n g a).size = n := (getD_foldl_put hn hg hpos a.size).1
  refine array_ext_getD (hsize.trans (size_permute q n g a).symm) 0 fun k hk => ?_
  rw [hsize] at hk
  rw [scatter, (getD_foldl_put hn hg hk a.size).2, permute, getD_ofFn _ hk]
  split
  · rfl
  · -- no coefficient comes, and the permutation reads past the end of the vector
    next hnone =>
      have hlast : lastPosition n a.size (k * inverseElement g n % n) =
          k * inverseElement g n % n := by
        rw [lastPosition, show a.size - 1 - k * inverseElement g n % n = 0 by omega, Nat.zero_div,
          zero_mul, add_zero]
      have hzero : a.getD (k * inverseElement g n % n) 0 = 0 := by
        rw [Array.getD_eq_getD_getElem?, Array.getElem?_eq_none (by omega), Option.getD_none]
      simp only [hlast, hzero]
      split <;> rfl

end Scatter

end Automorphism

/-! ### Polynomials by residues -/

namespace ResiduePoly

open Automorphism

/-- **A sum of two polynomials**, coefficient by coefficient in every limb. -/
def IsSumOf (s : ResiduePoly) (n : ℕ) (moduli : List Modulus) (p r : ResiduePoly) : Prop :=
  ∀ (i : ℕ) (q : Modulus), moduli[i]? = some q → ∀ k < n,
    s.value q i k = p.value q i k + r.value q i k

/-- **A product of two polynomials** modulo `X ^ n + 1`, by its coefficients in every limb. -/
def IsProductOf (s : ResiduePoly) (n : ℕ) (moduli : List Modulus) (p r : ResiduePoly) : Prop :=
  ∀ (i : ℕ) (q : Modulus), moduli[i]? = some q → ∀ k < n,
    s.value q i k = Negacyclic.mul n (p.value q i) (r.value q i) k

section Action

variable {n g h : ℕ} {moduli : List Modulus} {p r s : ResiduePoly}
  (hn : ∃ k, 1 ≤ k ∧ n = 2 ^ k) (hw : AreWords moduli)

include hn hw

/-- **The images of a sum** are summands of its image. -/
theorem IsSumOf.automorphism (hg : Odd g) (hp : p.Canonical n moduli) (hr : r.Canonical n moduli)
    (hs : s.Canonical n moduli) (hsum : s.IsSumOf n moduli p r) :
    (apply moduli g s).IsSumOf n moduli (apply moduli g p) (apply moduli g r) := by
  intro i q hq k hk
  rw [value_automorphism hn hg hw hs hq hk, value_automorphism hn hg hw hp hq hk,
    value_automorphism hn hg hw hr hq hk, ← substitute_add]
  exact substitute_congr (hsum i q hq) g k

/-- **The images of a product** are factors of its image. -/
theorem IsProductOf.automorphism (hg : Odd g) (hp : p.Canonical n moduli)
    (hr : r.Canonical n moduli) (hs : s.Canonical n moduli)
    (hproduct : s.IsProductOf n moduli p r) :
    (apply moduli g s).IsProductOf n moduli (apply moduli g p) (apply moduli g r) := by
  intro i q hq k hk
  rw [value_automorphism hn hg hw hs hq hk, substitute_congr (hproduct i q hq) g k,
    substitute_mul hg _ _ hk]
  exact (mul_congr (fun j hj => value_automorphism hn hg hw hp hq hj)
    (fun j hj => value_automorphism hn hg hw hr hq hj) hk).symm

/-- **Automorphisms compose** by multiplying their exponents. -/
theorem automorphism_automorphism (hg : Odd g) (hh : Odd h) (hp : p.Canonical n moduli) :
    apply moduli h (apply moduli g p) = apply moduli (g * h % (2 * n)) p := by
  have hodd : Odd (g * h % (2 * n)) := by
    rw [Nat.odd_iff, Nat.mod_mul_right_mod]
    exact Nat.odd_iff.mp (hg.mul hh)
  refine ((hp.automorphism hw).automorphism hw).ext (hp.automorphism hw) fun i q hq k hk => ?_
  rw [value_automorphism hn hh hw (hp.automorphism hw) hq hk,
    value_automorphism hn hodd hw hp hq hk, ← substitute_substitute hh g _ hk]
  exact substitute_congr (fun j hj => value_automorphism hn hg hw hp hq hj) h k

/-- The exponent 1 changes nothing. -/
theorem automorphism_one (hp : p.Canonical n moduli) : apply moduli 1 p = p := by
  refine (hp.automorphism hw).ext hp fun i q hq k hk => ?_
  rw [value_automorphism hn odd_one hw hp hq hk, substitute_one _ hk]

/-- **The inverse exponent undoes an automorphism.** -/
theorem automorphism_inverse (hg : Odd g) (hp : p.Canonical n moduli)
    (hinverse : g * h ≡ 1 [MOD 2 * n]) : apply moduli h (apply moduli g p) = p := by
  have hpos := half_pos hn
  have hone : g * h % (2 * n) = 1 := Eq.trans hinverse (Nat.mod_eq_of_lt (by omega))
  rw [automorphism_automorphism hn hw hg (odd_of_mul_modEq_one hinverse) hp, hone,
    automorphism_one hn hw hp]

/-- **The odd exponents act on polynomials by ring automorphisms.**  For odd `g` and `h`:
the image under `X ↦ X ^ g` has the values at the `g`-th powers of the roots of `X ^ n + 1`; it
keeps sums and products, those by coefficients and those that are computed limb by limb; images
compose by multiplying exponents modulo `2 * n`, and the inverse exponent, which exists, undoes
the image.  Each of the `n` coefficients has a place of its own, and the image is what remains
when they are put there in order. -/
theorem automorphism_action (hg : Odd g) (hh : Odd h) (hp : p.Canonical n moduli)
    (hr : r.Canonical n moduli) :
    (∀ (i : ℕ) (q : Modulus), moduli[i]? = some q → ∀ x : ZMod q.value, x ^ n = -1 →
        eval n ((apply moduli g p).value q i) x = eval n (p.value q i) (x ^ g)) ∧
      (∀ s : ResiduePoly, s.Canonical n moduli →
        (s.IsSumOf n moduli p r →
          (apply moduli g s).IsSumOf n moduli (apply moduli g p) (apply moduli g r)) ∧
        (s.IsProductOf n moduli p r →
          (apply moduli g s).IsProductOf n moduli (apply moduli g p) (apply moduli g r))) ∧
      (FitWords moduli →
        apply moduli g (p.add moduli r) = (apply moduli g p).add moduli (apply moduli g r)) ∧
      (∀ transforms, Transform.Cover n moduli transforms →
        apply moduli g (((p.forward transforms).mul moduli (r.forward transforms)).inverse
            transforms) =
          (((apply moduli g p).forward transforms).mul moduli
            ((apply moduli g r).forward transforms)).inverse transforms) ∧
      apply moduli h (apply moduli g p) = apply moduli (g * h % (2 * n)) p ∧
      (∃ g' < 2 * n, g * g' ≡ 1 [MOD 2 * n]) ∧
      (∀ g', g * g' ≡ 1 [MOD 2 * n] →
        apply moduli g' (apply moduli g p) = p ∧ apply moduli g (apply moduli g' p) = p) ∧
      Set.BijOn (fun i => i * g % n) (Set.Iio n) (Set.Iio n) ∧
      ∀ (i : ℕ) (q : Modulus), moduli[i]? = some q →
        (apply moduli g p).limb i = scatter q n g (p.limb i) := by
  have himage := hp.automorphism (g := g) hw
  have himage' := hr.automorphism (g := g) hw
  refine ⟨fun i q hq x hx => ?_, fun s hs => ⟨?_, ?_⟩, fun hfit => ?_, fun transforms hcover => ?_,
    automorphism_automorphism hn hw hg hh hp, ?_, fun g' hinverse => ⟨?_, ?_⟩, bijOn_place hn hg,
    fun i q hq => ?_⟩
  · rw [← eval_substitute hx]
    exact eval_congr (fun k hk => value_automorphism hn hg hw hp hq hk) x
  · exact fun hsum => hsum.automorphism hn hw hg hp hr hs
  · exact fun hproduct => hproduct.automorphism hn hw hg hp hr hs
  · have hsum : (p.add moduli r).IsSumOf n moduli p r := fun i q hq k hk =>
      value_add hfit hp hr hq hk
    refine ((hp.add hfit hr).automorphism hw).ext (himage.add hfit himage') fun i q hq k hk => ?_
    rw [hsum.automorphism hn hw hg hp hr (hp.add hfit hr) i q hq k hk,
      value_add hfit himage himage' hq hk]
  · have hcanonical := ((hp.forward hcover).mul hcover.fitWords (hr.forward hcover)).inverse hcover
    have hproduct : (((p.forward transforms).mul moduli (r.forward transforms)).inverse
        transforms).IsProductOf n moduli p r := fun i q hq k hk =>
      value_inverse_mul hcover hp hr hq hk
    refine (hcanonical.automorphism hw).ext
      (((himage.forward hcover).mul hcover.fitWords (himage'.forward hcover)).inverse hcover)
      fun i q hq k hk => ?_
    rw [hproduct.automorphism hn hw hg hp hr hcanonical i q hq k hk,
      value_inverse_mul hcover himage himage' hq hk]
  · have hpos := half_pos hn
    exact ⟨inverseElement g n % (2 * n), Nat.mod_lt _ (by omega),
      ((Nat.mod_modEq _ _).mul_left g).trans (mul_inverseElement hn hg)⟩
  · exact automorphism_inverse hn hw hg hp hinverse
  · exact automorphism_inverse hn hw (odd_of_mul_modEq_one hinverse) hp (by rwa [mul_comm g'])
  · rw [limb_automorphism hp hq, scatter_eq_permute hn hg]

end Action

/-- The exponents 5 and 3 modulo 8 for two limbs of four coefficients: 9 is a root of `X ^ 4 + 1`
modulo 17, and 5 is its own inverse. -/
theorem automorphism_action_small :
    ∃ (moduli : List Modulus) (p r : ResiduePoly), moduli = [⟨17⟩, ⟨41⟩] ∧ AreWords moduli ∧
      p.Canonical 4 moduli ∧ r.Canonical 4 moduli ∧ (9 : ZMod 17) ^ 4 = -1 ∧
      eval 4 ((apply moduli 5 p).value ⟨17⟩ 0) (9 : ZMod 17) = eval 4 (p.value ⟨17⟩ 0) (9 ^ 5) ∧
      apply moduli 5 (p.add moduli r) = (apply moduli 5 p).add moduli (apply moduli 5 r) ∧
      apply moduli 3 (apply moduli 5 p) = apply moduli 7 p ∧
      apply moduli 5 (apply moduli 5 p) = p ∧
      (apply moduli 5 p).limb 1 = scatter ⟨41⟩ 4 5 (p.limb 1) ∧
      (apply moduli 5 p).limbs = [#[1, 15, 3, 13], #[5, 35, 7, 33]] := by
  have hfit : FitWords [⟨17⟩, ⟨41⟩] := by
    unfold FitWords
    decide
  have hp : Canonical 4 [⟨17⟩, ⟨41⟩] ⟨[#[1, 2, 3, 4], #[5, 6, 7, 8]], 4⟩ :=
    canonical_iff.mpr (by decide)
  have hr : Canonical 4 [⟨17⟩, ⟨41⟩] ⟨[#[16, 3, 2, 1], #[40, 7, 6, 5]], 4⟩ :=
    canonical_iff.mpr (by decide)
  have hroot : (9 : ZMod 17) ^ 4 = -1 := by decide
  obtain ⟨heval, -, hadd, -, hcompose, -, hinverse, -, hscatter⟩ :=
    automorphism_action ⟨2, by decide, by decide⟩ hfit.areWords (by decide : Odd 5)
      (by decide : Odd 3) hp hr
  exact ⟨_, _, _, rfl, hfit.areWords, hp, hr, hroot, heval 0 ⟨17⟩ rfl 9 hroot, hadd hfit, hcompose,
    (hinverse 5 (by decide)).1, hscatter 1 ⟨41⟩ rfl, by decide +kernel⟩

end ResiduePoly

end EncryptedReals

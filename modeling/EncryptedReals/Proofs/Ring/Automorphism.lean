import EncryptedReals.Ring.Automorphism
import EncryptedReals.Proofs.Ring.Negacyclic
import EncryptedReals.Proofs.Ring.ResiduePoly

/-!
# Galois automorphisms substitute a power

The permutation of the coefficients, with its signs and its inverse exponent, is the
substitution `X ↦ X ^ g` modulo `X ^ n + 1` for every odd `g`.  The powers of 5 move the
points `x ^ 5 ^ j` along, and `n / 2` steps bring each point back.

## Main results

* `Automorphism.view_permute` — the permutation of a vector is the substitution
* `ResiduePoly.value_automorphism`, `ResiduePoly.value_image` — the same for every limb of a
  polynomial, given by its coefficients or by its values
* `Automorphism.element_eq_iff` — steps have one element exactly when they are congruent
* `Automorphism.eval_substitute_element` — a step moves the points left

## Design Notes

The dimension is a power of two throughout.  The exponents live in the odd residues modulo
`2 * n`.  Two facts on orders are used: the number of these residues is `n`, and the order of 5
is `n / 2`.
-/

namespace EncryptedReals

open Negacyclic

namespace Automorphism

variable {n g : ℕ}

/-! ### Odd residues modulo a power of two -/

/-- The odd residues modulo `2 * n` are as many as `n`, so their `n`-th powers
are 1. -/
theorem pow_modEq_one (hn : ∃ k, 1 ≤ k ∧ n = 2 ^ k) (hg : Odd g) : g ^ n ≡ 1 [MOD 2 * n] := by
  obtain ⟨k, -, rfl⟩ := hn
  have htotient : Nat.totient (2 * 2 ^ k) = 2 ^ k := by
    rw [← pow_succ', Nat.totient_prime_pow_succ Nat.prime_two, Nat.succ_sub_one, mul_one]
  have hcoprime : g.Coprime (2 * 2 ^ k) := by
    rw [← pow_succ']
    exact hg.coprime_two_right.pow_right _
  simpa only [htotient] using Nat.ModEq.pow_totient hcoprime

/-- There are slots, half as many as coefficients. -/
theorem half_pos (hn : ∃ k, 1 ≤ k ∧ n = 2 ^ k) : 0 < n / 2 := by
  obtain ⟨k, hk, rfl⟩ := hn
  exact Nat.div_pos (Nat.le_self_pow (by omega) 2) two_pos

/-- **Powers of 5 count modulo `n / 2`**, and no less: 5 has this order modulo `2 * n`. -/
theorem five_pow_modEq_iff (hn : ∃ k, 1 ≤ k ∧ n = 2 ^ k) {a b : ℕ} :
    5 ^ a ≡ 5 ^ b [MOD 2 * n] ↔ a ≡ b [MOD n / 2] := by
  obtain ⟨k, hk, rfl⟩ := hn
  obtain ⟨k, rfl⟩ := Nat.exists_eq_add_of_le' hk
  have horder : orderOf (5 : ZMod (2 ^ (k + 2))) = 2 ^ k := ZMod.orderOf_five k
  have hfinite : IsOfFinOrder (5 : ZMod (2 ^ (k + 2))) :=
    orderOf_pos_iff.mp (horder ▸ Nat.two_pow_pos k)
  rw [← pow_succ', pow_succ 2 k, Nat.mul_div_cancel _ two_pos, ← horder,
    ← hfinite.pow_eq_pow_iff_modEq, ← ZMod.natCast_eq_natCast_iff, Nat.cast_pow, Nat.cast_pow,
    Nat.cast_ofNat]

/-! ### Exponents -/

theorem element_eq (hn : 0 < n) (step : ℤ) :
    element step n = 5 ^ (step % (n / 2 : ℕ)).toNat % (2 * n) :=
  Modulus.pow_eq_mod (by show 1 < 2 * n; omega) _ _

theorem odd_element (hn : 0 < n) (step : ℤ) : Odd (element step n) := by
  rw [element_eq hn, Nat.odd_iff, Nat.mod_mul_right_mod]
  exact Nat.odd_iff.mp (Odd.pow (by decide))

/-- **A step moves a power of 5 along** by its number of places. -/
theorem five_pow_mul_element_modEq (hn : ∃ k, 1 ≤ k ∧ n = 2 ^ k) {step : ℤ} {j m : ℕ}
    (hm : (m : ℤ) ≡ j + step [ZMOD (n / 2 : ℕ)]) :
    5 ^ j * element step n ≡ 5 ^ m [MOD 2 * n] := by
  have hslots := half_pos hn
  have hexponent : j + (step % (n / 2 : ℕ)).toNat ≡ m [MOD n / 2] := by
    rw [← Int.natCast_modEq_iff, Nat.cast_add, Int.toNat_of_nonneg (Int.emod_nonneg _ (by omega))]
    exact ((Int.mod_modEq _ _).add_left _).trans hm.symm
  rw [element_eq (by omega)]
  calc 5 ^ j * (5 ^ (step % (n / 2 : ℕ)).toNat % (2 * n))
      ≡ 5 ^ j * 5 ^ (step % (n / 2 : ℕ)).toNat [MOD 2 * n] := (Nat.mod_modEq _ _).mul_left _
    _ = 5 ^ (j + (step % (n / 2 : ℕ)).toNat) := (pow_add _ _ _).symm
    _ ≡ 5 ^ m [MOD 2 * n] := (five_pow_modEq_iff hn).mpr hexponent

/-- **Steps have one element exactly when they are congruent** modulo the number of slots. -/
theorem element_eq_iff (hn : ∃ k, 1 ≤ k ∧ n = 2 ^ k) {s r : ℤ} :
    element s n = element r n ↔ s ≡ r [ZMOD (n / 2 : ℕ)] := by
  have hslots := half_pos hn
  have hnonneg : ∀ step : ℤ, 0 ≤ step % (n / 2 : ℕ) := fun step => Int.emod_nonneg _ (by omega)
  rw [element_eq (by omega), element_eq (by omega)]
  show 5 ^ _ ≡ 5 ^ _ [MOD 2 * n] ↔ _
  rw [five_pow_modEq_iff hn, ← Int.natCast_modEq_iff, Int.toNat_of_nonneg (hnonneg s),
    Int.toNat_of_nonneg (hnonneg r)]
  exact ⟨fun h => (Int.mod_modEq _ _).symm.trans (h.trans (Int.mod_modEq _ _)),
    fun h => (Int.mod_modEq _ _).trans (h.trans (Int.mod_modEq _ _).symm)⟩

/-- **The identity belongs to the full turns.** -/
theorem element_eq_one_iff (hn : ∃ k, 1 ≤ k ∧ n = 2 ^ k) {step : ℤ} :
    element step n = 1 ↔ ((n / 2 : ℕ) : ℤ) ∣ step := by
  have hslots := half_pos hn
  have hzero : element 0 n = 1 := by
    rw [element_eq (by omega), Int.zero_emod, Int.toNat_zero, pow_zero]
    exact Nat.mod_eq_of_lt (by omega)
  rw [← hzero, element_eq_iff hn, Int.modEq_zero_iff_dvd]

/-- **The inverse exponent.** -/
theorem mul_inverseElement (hn : ∃ k, 1 ≤ k ∧ n = 2 ^ k) (hg : Odd g) :
    g * inverseElement g n ≡ 1 [MOD 2 * n] := by
  have hpos : 0 < n := by
    obtain ⟨k, -, rfl⟩ := hn
    exact Nat.two_pow_pos k
  have hinverse : inverseElement g n = g ^ (n - 1) % (2 * n) :=
    Modulus.pow_eq_mod (by show 1 < 2 * n; omega) _ _
  calc g * inverseElement g n
      ≡ g * g ^ (n - 1) [MOD 2 * n] := by
        rw [hinverse]
        exact (Nat.mod_modEq _ _).mul_left _
    _ = g ^ n := by rw [← pow_succ', Nat.sub_add_cancel hpos]
    _ ≡ 1 [MOD 2 * n] := pow_modEq_one hn hg

/-- The one power below `n` that comes to the entry `k`. -/
theorem mul_mod_eq_iff (hn : ∃ k, 1 ≤ k ∧ n = 2 ^ k) (hg : Odd g) {i k : ℕ} (hi : i < n)
    (hk : k < n) :
    i * g % n = k ↔ i = k * inverseElement g n % n := by
  have hinverse : g * inverseElement g n ≡ 1 [MOD n] :=
    (mul_inverseElement hn hg).of_mul_left 2
  constructor
  · rintro rfl
    have hback : i * g % n * inverseElement g n ≡ i [MOD n] :=
      calc i * g % n * inverseElement g n
          ≡ i * g * inverseElement g n [MOD n] := (Nat.mod_modEq _ _).mul_right _
        _ = i * (g * inverseElement g n) := mul_assoc _ _ _
        _ ≡ i * 1 [MOD n] := hinverse.mul_left i
        _ = i := mul_one i
    rw [hback, Nat.mod_eq_of_lt hi]
  · rintro rfl
    have hforth : k * inverseElement g n % n * g ≡ k [MOD n] :=
      calc k * inverseElement g n % n * g
          ≡ k * inverseElement g n * g [MOD n] := (Nat.mod_modEq _ _).mul_right _
        _ = k * (g * inverseElement g n) := by ring
        _ ≡ k * 1 [MOD n] := hinverse.mul_left k
        _ = k := mul_one k
    rw [hforth, Nat.mod_eq_of_lt hk]

/-! ### The permutation -/

section Substitution

variable {R : Type*} [CommRing R]

/-- **A coefficient after the substitution** comes from one power, with the sign of `X ^ n`. -/
theorem substitute_eq (hn : ∃ k, 1 ≤ k ∧ n = 2 ^ k) (hg : Odd g) (c : ℕ → R) {k : ℕ} (hk : k < n) :
    substitute n g c k =
      if k * inverseElement g n % n * g % (2 * n) < n then c (k * inverseElement g n % n)
      else -c (k * inverseElement g n % n) := by
  have hsource : k * inverseElement g n % n < n := Nat.mod_lt _ (by omega)
  have htarget := (mul_mod_eq_iff hn hg hsource hk).mpr rfl
  rw [← Nat.mod_mul_left_mod _ 2 n] at htarget
  rw [substitute, Finset.sum_eq_single_of_mem _ (Finset.mem_range.mpr hsource)]
  · by_cases hlow : k * inverseElement g n % n * g % (2 * n) < n
    · rw [if_pos hlow, if_pos (by rwa [Nat.mod_eq_of_lt hlow] at htarget)]
    · have hhigh : k * inverseElement g n % n * g % (2 * n) = k + n := by
        have hlt := Nat.mod_lt (k * inverseElement g n % n * g) (by omega : 0 < 2 * n)
        rw [Nat.mod_eq_sub_mod (by omega), Nat.mod_eq_of_lt (by omega)] at htarget
        omega
      rw [if_neg hlow, if_neg (by omega), if_pos hhigh]
  · intro i hi hne
    -- another power goes to another entry, modulo `n` and so modulo `2 * n`
    have hi' := Finset.mem_range.mp hi
    have hother : i * g % (2 * n) % n ≠ k := by
      rw [Nat.mod_mul_left_mod]
      exact fun h => hne ((mul_mod_eq_iff hn hg hi' hk).mp h)
    rw [if_neg, if_neg]
    · intro h
      rw [h, Nat.add_mod_right, Nat.mod_eq_of_lt hk] at hother
      exact hother rfl
    · intro h
      rw [h, Nat.mod_eq_of_lt hk] at hother
      exact hother rfl

/-- An odd power of a root of `X ^ n + 1` is a root. -/
theorem pow_pow_eq_neg_one {x : R} (hx : x ^ n = -1) (hg : Odd g) : (x ^ g) ^ n = -1 := by
  rw [← pow_mul, mul_comm, pow_mul, hx, hg.neg_one_pow]

/-- **The substitution of a step moves the points left by it**: the value at `x ^ 5 ^ j` is
the old value at `x ^ 5 ^ m`, where `m` is `j + step` modulo `n / 2`. -/
theorem eval_substitute_element (hn : ∃ k, 1 ≤ k ∧ n = 2 ^ k) {x : R} (hx : x ^ n = -1)
    (step : ℤ) (c : ℕ → R) {j m : ℕ} (hm : (m : ℤ) ≡ j + step [ZMOD (n / 2 : ℕ)]) :
    eval n (substitute n (element step n) c) (x ^ 5 ^ j) = eval n c (x ^ 5 ^ m) := by
  have hpoint : 5 ^ j * element step n ≡ 5 ^ m [MOD 2 * n] :=
    five_pow_mul_element_modEq hn hm
  have hroot := pow_pow_eq_neg_one hx (Odd.pow (by decide) : Odd (5 ^ j))
  rw [eval_substitute hroot, ← pow_mul, ← pow_mod_of_pow_eq_neg_one hx, hpoint,
    pow_mod_of_pow_eq_neg_one hx]

end Substitution

section Vectors

variable {q : Modulus} {a : Array ℕ} {k : ℕ}

theorem size_permute (q : Modulus) (n g : ℕ) (a : Array ℕ) : (permute q n g a).size = n :=
  Array.size_ofFn

/-- In a vector of the declared length each entry has one source. -/
theorem lastPosition_eq {i : ℕ} (hi : i < n) : lastPosition n n i = i := by
  rw [lastPosition, Nat.div_eq_of_lt (by omega), zero_mul, add_zero]

theorem getD_permute (ha : a.size = n) (hk : k < n) :
    (permute q n g a).getD k 0 =
      if k * inverseElement g n % n * g % (2 * n) < n then
        a.getD (k * inverseElement g n % n) 0
      else q.sub 0 (a.getD (k * inverseElement g n % n) 0) := by
  rw [permute, getD_ofFn _ hk, ha, lastPosition_eq (Nat.mod_lt _ (by omega))]

theorem isVector_permute (hw : q.value < 2 ^ 64) (ha : q.IsVector n a) :
    q.IsVector n (permute q n g a) := by
  refine ⟨size_permute q n g a, fun k hk => ?_⟩
  have hsource := ha.lt _ (Nat.mod_lt (k * inverseElement g n) (by omega : 0 < n))
  rw [getD_permute ha.size_eq hk]
  split
  · exact hsource
  · exact Modulus.sub_lt hw (by omega) hsource

/-- **The permutation is the substitution.** -/
theorem view_permute (hn : ∃ k, 1 ≤ k ∧ n = 2 ^ k) (hg : Odd g) (hw : q.value < 2 ^ 64)
    (ha : q.IsVector n a) (hk : k < n) :
    q.view (permute q n g a) k = substitute n g (q.view a) k := by
  have hsource := ha.lt _ (Nat.mod_lt (k * inverseElement g n) (by omega : 0 < n))
  rw [Modulus.view, getD_permute ha.size_eq hk, substitute_eq hn hg _ hk]
  split
  · rfl
  · rw [Modulus.cast_sub hw (by omega) hsource, Nat.cast_zero, zero_sub, Modulus.view]

end Vectors

end Automorphism

/-! ### Polynomials -/

namespace ResiduePoly

variable {n g i k : ℕ} {moduli : List Modulus} {p : ResiduePoly} {q : Modulus}

theorem limb_automorphism (hp : p.Canonical n moduli) (hq : moduli[i]? = some q) :
    (Automorphism.apply moduli g p).limb i = Automorphism.permute q n g (p.limb i) := by
  refine limb_eq_of_getElem? ?_
  rw [Automorphism.apply, getElem?_overlay _ (hp.getElem? hq) hq, hp.degree_eq]

theorem Canonical.automorphism (hw : AreWords moduli) (hp : p.Canonical n moduli) :
    (Automorphism.apply moduli g p).Canonical n moduli := by
  refine ⟨hp.degree_eq, (length_overlay _ _ _).trans hp.length_eq, fun i q hq => ?_⟩
  rw [limb_automorphism hp hq]
  exact Automorphism.isVector_permute (hw q (List.mem_of_getElem? hq)) (hp.isVector i q hq)

/-- **The automorphism substitutes `X ^ g`** in every limb. -/
theorem value_automorphism (hn : ∃ k, 1 ≤ k ∧ n = 2 ^ k) (hg : Odd g) (hw : AreWords moduli)
    (hp : p.Canonical n moduli) (hq : moduli[i]? = some q) (hk : k < n) :
    (Automorphism.apply moduli g p).value q i k = substitute n g (p.value q i) k := by
  rw [value, limb_automorphism hp hq]
  exact Automorphism.view_permute hn hg (hw q (List.mem_of_getElem? hq)) (hp.isVector i q hq) hk

/-- The image of a polynomial in value form: through its coefficients and back. -/
theorem Canonical.image {transforms : List Transform} (hp : p.Canonical n moduli)
    (hcover : Transform.Cover n moduli transforms) :
    ((Automorphism.apply moduli g (p.inverse transforms)).forward transforms).Canonical n moduli :=
  ((hp.inverse hcover).automorphism hcover.fitWords.areWords).forward hcover

/-- **The values of an image** are the values at the powers of the points. -/
theorem value_image {transforms : List Transform} {t : Transform} {psi : ZMod t.modulus.value}
    (hn : ∃ k, 1 ≤ k ∧ n = 2 ^ k) (hg : Odd g) (hp : p.Canonical n moduli)
    (hcover : Transform.Cover n moduli transforms) (hq : moduli[i]? = some t.modulus)
    (ht : transforms[i]? = some t) (hsize : t.size = n) (hlawful : t.Lawful psi)
    {c : ℕ → ZMod t.modulus.value}
    (hc : ∀ j < n, p.value t.modulus i j = eval n c (t.point psi j)) (hk : k < n) :
    ((Automorphism.apply moduli g (p.inverse transforms)).forward transforms).value t.modulus i k =
      eval n c (t.point psi k ^ g) := by
  have hcoefficients := hp.inverse hcover
  have hroot : t.point psi k ^ n = -1 := hsize ▸ hlawful.point_pow k
  rw [(hcoefficients.automorphism hcover.fitWords.areWords).value_forward hq ht hsize hlawful hk,
    ← eval_substitute hroot]
  refine eval_congr (fun j hj => ?_) _
  rw [value_automorphism hn hg hcover.fitWords.areWords hcoefficients hq hj]
  exact substitute_congr (fun m hm => hp.value_inverse_of_eval hq ht hsize hlawful hc hm) g j

end ResiduePoly

end EncryptedReals

import EncryptedReals.Proofs.Ring.Reconstruction
import EncryptedReals.Proofs.Success

/-!
# Products of integer polynomials by residues

Two polynomials with integer coefficients are multiplied modulo `X ^ n + 1` by
reducing both modulo every prime of a chain, transforming, multiplying entry by
entry, transforming back and reconstructing.  The result is the exact product up to
multiples of the product `Q` of the primes, and is centred.

The layers meet in `value_inverse_mul`: the coefficients behind a pointwise product
are the negacyclic product of the coefficients behind the factors.  It is proved in
the ring of each modulus and pulled back to the integers by `hom_mul`.

## Main Definitions

* `TransformChain` — the chains that have transforms of a length
* `ResiduePoly.mulInts` — multiplication by way of residues

## Main results

* `Transform.exists_mapM_make` — such a chain has its transforms
* `ResiduePoly.mulInts_centered` — the product is the centred representative
-/

namespace EncryptedReals

open Reconstruction

/-- **A chain of primes for transforms of length `n`**: distinct primes of at most 60
bits that are 1 modulo `2n`. -/
structure TransformChain (n : ℕ) (moduli : List Modulus) : Prop where
  nonempty : moduli ≠ []
  nodup : moduli.Nodup
  prime : ∀ q ∈ moduli, q.value.Prime
  lt : ∀ q ∈ moduli, q.value < 2 ^ 60
  congruent : ∀ q ∈ moduli, q.value % (2 * n) = 1

namespace TransformChain

variable {n : ℕ} {moduli : List Modulus}

theorem distinctPrimes (h : TransformChain n moduli) : DistinctPrimes moduli :=
  ⟨h.nodup, h.prime, fun q hq => (h.lt q hq).trans (by norm_num)⟩

theorem fitWords (h : TransformChain n moduli) : FitWords moduli :=
  fun q hq => ⟨(h.prime q hq).pos, (h.lt q hq).trans (by norm_num)⟩

end TransformChain

/-- Whatever transforms were made for a chain cover it. -/
theorem Transform.cover_of_mapM_make {k : ℕ} {moduli : List Modulus} {transforms : List Transform}
    (h : TransformChain (2 ^ k) moduli)
    (hmake : moduli.mapM (Transform.make (2 ^ k)) = .ok transforms) :
    Transform.Cover (2 ^ k) moduli transforms := by
  intro i q hq
  have hmem := List.mem_of_getElem? hq
  obtain ⟨t, ht, hmaket⟩ := (getElem?_of_mapM_ok hmake).2 i q hq
  obtain ⟨hmodulus, hsize, hlawful⟩ :=
    Transform.lawful_of_make (h.prime q hmem) (h.fitWords q hmem).2 (h.congruent q hmem) hmaket
  exact ⟨t, ht, hmodulus, hsize, hlawful⟩

/-- **A chain of primes has its transforms.** -/
theorem Transform.exists_mapM_make {k : ℕ} {moduli : List Modulus}
    (h : TransformChain (2 ^ k) moduli) :
    ∃ transforms, moduli.mapM (Transform.make (2 ^ k)) = .ok transforms ∧
      Transform.Cover (2 ^ k) moduli transforms := by
  have hall : ∀ q ∈ moduli, ∃ t, Transform.make (2 ^ k) q = .ok t := by
    intro q hq
    obtain ⟨t, -, hmake, -⟩ :=
      Transform.exists_make (h.prime q hq) (h.fitWords q hq).2 (h.congruent q hq)
    exact ⟨t, hmake⟩
  obtain ⟨transforms, hmake⟩ := exists_mapM_ok hall
  exact ⟨transforms, hmake, Transform.cover_of_mapM_make h hmake⟩

namespace ResiduePoly

variable {n i k : ℕ} {q : Modulus} {moduli : List Modulus} {transforms : List Transform}
  {p r : ResiduePoly}

/-! ### The pointwise product -/

/-- **Multiplying values multiplies coefficients**, modulo `X ^ n + 1`. -/
theorem value_inverse_mul (hcover : Transform.Cover n moduli transforms)
    (hp : p.Canonical n moduli) (hr : r.Canonical n moduli) (hq : moduli[i]? = some q)
    (hk : k < n) :
    (((p.forward transforms).mul moduli (r.forward transforms)).inverse transforms).value q i k =
      Negacyclic.mul n (p.value q i) (r.value q i) k := by
  have hpf := hp.forward hcover
  have hrf := hr.forward hcover
  have hmul := hpf.mul hcover.fitWords hrf
  obtain ⟨t, ht, rfl, hn, psi, hlawful⟩ := hcover i q hq
  refine hmul.value_inverse_of_eval hq ht hn hlawful (fun j hj => ?_) hk
  have hpoint : t.point psi j ^ n = -1 := hn ▸ hlawful.point_pow j
  rw [value_mul hpf hrf hq hj, hp.value_forward hq ht hn hlawful hj,
    hr.value_forward hq ht hn hlawful hj, Negacyclic.eval_mul hpoint]

/-! ### Multiplying integers -/

/-- **The product of two integer polynomials by way of their residues.** -/
def mulInts (moduli : List Modulus) (transforms : List Transform) (a b : Array ℤ) : Array ℤ :=
  let product := ((ofInts a moduli).forward transforms).mul moduli
    ((ofInts b moduli).forward transforms)
  (Reconstruction.ofModuli moduli).composePoly (product.inverse transforms)

/-- The coefficients of an array. -/
def coefficient (a : Array ℤ) (k : ℕ) : ℤ :=
  a.getD k 0

theorem size_mulInts (hcover : Transform.Cover n moduli transforms) {a b : Array ℤ}
    (ha : a.size = n) (hb : b.size = n) : (mulInts moduli transforms a b).size = n := by
  subst ha
  have hw := hcover.fitWords
  have hpf := (canonical_ofInts hw a).forward hcover
  have hrf := (hb ▸ canonical_ofInts hw b).forward hcover
  have hdegree := ((hpf.mul hw hrf).inverse hcover).degree_eq
  rw [mulInts, composePoly, Array.size_ofFn, hdegree]

/-- Every coefficient is the centred representative of the negacyclic product's. -/
theorem isCentered_mulInts (hprimes : DistinctPrimes moduli)
    (hcover : Transform.Cover n moduli transforms) {a b : Array ℤ} (ha : a.size = n)
    (hb : b.size = n) (hk : k < n) :
    IsCentered (modulusProduct moduli) (Negacyclic.mul n (coefficient a) (coefficient b) k)
      ((mulInts moduli transforms a b).getD k 0) := by
  have hw := hcover.fitWords
  have hca : (ofInts a moduli).Canonical n moduli := ha ▸ canonical_ofInts hw a
  have hcb : (ofInts b moduli).Canonical n moduli := hb ▸ canonical_ofInts hw b
  have hproduct := ((hca.forward hcover).mul hw (hcb.forward hcover)).inverse hcover
  refine isCentered_composePoly hprimes hproduct hk fun i q hq => ?_
  rw [value_inverse_mul hcover hca hcb hq hk]
  -- the residues of both factors come from the integers, so the product of the residues does
  rw [← eq_intCast (Int.castRingHom (ZMod q.value)), Negacyclic.hom_mul]
  refine Negacyclic.mul_congr (fun j hj => ?_) (fun j hj => ?_) hk
  · exact value_ofInts hw hq (ha ▸ hj)
  · exact value_ofInts hw hq (hb ▸ hj)

open Polynomial in
/-- **Multiplication by way of residues finds the centred product.**  A chain has its
transforms; with them, coefficient `i` of the result is the only integer in `(-Q/2, Q/2]`
that is congruent modulo `Q` to coefficient `i` of the exact product modulo
`X ^ n + 1`, and it is that coefficient when the coefficient lies in the range. -/
theorem mulInts_centered (k : ℕ) (moduli : List Modulus) (hchain : TransformChain (2 ^ k) moduli)
    (a b : Array ℤ) (ha : a.size = 2 ^ k) (hb : b.size = 2 ^ k) :
    ∃ transforms, moduli.mapM (Transform.make (2 ^ k)) = .ok transforms ∧
      (mulInts moduli transforms a b).size = 2 ^ k ∧
      ∀ i < 2 ^ k, ∀ c : ℤ,
        c = ((Negacyclic.poly (2 ^ k) (coefficient a) * Negacyclic.poly (2 ^ k) (coefficient b)) %ₘ
          (X ^ 2 ^ k + 1)).coeff i →
        (∀ z, IsCentered (modulusProduct moduli) c z ↔
          z = (mulInts moduli transforms a b).getD i 0) ∧
        (-(modulusProduct moduli : ℤ) < 2 * c → 2 * c ≤ modulusProduct moduli →
          (mulInts moduli transforms a b).getD i 0 = c) := by
  obtain ⟨transforms, hmake, hcover⟩ := Transform.exists_mapM_make hchain
  refine ⟨transforms, hmake, size_mulInts hcover ha hb, fun i hi c hc => ?_⟩
  have hcentered : IsCentered (modulusProduct moduli) c
      ((mulInts moduli transforms a b).getD i 0) := by
    rw [hc, Negacyclic.coeff_modByMonic _ _ hi]
    exact isCentered_mulInts hchain.distinctPrimes hcover ha hb hi
  refine ⟨fun z => ⟨fun hz => hz.unique hcentered, fun hz => hz ▸ hcentered⟩, fun hlow hhigh => ?_⟩
  exact hcentered.unique (isCentered_self hlow hhigh)

/-- The chain 5, 13 multiplies `3 - 2X` and `1 + 4X` modulo `X ^ 2 + 1` to `11 + 10X`. -/
theorem mulInts_centered_of_five_thirteen :
    TransformChain (2 ^ 1) [⟨5⟩, ⟨13⟩] ∧ #[3, -2].size = 2 ^ 1 ∧ #[1, 4].size = 2 ^ 1 ∧
      ∃ transforms, [⟨5⟩, ⟨13⟩].mapM (Transform.make (2 ^ 1)) = .ok transforms ∧
        (mulInts [⟨5⟩, ⟨13⟩] transforms #[3, -2] #[1, 4]).getD 0 0 = 11 ∧
        (mulInts [⟨5⟩, ⟨13⟩] transforms #[3, -2] #[1, 4]).getD 1 0 = 10 := by
  have hchain : TransformChain (2 ^ 1) [⟨5⟩, ⟨13⟩] :=
    { nonempty := by simp
      nodup := by decide
      prime := by simp; norm_num
      lt := by simp
      congruent := by simp }
  obtain ⟨transforms, hmake, -, hproduct⟩ :=
    mulInts_centered 1 [⟨5⟩, ⟨13⟩] hchain #[3, -2] #[1, 4] rfl rfl
  have hlow := hproduct 0 (by norm_num) 11 (by
    rw [Negacyclic.coeff_modByMonic _ _ (by norm_num)]
    decide)
  have hhigh := hproduct 1 (by norm_num) 10 (by
    rw [Negacyclic.coeff_modByMonic _ _ (by norm_num)]
    decide)
  refine ⟨hchain, rfl, rfl, transforms, hmake, ?_, ?_⟩
  · exact hlow.2 (by decide) (by decide)
  · exact hhigh.2 (by decide) (by decide)

end ResiduePoly

end EncryptedReals

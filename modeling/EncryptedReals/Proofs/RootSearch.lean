import EncryptedReals.Proofs.Context
import EncryptedReals.Proofs.Ring.Powers
import Mathlib.GroupTheory.OrderOfElement

/-!
# Which moduli have a root, and their transforms

The search for a root returns one exactly when it can: modulo a prime `q` there is an element whose
`n`-th power is `-1` if and only if `q` is 1 modulo `2 * n`.  For a power of two `n` that element has the
order `2 * n`, since its order divides `2 * n` but not `n`.  The primes of a generated chain are 1 modulo
twice the ring dimension, so each has its transform, and the chain has its context.

## Main results

* `Modulus.primitiveRoot?_isSome_iff` — when the search finds a root
* `Modulus.orderOf_eq_of_pow_eq_neg_one` — the order of what it finds
* `Parameters.exists_ofRoot`, `Context.exists_make` — transforms and contexts of generated chains
* `Modulus.rootSearch_complete` — the three together
-/

namespace EncryptedReals

namespace Modulus

variable {q : Modulus} {k n psi : ℕ}

/-- **A root is found exactly modulo the primes that are 1 modulo `2 * n`.** -/
theorem primitiveRoot?_isSome_iff (hprime : q.value.Prime) (n : ℕ) :
    (∃ psi, q.primitiveRoot? n = some psi) ↔ q.value % (2 * n) = 1 := by
  have : Fact q.value.Prime := ⟨hprime⟩
  constructor
  · rintro ⟨psi, hroot⟩
    by_contra hmod
    rw [primitiveRoot?, if_neg hmod] at hroot
    cases hroot
  · intro hmod
    obtain ⟨psi, hroot, -, -⟩ := exists_primitiveRoot? hmod
    exact ⟨psi, hroot⟩

/-- What is found is a residue whose `n`-th power is `-1`. -/
theorem pow_of_primitiveRoot? (hq : 1 < q.value) (h : q.primitiveRoot? n = some psi) :
    psi < q.value ∧ (psi : ZMod q.value) ^ n = -1 := by
  rw [primitiveRoot?] at h
  split at h
  · exact pow_eq_neg_one_of_searchRoot hq h
  · cases h

/-- **An element whose power `2 ^ k` is `-1` has the order `2 ^ (k + 1)`.** -/
theorem orderOf_eq_of_pow_eq_neg_one (hq : 2 < q.value) {x : ZMod q.value}
    (hx : x ^ 2 ^ k = -1) : orderOf x = 2 * 2 ^ k := by
  have : Fact (2 < q.value) := ⟨hq⟩
  rw [← pow_succ']
  refine orderOf_eq_prime_pow ?_ ?_
  · rw [hx]
    exact ZMod.neg_one_ne_one
  · rw [pow_succ, pow_mul, hx, neg_one_sq]

end Modulus

/-! ### Generated chains -/

/-- **A prime of a generated chain has its transform**, built from the root that is found. -/
theorem Parameters.exists_ofRoot {params : Parameters} {degree : ℕ} {widths : List ℕ}
    {security : Security} (hmake : make degree widths security = .ok params) {q : Modulus}
    (hq : q ∈ params.moduli) (hprime : q.value.Prime) :
    ∃ psi, q.primitiveRoot? params.degree = some psi ∧
      Transform.make params.degree q =
        .ok (Transform.ofRoot q params.degree params.degree.log2 psi) := by
  obtain ⟨hdegree, ⟨k, -, hpower⟩, -⟩ := make_spec hmake
  obtain ⟨-, hlt, hmod⟩ := modulus_spec hmake hq
  rw [hdegree, hpower] at hmod ⊢
  obtain ⟨psi, hroot, htransform, -⟩ :=
    Transform.make_eq_ofRoot hprime (hlt.trans (by norm_num)) hmod
  rw [Nat.log2_two_pow]
  exact ⟨psi, hroot, htransform⟩

/-- **A generated chain of primes has its context**, under every number. -/
theorem Context.exists_make {params : Parameters} {degree : ℕ} {widths : List ℕ}
    {security : Security} (hmake : Parameters.make degree widths security = .ok params)
    (hprime : ∀ q ∈ params.moduli, q.value.Prime) (id : ℕ) :
    ∃ ctx, make id params = .ok ctx ∧ ctx.Made := by
  obtain ⟨k, -, hdegree, hchain⟩ := Parameters.exists_chain hmake hprime
  obtain ⟨transforms, htransforms, -⟩ := Transform.exists_mapM_make hchain
  rw [← hdegree] at htransforms
  have hcontext : make id params = .ok ⟨id, params, transforms, Embedding.make params.degree⟩ := by
    simp only [make, htransforms]
    rfl
  exact ⟨_, hcontext, ⟨degree, widths, security, hmake⟩, hcontext, hprime⟩

/-! ### The search is complete -/

/-- **Roots are found where they exist, and chains have their transforms.**  Modulo a prime the search for
the length `2 ^ k` returns a root exactly when the prime is 1 modulo `2 * 2 ^ k`, and what it returns is a
residue with the power `2 ^ k` equal to `-1` and the multiplicative order `2 * 2 ^ k`.  Every modulus of a
generated chain passed the primality test and is 1 modulo twice the ring dimension, and when it is prime
it has the transform of that dimension; so where the test did not err there is a context. -/
theorem Modulus.rootSearch_complete :
    (∀ (q : Modulus) (k : ℕ), q.value.Prime →
      ((∃ psi, q.primitiveRoot? (2 ^ k) = some psi) ↔ q.value % (2 * 2 ^ k) = 1) ∧
      ∀ psi, q.primitiveRoot? (2 ^ k) = some psi →
        psi < q.value ∧ psi ^ 2 ^ k % q.value = q.value - 1 ∧
          orderOf (psi : ZMod q.value) = 2 * 2 ^ k) ∧
    ∀ degree widths security params, Parameters.make degree widths security = .ok params →
      (∀ q ∈ params.moduli, Primality.isPrime q.value = true ∧ q.value % (2 * params.degree) = 1 ∧
        (q.value.Prime → ∃ psi, q.primitiveRoot? params.degree = some psi ∧
          Transform.make params.degree q =
            .ok (Transform.ofRoot q params.degree params.degree.log2 psi))) ∧
      ((∀ q ∈ params.moduli, Primality.isPrime q.value = true → q.value.Prime) →
        ∀ id, ∃ ctx, Context.make id params = .ok ctx) := by
  constructor
  · intro q k hprime
    refine ⟨primitiveRoot?_isSome_iff hprime _, fun psi hroot => ?_⟩
    have hmod := (primitiveRoot?_isSome_iff hprime _).mp ⟨psi, hroot⟩
    have hodd : q.value % 2 = 1 := by
      rw [← Nat.mod_mod_of_dvd q.value (dvd_mul_right 2 (2 ^ k)), hmod]
    have htwo := hprime.two_le
    obtain ⟨hlt, hpow⟩ := pow_of_primitiveRoot? hprime.one_lt hroot
    refine ⟨hlt, ?_, orderOf_eq_of_pow_eq_neg_one (by omega) hpow⟩
    rw [← pow_eq_mod hprime.one_lt]
    exact (pow_eq_value_sub_one_iff hprime.one_lt _ _).mpr hpow
  · intro degree widths security params hmake
    refine ⟨fun q hq => ?_, fun hdecides id => ?_⟩
    · obtain ⟨hpasses, -, hmod⟩ := Parameters.modulus_spec hmake hq
      exact ⟨hpasses, hmod, Parameters.exists_ofRoot hmake hq⟩
    · have hprime : ∀ q ∈ params.moduli, q.value.Prime := fun q hq =>
        hdecides q hq (Parameters.modulus_spec hmake hq).1
      obtain ⟨ctx, hcontext, -⟩ := Context.exists_make hmake hprime id
      exact ⟨ctx, hcontext⟩

/-- A prime of 63 bits that is 1 modulo `2 ^ 32`. -/
theorem Modulus.prime_large : Nat.Prime 9223372006790004737 :=
  (by decide +kernel : Certifies ⟨9223372006790004737⟩ 3 32 [2699, 795659]).prime (by norm_num)

/-- That prime has a root for the length `2 ^ 31`, 13 has none for the length 4, and the chain of 17, 41
and 113 has its context. -/
theorem Modulus.rootSearch_complete_large :
    (∃ psi, (⟨9223372006790004737⟩ : Modulus).primitiveRoot? (2 ^ 31) = some psi ∧
      orderOf (psi : ZMod 9223372006790004737) = 2 * 2 ^ 31) ∧
    (¬∃ psi, (⟨13⟩ : Modulus).primitiveRoot? (2 ^ 2) = some psi) ∧
    ∃ params, Parameters.make 4 [5, 6, 7] .unchecked = .ok params ∧
      ∃ ctx, Context.make 0 params = .ok ctx := by
  obtain ⟨hroots, hchains⟩ := rootSearch_complete
  obtain ⟨hlarge, horder⟩ := hroots ⟨9223372006790004737⟩ 31 prime_large
  obtain ⟨psi, hpsi⟩ := hlarge.mpr (by norm_num)
  refine ⟨⟨psi, hpsi, (horder psi hpsi).2.2⟩, ?_, ?_⟩
  · rw [(hroots ⟨13⟩ 2 (by norm_num)).1]
    norm_num
  · have hmake : Parameters.make 4 [5, 6, 7] .unchecked = .ok Context.small.parameters := rfl
    obtain ⟨-, hcontexts⟩ := hchains 4 [5, 6, 7] .unchecked _ hmake
    exact ⟨_, hmake, hcontexts (fun q hq _ => Context.made_small.prime q hq) 0⟩

end EncryptedReals

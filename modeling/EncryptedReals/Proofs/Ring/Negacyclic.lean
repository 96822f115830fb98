import Mathlib

/-!
# Polynomials modulo `X ^ n + 1`

A polynomial with `n` coefficients is a function `ℕ → R` that is read below `n`.
Two operations on such functions are what the ring `R[X] / (X ^ n + 1)` does:
the product `mul` and the substitution `X ↦ X ^ g`.  Both are given by their
coefficients, so that they compute and can be bounded, and both are pinned down
twice: by their values at every `x` with `x ^ n = -1`, and, for the product, by
Mathlib's remainder modulo `X ^ n + 1`.

## Main Definitions

* `eval` — the value at a point, and `evalInt` for integer coefficients
* `shift` — multiplication by a power of `X`
* `mul` — the product
* `substitute` — the substitution `X ↦ X ^ g`
* `poly` — the polynomial in Mathlib's sense

## Main results

* `eval_mul`, `eval_substitute` — values at the roots of `X ^ n + 1`
* `coeff_modByMonic` — `mul` is the product modulo `X ^ n + 1`
* `eq_of_forall_eval_eq` — the values at the roots determine the coefficients
* `abs_mul_le` — the coefficients of a product of small polynomials
-/

namespace EncryptedReals.Negacyclic

open Finset Polynomial

universe u

variable {R S : Type*} [CommRing R] [CommRing S] {n : ℕ}

/-! ### Values -/

/-- The value at `x` of the polynomial with the coefficients `c 0`, …, `c (n - 1)`. -/
def eval (n : ℕ) (c : ℕ → R) (x : R) : R :=
  ∑ i ∈ range n, c i * x ^ i

/-- The value at `x` of an integer polynomial, in any ring. -/
def evalInt (n : ℕ) (c : ℕ → ℤ) (x : R) : R :=
  eval n (fun i => (c i : R)) x

theorem eval_congr {c d : ℕ → R} (h : ∀ i < n, c i = d i) (x : R) :
    eval n c x = eval n d x :=
  sum_congr rfl fun i hi => by rw [h i (mem_range.mp hi)]

theorem eval_add (c d : ℕ → R) (x : R) :
    eval n (fun i => c i + d i) x = eval n c x + eval n d x := by
  simp only [eval, add_mul, sum_add_distrib]

theorem eval_sub (c d : ℕ → R) (x : R) :
    eval n (fun i => c i - d i) x = eval n c x - eval n d x := by
  simp only [eval, sub_mul, sum_sub_distrib]

theorem eval_const_mul (r : R) (c : ℕ → R) (x : R) :
    eval n (fun i => r * c i) x = r * eval n c x := by
  simp only [eval, mul_assoc, mul_sum]

theorem eval_sum {ι : Type*} (s : Finset ι) (c : ι → ℕ → R) (x : R) :
    eval n (fun i => ∑ j ∈ s, c j i) x = ∑ j ∈ s, eval n (c j) x := by
  simp only [eval, sum_mul]
  exact sum_comm

theorem evalInt_add (c d : ℕ → ℤ) (x : R) :
    evalInt n (fun i => c i + d i) x = evalInt n c x + evalInt n d x := by
  simp only [evalInt, Int.cast_add]
  exact eval_add _ _ x

theorem evalInt_sub (c d : ℕ → ℤ) (x : R) :
    evalInt n (fun i => c i - d i) x = evalInt n c x - evalInt n d x := by
  simp only [evalInt, Int.cast_sub]
  exact eval_sub _ _ x

theorem evalInt_sum {ι : Type*} (s : Finset ι) (c : ι → ℕ → ℤ) (x : R) :
    evalInt n (fun i => ∑ j ∈ s, c j i) x = ∑ j ∈ s, evalInt n (c j) x := by
  simp only [evalInt, Int.cast_sum]
  exact eval_sum s (fun j i => (c j i : R)) x

/-- Integer coefficients with a common divisor. -/
theorem evalInt_eq_mul_ediv {c : ℕ → ℤ} {d : ℕ} (h : ∀ i < n, (d : ℤ) ∣ c i) (x : R) :
    evalInt n c x = d * evalInt n (fun i => c i / d) x := by
  rw [evalInt, evalInt, ← eval_const_mul]
  refine eval_congr (fun i hi => ?_) x
  rw [← Int.cast_natCast, ← Int.cast_mul, Int.mul_ediv_cancel' (h i hi)]

theorem hom_eval (f : R →+* S) (c : ℕ → R) (x : R) :
    f (eval n c x) = eval n (fun i => f (c i)) (f x) := by
  simp only [eval, map_sum, map_mul, map_pow]

/-! ### Products -/

/-- The coefficients of `X ^ i` times a polynomial.  What passes the top comes
back at the bottom with the other sign. -/
def shift (n i : ℕ) (c : ℕ → R) (k : ℕ) : R :=
  if i ≤ k then c (k - i) else -c (n + k - i)

/-- **The coefficients of a product modulo `X ^ n + 1`.** -/
def mul (n : ℕ) (a b : ℕ → R) (k : ℕ) : R :=
  ∑ i ∈ range n, a i * shift n i b k

theorem shift_congr {b b' : ℕ → R} (h : ∀ i < n, b i = b' i) {i k : ℕ} (hk : k < n) :
    shift n i b k = shift n i b' k := by
  unfold shift
  split
  · rw [h _ (by omega)]
  · rw [h _ (by omega)]

theorem mul_congr {a a' b b' : ℕ → R} (ha : ∀ i < n, a i = a' i) (hb : ∀ i < n, b i = b' i)
    {k : ℕ} (hk : k < n) : mul n a b k = mul n a' b' k :=
  sum_congr rfl fun i hi => by rw [ha i (mem_range.mp hi), shift_congr hb hk]

theorem hom_shift (f : R →+* S) (i : ℕ) (c : ℕ → R) (k : ℕ) :
    f (shift n i c k) = shift n i (fun j => f (c j)) k := by
  unfold shift
  split
  · rfl
  · rw [map_neg]

theorem hom_mul (f : R →+* S) (a b : ℕ → R) (k : ℕ) :
    f (mul n a b k) = mul n (fun i => f (a i)) (fun i => f (b i)) k := by
  simp only [mul, map_sum, map_mul, hom_shift]

/-- A shift multiplies the value by a power of the point.  The two halves of the
range change places, and the upper one takes the factor `x ^ n = -1`. -/
theorem eval_shift {x : R} (hx : x ^ n = -1) {i : ℕ} (hi : i ≤ n) (c : ℕ → R) :
    eval n (shift n i c) x = x ^ i * eval n c x := by
  obtain ⟨m, rfl⟩ := Nat.exists_eq_add_of_le hi
  have hlow : ∀ k ∈ range i, shift (i + m) i c k * x ^ k = x ^ i * (c (m + k) * x ^ (m + k)) := by
    intro k hk
    have hki : k < i := mem_range.mp hk
    have hwrap : x ^ i * x ^ (m + k) = -x ^ k := by
      rw [← pow_add, ← add_assoc, pow_add, hx, neg_one_mul]
    rw [shift, if_neg (by omega), show i + m + k - i = m + k by omega,
      mul_left_comm (x ^ i), hwrap]
    ring
  have hhigh : ∀ k ∈ range m, shift (i + m) i c (i + k) * x ^ (i + k) = x ^ i * (c k * x ^ k) := by
    intro k _
    rw [shift, if_pos (by omega), Nat.add_sub_cancel_left, pow_add]
    ring
  calc eval (i + m) (shift (i + m) i c) x
      = ∑ k ∈ range i, shift (i + m) i c k * x ^ k +
          ∑ k ∈ range m, shift (i + m) i c (i + k) * x ^ (i + k) := sum_range_add _ _ _
    _ = ∑ k ∈ range i, x ^ i * (c (m + k) * x ^ (m + k)) +
          ∑ k ∈ range m, x ^ i * (c k * x ^ k) := by
        rw [sum_congr rfl hlow, sum_congr rfl hhigh]
    _ = x ^ i * eval (i + m) c x := by
        rw [← mul_sum, ← mul_sum, ← mul_add, eval, Nat.add_comm i m, sum_range_add, add_comm]

/-- **The value of a product** at a root of `X ^ n + 1`. -/
theorem eval_mul {x : R} (hx : x ^ n = -1) (a b : ℕ → R) :
    eval n (mul n a b) x = eval n a x * eval n b x := by
  calc eval n (mul n a b) x
      = ∑ i ∈ range n, eval n (fun k => a i * shift n i b k) x := eval_sum _ _ _
    _ = ∑ i ∈ range n, a i * x ^ i * eval n b x := by
        refine sum_congr rfl fun i hi => ?_
        rw [eval_const_mul, eval_shift hx (mem_range.mp hi).le, mul_assoc]
    _ = eval n a x * eval n b x := by rw [← sum_mul, ← eval]

/-- The value of a product of integer polynomials in another ring. -/
theorem evalInt_mul {x : R} (hx : x ^ n = -1) (a b : ℕ → ℤ) :
    evalInt n (mul n a b) x = evalInt n a x * evalInt n b x := by
  have hcast : (fun k => ((mul n a b k : ℤ) : R)) =
      mul n (fun k => (a k : R)) fun k => (b k : R) := by
    funext k
    exact hom_mul (Int.castRingHom R) a b k
  rw [evalInt, hcast, eval_mul hx, evalInt, evalInt]

/-- **A product of small polynomials is small**: each coefficient has `n` terms. -/
theorem abs_mul_le {a b : ℕ → ℤ} {A B : ℤ} (ha : ∀ i < n, |a i| ≤ A) (hb : ∀ i < n, |b i| ≤ B)
    {k : ℕ} (hk : k < n) : |mul n a b k| ≤ n * (A * B) := by
  have hshift : ∀ i < n, |shift n i b k| ≤ B := by
    intro i hi
    unfold shift
    split
    · exact hb _ (by omega)
    · rw [abs_neg]
      exact hb _ (by omega)
  calc |mul n a b k|
      ≤ ∑ i ∈ range n, |a i * shift n i b k| := abs_sum_le_sum_abs _ _
    _ ≤ ∑ _i ∈ range n, A * B := by
        refine sum_le_sum fun i hi => ?_
        have hi' := mem_range.mp hi
        rw [abs_mul]
        exact mul_le_mul (ha i hi') (hshift i hi') (abs_nonneg _)
          ((abs_nonneg _).trans (ha i hi'))
    _ = n * (A * B) := by rw [sum_const, card_range, nsmul_eq_mul]

/-! ### Substitution -/

/-- **The coefficients of `c (X ^ g)` modulo `X ^ n + 1`.**  The power `X ^ (i * g)`
is `X ^ k` or `-X ^ k`, as `i * g` is `k` or `k + n` modulo `2 * n`. -/
def substitute (n g : ℕ) (c : ℕ → R) (k : ℕ) : R :=
  ∑ i ∈ range n,
    if i * g % (2 * n) = k then c i else if i * g % (2 * n) = k + n then -c i else 0

theorem substitute_congr {c d : ℕ → R} (h : ∀ i < n, c i = d i) (g k : ℕ) :
    substitute n g c k = substitute n g d k :=
  sum_congr rfl fun i hi => by rw [h i (mem_range.mp hi)]

theorem hom_substitute (f : R →+* S) (g : ℕ) (c : ℕ → R) (k : ℕ) :
    f (substitute n g c k) = substitute n g (fun i => f (c i)) k := by
  simp only [substitute, map_sum, apply_ite f, map_neg, map_zero]

/-- A substitution is additive. -/
theorem substitute_add (g : ℕ) (c d : ℕ → R) (k : ℕ) :
    substitute n g (fun i => c i + d i) k = substitute n g c k + substitute n g d k := by
  rw [substitute, substitute, substitute, ← sum_add_distrib]
  refine sum_congr rfl fun i _ => ?_
  split_ifs <;> ring

/-- A root of `X ^ n + 1` takes exponents modulo `2 * n`. -/
theorem pow_mod_of_pow_eq_neg_one {x : R} (hx : x ^ n = -1) (m : ℕ) :
    x ^ (m % (2 * n)) = x ^ m := by
  have hone : x ^ (2 * n) = 1 := by rw [mul_comm, pow_mul, hx, neg_one_sq]
  conv_rhs => rw [← Nat.div_add_mod m (2 * n), pow_add, pow_mul, hone, one_pow, one_mul]

/-- The value of the one power that `substitute` puts at an exponent below `2 * n`. -/
theorem eval_signed_power {x : R} (hx : x ^ n = -1) {m : ℕ} (hm : m < 2 * n) (r : R) :
    eval n (fun k => if m = k then r else if m = k + n then -r else 0) x = r * x ^ m := by
  rcases Nat.lt_or_ge m n with hlt | hge
  · rw [eval, sum_eq_single_of_mem m (mem_range.mpr hlt)]
    · rw [if_pos rfl]
    · intro k hk hne
      rw [if_neg (Ne.symm hne), if_neg (by omega), zero_mul]
  · rw [eval, sum_eq_single_of_mem (m - n) (mem_range.mpr (by omega))]
    · have hpow : x ^ m = -x ^ (m - n) := by
        conv_lhs => rw [← Nat.sub_add_cancel hge, pow_add, hx, mul_neg_one]
      have hpos : 0 < n := by omega
      rw [if_neg (by omega), if_pos (by omega), hpow]
      ring
    · intro k hk hne
      have hkn : k < n := mem_range.mp hk
      rw [if_neg (by omega), if_neg (by omega), zero_mul]

/-- **The value after `X ↦ X ^ g`** at a root of `X ^ n + 1`. -/
theorem eval_substitute {x : R} (hx : x ^ n = -1) (g : ℕ) (c : ℕ → R) :
    eval n (substitute n g c) x = eval n c (x ^ g) := by
  calc eval n (substitute n g c) x
      = ∑ i ∈ range n, eval n (fun k => if i * g % (2 * n) = k then c i
          else if i * g % (2 * n) = k + n then -c i else 0) x := eval_sum _ _ _
    _ = ∑ i ∈ range n, c i * (x ^ g) ^ i := by
        refine sum_congr rfl fun i hi => ?_
        have hpos : 0 < n := (Nat.zero_le i).trans_lt (mem_range.mp hi)
        rw [eval_signed_power hx (Nat.mod_lt _ (by omega)), pow_mod_of_pow_eq_neg_one hx,
          mul_comm i g, pow_mul]

/-! ### The remainder modulo `X ^ n + 1` -/

/-- The polynomial with the coefficients `c 0`, …, `c (n - 1)`. -/
noncomputable def poly (n : ℕ) (c : ℕ → R) : R[X] :=
  eval n (fun i => C (c i)) X

theorem coeff_poly (c : ℕ → R) (k : ℕ) : (poly n c).coeff k = if k < n then c k else 0 := by
  simp only [poly, eval, finsetSum_coeff, coeff_C_mul, coeff_X_pow, mul_ite, mul_one, mul_zero,
    sum_ite_eq, mem_range]

theorem degree_poly_lt (c : ℕ → R) : (poly n c).degree < n := by
  rw [degree_lt_iff_coeff_zero]
  intro k hk
  rw [coeff_poly, if_neg (by omega)]

/-- The class of `X` is a root of `X ^ n + 1`. -/
theorem root_pow_eq_neg_one : AdjoinRoot.root (X ^ n + 1 : R[X]) ^ n = -1 := by
  rw [AdjoinRoot.root, ← map_pow, eq_neg_iff_add_eq_zero, ← map_one (AdjoinRoot.mk (X ^ n + 1 : R[X])),
    ← map_add]
  exact AdjoinRoot.mk_self

/-- The class of a polynomial is its value at the class of `X`. -/
theorem mk_poly (c : ℕ → R) : AdjoinRoot.mk (X ^ n + 1) (poly n c) =
    eval n (fun i => AdjoinRoot.of (X ^ n + 1) (c i)) (AdjoinRoot.root (X ^ n + 1)) :=
  hom_eval _ _ _

/-- The product of the polynomials differs from `mul` by a multiple of `X ^ n + 1`,
because the two agree in the quotient, where `X` is a root. -/
theorem dvd_poly_mul_sub (a b : ℕ → R) :
    X ^ n + 1 ∣ poly n a * poly n b - poly n (mul n a b) := by
  rw [← AdjoinRoot.mk_eq_mk, map_mul, mk_poly, mk_poly, ← eval_mul root_pow_eq_neg_one, mk_poly]
  exact eval_congr (fun k _ => (hom_mul (AdjoinRoot.of (X ^ n + 1)) a b k).symm) _

/-- **`mul` is the product modulo `X ^ n + 1`.** -/
theorem coeff_modByMonic [Nontrivial R] (a b : ℕ → R) {k : ℕ} (hk : k < n) :
    ((poly n a * poly n b) %ₘ (X ^ n + 1)).coeff k = mul n a b k := by
  have hn : n ≠ 0 := by omega
  have hmonic : (X ^ n + 1 : R[X]).Monic := monic_X_pow_add_C 1 hn
  have hdegree : (X ^ n + 1 : R[X]).degree = n :=
    degree_X_pow_add_C (Nat.pos_of_ne_zero hn) 1
  rw [modByMonic_eq_of_dvd_sub hmonic (dvd_poly_mul_sub a b),
    (modByMonic_eq_self_iff hmonic).mpr (hdegree ▸ degree_poly_lt _), coeff_poly, if_pos hk]

/-- **The values at the roots of `X ^ n + 1` in every ring determine the coefficients.**  One root is
enough, the class of `X`. -/
theorem eq_of_forall_eval_eq {R : Type u} [CommRing R] {c d : ℕ → R}
    (h : ∀ (S : Type u) [CommRing S] (f : R →+* S) (x : S), x ^ n = -1 →
      eval n (fun i => f (c i)) x = eval n (fun i => f (d i)) x) {k : ℕ} (hk : k < n) :
    c k = d k := by
  nontriviality R
  have hn : n ≠ 0 := by omega
  have hmonic : (X ^ n + 1 : R[X]).Monic := monic_X_pow_add_C 1 hn
  have hdegree : (X ^ n + 1 : R[X]).degree = n :=
    degree_X_pow_add_C (Nat.pos_of_ne_zero hn) 1
  have hdvd : X ^ n + 1 ∣ poly n c - poly n d := by
    rw [← AdjoinRoot.mk_eq_mk, mk_poly, mk_poly]
    exact h _ _ _ root_pow_eq_neg_one
  have hzero : poly n c - poly n d = 0 := by
    by_contra hne
    refine hmonic.not_dvd_of_degree_lt hne ?_ hdvd
    rw [hdegree]
    exact (degree_sub_le _ _).trans_lt (max_lt (degree_poly_lt c) (degree_poly_lt d))
  have hcoeff := congrArg (fun p => coeff p k) (sub_eq_zero.mp hzero)
  simpa only [coeff_poly, if_pos hk] using hcoeff

end EncryptedReals.Negacyclic

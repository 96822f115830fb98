import EncryptedReals.Coefficients
import EncryptedReals.Proofs.Doubles
import EncryptedReals.Proofs.Ring.ResiduePoly

/-!
# Chebyshev coefficients are exact or refused

The recurrence for the Chebyshev polynomials subtracts, but it never cancels: the coefficients of a
polynomial alternate in sign from its leading one downwards, and so the two terms of every difference
point the same way.  The coefficients without their signs obey a recurrence of sums (`magnitude`), and
every number on the way to a coefficient is at most as large as the coefficient.

Numbers only grow from one polynomial to the next.  So a step that leaves the words is a step to a
polynomial that does, all later polynomials leave them too, and the recurrence has a result exactly when
the polynomial that is asked for has its coefficients in the words.

## Main Definitions

* `magnitude` — the coefficients without their signs
* `chebyshevRow` — the coefficients of a Chebyshev polynomial
* `significantBits` — the bits from the highest to the lowest that is set
* `IsReturnable` — the coefficients that can be returned

## Main results

* `coeff_chebyshev` — signs and magnitudes
* `chebyshev?_eq` — when the recurrence has a result, and which
* `isExactDouble_iff` — the integers that are doubles
* `Strategy.chebyshev_exact_or_refused` — exact coefficients, or a refusal that is deserved
-/

namespace EncryptedReals

open Polynomial

namespace Coefficients

variable {n k : ℕ}

/-! ### Signs and magnitudes -/

theorem coeff_chebyshev_add_two_zero (n : ℕ) :
    (Chebyshev.T ℤ (n + 2 : ℕ)).coeff 0 = -(Chebyshev.T ℤ n).coeff 0 := by
  rw [Nat.cast_add, Nat.cast_ofNat, Chebyshev.T_add_two, mul_assoc, coeff_sub, coeff_ofNat_mul,
    mul_comm X, coeff_mul_X_zero, mul_zero, zero_sub]

theorem coeff_chebyshev_add_two_succ (n k : ℕ) : (Chebyshev.T ℤ (n + 2 : ℕ)).coeff (k + 1) =
    2 * (Chebyshev.T ℤ (n + 1 : ℕ)).coeff k - (Chebyshev.T ℤ n).coeff (k + 1) := by
  rw [Nat.cast_add, Nat.cast_ofNat, Chebyshev.T_add_two, mul_assoc, coeff_sub, coeff_ofNat_mul,
    mul_comm X, coeff_mul_X, Nat.cast_add, Nat.cast_one]

/-- **The coefficients without their signs**: the recurrence with a sum for the difference. -/
def magnitude : (degree k : ℕ) → ℕ
  | 0, 0 => 1
  | 0, _ + 1 => 0
  | 1, 0 => 0
  | 1, 1 => 1
  | 1, _ + 2 => 0
  | n + 2, 0 => magnitude n 0
  | n + 2, k + 1 => 2 * magnitude (n + 1) k + magnitude n (k + 1)

theorem magnitude_of_lt : ∀ {n k : ℕ}, n < k → magnitude n k = 0
  | 0, _ + 1, _ => rfl
  | 1, _ + 2, _ => rfl
  | n + 2, k + 1, h => by
      rw [magnitude, magnitude_of_lt (by omega : n + 1 < k), magnitude_of_lt (by omega : n < k + 1)]

/-- Two degrees up, the sign of a coefficient turns. -/
theorem sign_add_two (hk : k ≤ n) : (-1 : ℤ) ^ ((n + 2 - k) / 2) = -(-1) ^ ((n - k) / 2) := by
  rw [show (n + 2 - k) / 2 = (n - k) / 2 + 1 by omega, pow_succ, mul_neg_one]

/-- **Signs alternate** from the leading coefficient downwards, in steps of two. -/
theorem coeff_chebyshev : ∀ n k : ℕ,
    (Chebyshev.T ℤ n).coeff k = (-1) ^ ((n - k) / 2) * magnitude n k
  | 0, 0 => by simp [magnitude]
  | 0, k + 1 => by simp [magnitude, coeff_one]
  | 1, 0 => by simp [magnitude]
  | 1, 1 => by simp [magnitude]
  | 1, k + 2 => by simp [magnitude, coeff_X]
  | n + 2, 0 => by
      rw [coeff_chebyshev_add_two_zero, coeff_chebyshev n 0, sign_add_two (Nat.zero_le n), magnitude,
        neg_mul]
  | n + 2, k + 1 => by
      rw [coeff_chebyshev_add_two_succ, coeff_chebyshev (n + 1) k, coeff_chebyshev n (k + 1),
        magnitude, Nat.cast_add, Nat.cast_mul, Nat.cast_ofNat]
      rcases Nat.lt_or_ge n (k + 1) with hlt | hle
      · rw [magnitude_of_lt hlt, show n + 2 - (k + 1) = n + 1 - k by omega]
        ring
      · rw [sign_add_two hle, show (n + 1 - k) / 2 = (n - (k + 1)) / 2 + 1 by omega, pow_succ]
        ring

theorem coeff_chebyshev_of_lt (h : n < k) : (Chebyshev.T ℤ n).coeff k = 0 := by
  rw [coeff_chebyshev, magnitude_of_lt h, Nat.cast_zero, mul_zero]

/-! ### Words -/

theorem inWord_iff {x : ℤ} : inWord x = true ↔ -2 ^ 63 ≤ x ∧ x < 2 ^ 63 := by
  rw [inWord, Bool.and_eq_true, decide_eq_true_eq, decide_eq_true_eq]

/-- A number of the same sign that is not larger is in the words too. -/
theorem inWord_of_le {a b : ℕ} (e : ℕ) (hab : a ≤ b) (hb : inWord ((-1) ^ e * b) = true) :
    inWord ((-1) ^ e * a) = true := by
  rw [inWord_iff] at hb ⊢
  rcases neg_one_pow_eq_or ℤ e with he | he <;> rw [he] at hb ⊢ <;> omega

/-- **The double of a coefficient** is in the words when the coefficient next to it is, one degree up. -/
theorem inWord_two_mul (h : inWord ((Chebyshev.T ℤ (n + 2 : ℕ)).coeff (k + 1)) = true) :
    inWord (2 * (Chebyshev.T ℤ (n + 1 : ℕ)).coeff k) = true := by
  have hle : 2 * magnitude (n + 1) k ≤ magnitude (n + 2) (k + 1) := by
    rw [magnitude]
    exact Nat.le_add_right _ _
  rw [coeff_chebyshev] at h ⊢
  have hsmall := inWord_of_le _ hle h
  rwa [show n + 2 - (k + 1) = n + 1 - k by omega, Nat.cast_mul, Nat.cast_ofNat, mul_left_comm]
    at hsmall

/-! ### The recurrence -/

/-- **The coefficients of a Chebyshev polynomial**, the constant first. -/
noncomputable def chebyshevRow (n : ℕ) : List ℤ :=
  (List.range (n + 1)).map (Chebyshev.T ℤ n).coeff

theorem length_chebyshevRow (n : ℕ) : (chebyshevRow n).length = n + 1 := by
  rw [chebyshevRow, List.length_map, List.length_range]

theorem getElem?_chebyshevRow (hk : k ≤ n) :
    (chebyshevRow n)[k]? = some ((Chebyshev.T ℤ n).coeff k) := by
  rw [chebyshevRow, List.getElem?_map, List.getElem?_range (Nat.lt_succ_of_le hk), Option.map_some]

theorem getElem?_chebyshevRow_of_lt (hk : n < k) : (chebyshevRow n)[k]? = none :=
  List.getElem?_eq_none (by rw [length_chebyshevRow]; exact hk)

/-- A property of the members is one of all coefficients that holds of zero. -/
theorem all_chebyshevRow {p : ℤ → Bool} (hp : p 0 = true) :
    (chebyshevRow n).all p = true ↔ ∀ k, p ((Chebyshev.T ℤ n).coeff k) = true := by
  rw [chebyshevRow, List.all_map, List.all_eq_true]
  refine ⟨fun h k => ?_, fun h k _ => h k⟩
  rcases Nat.lt_or_ge n k with hlt | hle
  · rwa [coeff_chebyshev_of_lt hlt]
  · exact h k (List.mem_range.mpr (Nat.lt_succ_of_le hle))

theorem chebyshevRow_zero : chebyshevRow 0 = [1] := by
  simp [chebyshevRow]

theorem chebyshevRow_one : chebyshevRow 1 = [0, 1] := by
  simp [chebyshevRow, List.range_succ]

/-- **One step of the recurrence** gives the next polynomial. -/
theorem overlay_chebyshevRow (n : ℕ) :
    overlay (· - ·) (0 :: (chebyshevRow (n + 1)).map (2 * ·)) (chebyshevRow n) =
      chebyshevRow (n + 2) := by
  refine List.ext_getElem? fun k => ?_
  rw [getElem?_overlay_eq]
  cases k with
  | zero =>
      rw [List.getElem?_cons_zero, getElem?_chebyshevRow (Nat.zero_le n),
        getElem?_chebyshevRow (Nat.zero_le _), coeff_chebyshev_add_two_zero, ← zero_sub]
      rfl
  | succ k =>
      rw [List.getElem?_cons_succ, List.getElem?_map]
      rcases Nat.lt_or_ge (n + 1) k with hlt | hle
      · rw [getElem?_chebyshevRow_of_lt hlt, getElem?_chebyshevRow_of_lt (Nat.succ_lt_succ hlt)]
        rfl
      · rw [getElem?_chebyshevRow hle, getElem?_chebyshevRow (Nat.succ_le_succ hle),
          coeff_chebyshev_add_two_succ]
        rcases Nat.lt_or_ge n (k + 1) with hlt | hle
        · rw [getElem?_chebyshevRow_of_lt hlt, coeff_chebyshev_of_lt hlt, sub_zero]
          rfl
        · rw [getElem?_chebyshevRow hle]
          rfl

/-- **The numbers on the way** to a polynomial in the words are in the words. -/
theorem all_doubled (h : (chebyshevRow (n + 2)).all inWord = true) :
    (0 :: (chebyshevRow (n + 1)).map (2 * ·)).all inWord = true := by
  rw [all_chebyshevRow rfl] at h
  rw [List.all_cons, Bool.and_eq_true, List.all_map]
  refine ⟨rfl, ?_⟩
  rw [all_chebyshevRow rfl]
  exact fun k => inWord_two_mul (h (k + 1))

/-- **Before a polynomial in the words** come polynomials in the words. -/
theorem all_chebyshevRow_of_le {m : ℕ} (hle : n ≤ m) :
    (chebyshevRow (m + 1)).all inWord = true → (chebyshevRow (n + 1)).all inWord = true := by
  induction hle with
  | refl => exact id
  | @step m _ ih =>
      intro h
      have hdoubled := all_doubled h
      rw [List.all_cons, Bool.and_eq_true, List.all_map, all_chebyshevRow rfl] at hdoubled
      refine ih ((all_chebyshevRow rfl).mpr fun k => ?_)
      have htwice : -2 ^ 63 ≤ 2 * (Chebyshev.T ℤ (m + 1 : ℕ)).coeff k ∧
          2 * (Chebyshev.T ℤ (m + 1 : ℕ)).coeff k < 2 ^ 63 := inWord_iff.mp (hdoubled.2 k)
      rw [inWord_iff]
      omega

/-- A step leaves the words only when the next polynomial does. -/
theorem chebyshevStep?_eq (n : ℕ) : chebyshevStep? (chebyshevRow n) (chebyshevRow (n + 1)) =
    if (chebyshevRow (n + 2)).all inWord then some (chebyshevRow (n + 2)) else none := by
  unfold chebyshevStep?
  simp only [overlay_chebyshevRow]
  by_cases h : (chebyshevRow (n + 2)).all inWord = true
  · rw [all_doubled h, h]
    rfl
  · rw [Bool.not_eq_true] at h
    rw [h, Bool.and_false]

/-- **The recurrence from two neighbours on**, by induction on the steps that are left.  Where a step
fails, the polynomial at the end has left the words too. -/
theorem chebyshevFrom?_eq : ∀ (count n : ℕ), (chebyshevRow (n + 1)).all inWord = true →
    chebyshevFrom? (chebyshevRow n) (chebyshevRow (n + 1)) count =
      if (chebyshevRow (n + count + 1)).all inWord then some (chebyshevRow (n + count + 1))
      else none := by
  intro count
  induction count with
  | zero =>
      intro n h
      rw [chebyshevFrom?, Nat.add_zero, if_pos h]
  | succ count ih =>
      intro n _
      rw [chebyshevFrom?, chebyshevStep?_eq, show n + (count + 1) = n + 1 + count by omega]
      by_cases h : (chebyshevRow (n + 2)).all inWord = true
      · rw [if_pos h]
        exact ih (n + 1) h
      · have hend : (chebyshevRow (n + 1 + count + 1)).all inWord ≠ true :=
          fun hend => h (all_chebyshevRow_of_le (Nat.le_add_right _ _) hend)
        rw [if_neg h, if_neg hend]

/-- **When the recurrence has a result, and which.** -/
theorem chebyshev?_eq : ∀ degree : ℕ, chebyshev? degree =
    if (chebyshevRow degree).all inWord then some (chebyshevRow degree) else none
  | 0 => by
      rw [chebyshevRow_zero]
      rfl
  | degree + 1 => by
      have hstart : (chebyshevRow (0 + 1)).all inWord = true := by
        rw [chebyshevRow_one]
        rfl
      have hfrom := chebyshevFrom?_eq degree 0 hstart
      rwa [Nat.zero_add, chebyshevRow_zero, Nat.zero_add, chebyshevRow_one] at hfrom

/-! ### Doubles -/

/-- **The significant bits of an integer**: those from the highest to the lowest that is set. -/
def significantBits (x : ℤ) : ℕ :=
  bitLength x.natAbs - padicValNat 2 x.natAbs

/-- **An integer is a double when it has at most 53 significant bits.** -/
theorem isExactDouble_iff {x : ℤ} : isExactDouble x = true ↔ significantBits x ≤ 53 := by
  rw [isExactDouble, beq_iff_eq, significantBits, Nat.sub_le_iff_le_add,
    ← Nat.sub_le_iff_le_add']
  show x.natAbs % 2 ^ (bitLength x.natAbs - 53) = 0 ↔ _
  rcases Nat.eq_zero_or_pos x.natAbs with hzero | hpos
  · rw [hzero]
    simp [bitLength]
  · rw [← padicValNat_dvd_iff_le hpos.ne', Nat.dvd_iff_mod_eq_zero]

/-- **A coefficient that can be returned**: a word with at most 53 significant bits. -/
structure IsReturnable (x : ℤ) : Prop where
  word : -2 ^ 63 ≤ x ∧ x < 2 ^ 63
  significantBits_le : significantBits x ≤ 53

theorem isReturnable_iff {x : ℤ} : IsReturnable x ↔ inWord x = true ∧ isExactDouble x = true := by
  rw [inWord_iff, isExactDouble_iff]
  exact ⟨fun ⟨hword, hbits⟩ => ⟨hword, hbits⟩, fun ⟨hword, hbits⟩ => ⟨hword, hbits⟩⟩

/-- Such a coefficient is the value of the double that stands for it. -/
theorem IsReturnable.exists_value_nearest {x : ℤ} (h : IsReturnable x) :
    ∃ v, Binary64.ofFloat? (Binary64.nearest x) = some v ∧ v.value = x := by
  obtain ⟨hlow, hhigh⟩ := h.word
  have hmod : x.natAbs % 2 ^ (bitLength x.natAbs - 53) = 0 :=
    beq_iff_eq.mp (isReturnable_iff.mp h).2
  exact Binary64.exists_value_nearest (Nat.dvd_of_mod_eq_zero hmod) (by omega)

end Coefficients

namespace Strategy

open Coefficients

/-- **When there are coefficients, and which**: each one can be returned, and is. -/
theorem coefficients_chebyshev_eq_ok {degree : ℕ} {cs : List Float} :
    (chebyshev (degree + 1)).coefficients = .ok cs ↔
      (∀ k, IsReturnable ((Chebyshev.T ℤ degree).coeff k)) ∧
        cs = (chebyshevRow degree).map Binary64.nearest := by
  have hwords := all_chebyshevRow (n := degree) (p := inWord) rfl
  have hdoubles := all_chebyshevRow (n := degree) (p := isExactDouble) rfl
  simp only [isReturnable_iff, forall_and, ← hwords, ← hdoubles]
  rw [coefficients, chebyshev?_eq]
  by_cases hword : (chebyshevRow degree).all inWord = true
  · rw [if_pos hword, Option.bind_some, exactDoubles?]
    by_cases hdouble : (chebyshevRow degree).all isExactDouble = true
    · rw [if_pos hdouble]
      exact ⟨fun h => ⟨⟨hword, hdouble⟩, (Except.ok.inj h).symm⟩, fun h => congrArg _ h.2.symm⟩
    · rw [if_neg hdouble]
      exact ⟨nofun, fun h => absurd h.1.2 hdouble⟩
  · rw [if_neg hword]
    exact ⟨nofun, fun h => absurd h.1.1 hword⟩

/-- A refusal names the degree of the polynomial. -/
theorem coefficients_chebyshev_eq_error {degree : ℕ} {e : Failure}
    (h : (chebyshev (degree + 1)).coefficients = .error e) :
    e = .configuration (.chebyshevOverflow degree) := by
  rw [coefficients] at h
  split at h <;> cases h
  rfl

/-- **Chebyshev coefficients are exact or refused.**  For every number of terms from one on, a result has
as many coefficients as terms, and each is a double with the value of the coefficient of the Chebyshev
polynomial.  The polynomial is refused, with a failure that names its degree, exactly when one of its own
coefficients lies outside the words or has more than 53 significant bits, whatever the numbers on the
way to it. -/
theorem chebyshev_exact_or_refused (degree : ℕ) :
    (∀ cs, (chebyshev (degree + 1)).coefficients = .ok cs → cs.length = degree + 1 ∧
      ∀ k c, cs[k]? = some c → ∃ v, Binary64.ofFloat? c = some v ∧
        v.value = (Chebyshev.T ℤ degree).coeff k) ∧
    ((∃ e, (chebyshev (degree + 1)).coefficients = .error e) ↔
      ∃ k, ¬IsReturnable ((Chebyshev.T ℤ degree).coeff k)) ∧
    ∀ e, (chebyshev (degree + 1)).coefficients = .error e →
      e = .configuration (.chebyshevOverflow degree) := by
  refine ⟨fun cs hcs => ?_, ?_, fun e => coefficients_chebyshev_eq_error⟩
  · obtain ⟨hall, rfl⟩ := coefficients_chebyshev_eq_ok.mp hcs
    refine ⟨by rw [List.length_map, length_chebyshevRow], fun k c hc => ?_⟩
    rw [List.getElem?_map, Option.map_eq_some_iff] at hc
    obtain ⟨x, hx, rfl⟩ := hc
    have hk : k ≤ degree := by
      by_contra hlt
      rw [getElem?_chebyshevRow_of_lt (not_le.mp hlt)] at hx
      cases hx
    rw [getElem?_chebyshevRow hk, Option.some.injEq] at hx
    rw [← hx]
    exact (hall k).exists_value_nearest
  · rw [← not_forall]
    constructor
    · rintro ⟨e, he⟩ hall
      rw [coefficients_chebyshev_eq_ok.mpr ⟨hall, rfl⟩] at he
      cases he
    · intro hnot
      cases hresult : (chebyshev (degree + 1)).coefficients with
      | error e => exact ⟨e, rfl⟩
      | ok cs => exact absurd (coefficients_chebyshev_eq_ok.mp hresult).1 hnot

/-- The fifth polynomial is `5x - 20x³ + 16x⁵`. -/
example : Coefficients.chebyshev? 5 = some [0, 5, 0, -20, 0, 16] := by decide

end Strategy

end EncryptedReals

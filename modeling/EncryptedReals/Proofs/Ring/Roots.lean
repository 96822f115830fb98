import EncryptedReals.Proofs.Ring.Residues
import EncryptedReals.Ring.Root

/-!
# Bit reversal and roots of unity

Two facts about the tables of the transform.  The bit reversal of an index obeys
one recursion from below, by which it is defined, and one from above; a table in
bit-reversed order follows both, and the tree of the transform rests on that.
And the search for a root succeeds whenever a root can exist: modulo a prime
that is 1 modulo `2 * n` some element is no square, and its power is a root.
-/

namespace EncryptedReals

/-! ### Bit reversal -/

theorem bitReverse_two_mul (bits m : ℕ) : bitReverse (bits + 1) (2 * m) = bitReverse bits m := by
  rw [bitReverse, Nat.mul_mod_right, mul_zero, zero_add, Nat.mul_div_cancel_left m two_pos]

theorem bitReverse_two_mul_add_one (bits m : ℕ) :
    bitReverse (bits + 1) (2 * m + 1) = 2 ^ bits + bitReverse bits m := by
  rw [bitReverse, show (2 * m + 1) % 2 = 1 by omega, show (2 * m + 1) / 2 = m by omega, mul_one]

/-- One more bit of width, which the index does not use, doubles the reversal. -/
theorem bitReverse_succ {bits i : ℕ} (hi : i < 2 ^ bits) :
    bitReverse (bits + 1) i = 2 * bitReverse bits i := by
  induction bits generalizing i with
  | zero =>
      have hzero : i = 0 := by simpa using hi
      simp [bitReverse, hzero]
  | succ bits ih =>
      rw [pow_succ] at hi
      rw [bitReverse, ih (by omega), bitReverse, pow_succ]
      ring

/-- The highest bit of an index is the lowest of its reversal. -/
theorem bitReverse_two_pow_add {bits i : ℕ} (hi : i < 2 ^ bits) :
    bitReverse (bits + 1) (2 ^ bits + i) = 2 * bitReverse bits i + 1 := by
  induction bits generalizing i with
  | zero =>
      have hzero : i = 0 := by simpa using hi
      simp [bitReverse, hzero]
  | succ bits ih =>
      rw [pow_succ] at hi
      have hmod : (2 ^ (bits + 1) + i) % 2 = i % 2 := by rw [pow_succ]; omega
      have hdiv : (2 ^ (bits + 1) + i) / 2 = 2 ^ bits + i / 2 := by rw [pow_succ]; omega
      rw [bitReverse, hmod, hdiv, ih (by omega), bitReverse, pow_succ]
      ring

/-! ### The search for a root -/

namespace Modulus

variable {q : Modulus} {n : ℕ}

theorem cast_value_sub_one (hq : 0 < q.value) : ((q.value - 1 : ℕ) : ZMod q.value) = -1 := by
  rw [Nat.cast_sub hq, ZMod.natCast_self, Nat.cast_one, zero_sub]

/-- The test of the search is whether the power is `-1`. -/
theorem pow_eq_value_sub_one_iff (hq : 1 < q.value) (a n : ℕ) :
    q.pow a n = q.value - 1 ↔ (a : ZMod q.value) ^ n = -1 := by
  rw [← cast_value_sub_one (by omega : 0 < q.value), ← cast_pow]
  exact ⟨fun h => by rw [h], eq_of_cast_eq (pow_lt hq a n) (by omega)⟩

/-- What the search returns is a root. -/
theorem pow_eq_neg_one_of_searchRoot (hq : 1 < q.value) {exponent : ℕ} :
    ∀ {fuel g psi : ℕ}, q.searchRoot n exponent fuel g = some psi →
      psi < q.value ∧ (psi : ZMod q.value) ^ n = -1 := by
  intro fuel
  induction fuel with
  | zero => intro g psi h; cases h
  | succ fuel ih =>
      intro g psi h
      rw [searchRoot] at h
      split at h
      · next hpow =>
          cases h
          exact ⟨pow_lt hq _ _, (pow_eq_value_sub_one_iff hq _ _).mp hpow⟩
      · exact ih h

/-- The search does not miss a base whose power is a root. -/
theorem searchRoot_isSome (hq : 1 < q.value) {exponent b : ℕ}
    (hb : ((b : ZMod q.value) ^ exponent) ^ n = -1) :
    ∀ {fuel g : ℕ}, g ≤ b → b < g + fuel → (q.searchRoot n exponent fuel g).isSome := by
  intro fuel
  induction fuel with
  | zero => intro g hle hlt; omega
  | succ fuel ih =>
      intro g hle hlt
      rw [searchRoot]
      split
      · rfl
      · next hpow =>
          rw [pow_eq_value_sub_one_iff hq, cast_pow] at hpow
          have hne : g ≠ b := by
            rintro rfl
            exact hpow hb
          exact ih (by omega) (by omega)

/-- Modulo a prime that is 1 modulo `2 * n` some base has a root of `X ^ n + 1` as
its power: any that is no square. -/
theorem exists_base [hprime : Fact q.value.Prime] (hmod : q.value % (2 * n) = 1) :
    ∃ b, 2 ≤ b ∧ b < q.value ∧
      ((b : ZMod q.value) ^ ((q.value - 1) / (2 * n))) ^ n = -1 := by
  have htwo := hprime.out.two_le
  have hodd : q.value % 2 = 1 := by
    rw [← Nat.mod_mod_of_dvd q.value (dvd_mul_right 2 n), hmod]
  have hchar : ringChar (ZMod q.value) ≠ 2 := by
    rw [ZMod.ringChar_zmod_n]
    omega
  obtain ⟨a, ha⟩ := FiniteField.exists_nonsquare hchar
  have hzero : a ≠ 0 := by
    rintro rfl
    exact ha (IsSquare.zero)
  have hone : a ≠ 1 := by
    rintro rfl
    exact ha (IsSquare.one)
  have hhalf : (q.value - 1) / (2 * n) * n = q.value / 2 := by
    have hdiv := Nat.div_add_mod q.value (2 * n)
    rw [hmod] at hdiv
    have hpos : 0 < 2 * n := by
      rcases Nat.eq_zero_or_pos n with rfl | hn
      · rw [mul_zero, Nat.mod_zero] at hmod
        omega
      · omega
    have hquot : (q.value - 1) / (2 * n) = q.value / (2 * n) := by
      rw [show q.value - 1 = 2 * n * (q.value / (2 * n)) by omega, Nat.mul_div_cancel_left _ hpos]
    have hprod : 2 * n * (q.value / (2 * n)) = 2 * (q.value / (2 * n) * n) := by ring
    rw [hquot]
    omega
  refine ⟨a.val, ?_, ZMod.val_lt a, ?_⟩
  · have hval0 : a.val ≠ 0 := (ZMod.val_ne_zero a).mpr hzero
    have hval1 : a.val ≠ 1 := by
      intro h
      exact hone (by rw [← ZMod.natCast_zmod_val a, h, Nat.cast_one])
    omega
  · rw [ZMod.natCast_zmod_val, ← pow_mul, hhalf]
    rcases ZMod.pow_div_two_eq_neg_one_or_one q.value hzero with h | h
    · exact absurd ((ZMod.euler_criterion q.value hzero).mpr h) ha
    · exact h

/-- **A root is found** modulo every prime that is 1 modulo `2 * n`. -/
theorem exists_primitiveRoot? [hprime : Fact q.value.Prime] (hmod : q.value % (2 * n) = 1) :
    ∃ psi, q.primitiveRoot? n = some psi ∧ psi < q.value ∧ (psi : ZMod q.value) ^ n = -1 := by
  have htwo := hprime.out.two_le
  obtain ⟨b, hb2, hbq, hpow⟩ := exists_base (n := n) hmod
  have hsome : (q.searchRoot n ((q.value - 1) / (2 * n)) (q.value - 2) 2).isSome :=
    searchRoot_isSome (by omega) hpow hb2 (by omega)
  obtain ⟨psi, hpsi⟩ := Option.isSome_iff_exists.mp hsome
  exact ⟨psi, by rw [primitiveRoot?, if_pos hmod, hpsi],
    pow_eq_neg_one_of_searchRoot (by omega) hpsi⟩

end Modulus

end EncryptedReals

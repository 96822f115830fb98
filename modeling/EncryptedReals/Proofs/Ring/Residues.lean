import EncryptedReals.Ring.Modulus
import Mathlib

/-!
# Residues as elements of `ZMod`

The operations of a `Modulus` work on natural numbers and, inside, on 64-bit
words.  On canonical residues of a modulus below `2 ^ 63` no word overflows, so
each operation is the operation of the ring `ZMod q.value`, read on canonical
representatives.  Everything later argues in that ring; this module is the only
one that looks at words.

## Main results

* `add_lt`, `sub_lt`, `mul_lt`, … — canonical residues stay canonical
* `cast_add`, `cast_sub`, `cast_mul`, … — each operation is the ring's
* `cast_pow`, `cast_inv` — square and multiply is the power, and the power
  `q - 2` is the inverse
* `two_mul_center_le`, `lt_two_mul_center`, `cast_center` — centring
-/

namespace EncryptedReals

/-- A number is below the power of two that its length names. -/
theorem lt_two_pow_bitLength (n : ℕ) : n < 2 ^ bitLength n := by
  unfold bitLength
  split
  · next h => simp [h]
  · exact Nat.lt_log2_self

namespace Modulus

variable {q : Modulus} {a b : ℕ}

/-- Two canonical residues that agree in the ring are equal. -/
theorem eq_of_cast_eq (ha : a < q.value) (hb : b < q.value)
    (h : (a : ZMod q.value) = b) : a = b := by
  have hmod := (ZMod.natCast_eq_natCast_iff' a b q.value).mp h
  rwa [Nat.mod_eq_of_lt ha, Nat.mod_eq_of_lt hb] at hmod

/-! ### Words -/

theorem toNat_toUInt64 (h : a < 2 ^ 64) : a.toUInt64.toNat = a := by
  have hmod : a.toUInt64.toNat = a % 2 ^ 64 := UInt64.toNat_ofNat'
  rw [hmod, Nat.mod_eq_of_lt h]

/-- The negation of a small word, read as a signed number. -/
theorem toInt_neg_toInt64 {w : UInt64} (hw : w.toNat = a) (ha : a < 2 ^ 63) :
    (-w.toInt64).toInt = -(a : ℤ) := by
  have hint : w.toInt64.toInt = a := by
    rw [← Int64.toInt_toBitVec, UInt64.toBitVec_toInt64, BitVec.toInt_eq_toNat_bmod,
      UInt64.toNat_toBitVec, hw, Int.bmod_eq_of_le (by omega) (by omega)]
  rw [Int64.toInt_neg, hint, Int.bmod_eq_of_le (by omega) (by omega)]

theorem toNat_word (hq : q.value < 2 ^ 64) : q.word.toNat = q.value :=
  toNat_toUInt64 hq

/-! ### Sums -/

/-- On canonical residues the word of a sum does not overflow. -/
theorem add_eq (hq : q.value < 2 ^ 63) (ha : a < q.value) (hb : b < q.value) :
    q.add a b = if q.value ≤ a + b then a + b - q.value else a + b := by
  have hsum : (a.toUInt64 + b.toUInt64).toNat = a + b := by
    rw [UInt64.toNat_add, toNat_toUInt64 (by omega), toNat_toUInt64 (by omega),
      Nat.mod_eq_of_lt (by omega)]
  have hword : q.word.toNat = q.value := toNat_word (by omega)
  simp only [add, UInt64.le_iff_toNat_le, hsum, hword]
  split
  · rw [UInt64.toNat_sub, hsum, hword]
    omega
  · rfl

theorem add_lt (hq : q.value < 2 ^ 63) (ha : a < q.value) (hb : b < q.value) :
    q.add a b < q.value := by
  rw [add_eq hq ha hb]
  split <;> omega

theorem cast_add (hq : q.value < 2 ^ 63) (ha : a < q.value) (hb : b < q.value) :
    (q.add a b : ZMod q.value) = a + b := by
  rw [add_eq hq ha hb]
  split
  · next h => rw [Nat.cast_sub h, ZMod.natCast_self, sub_zero, Nat.cast_add]
  · rw [Nat.cast_add]

/-! ### Differences -/

/-- A difference of canonical residues does not leave the words of any modulus. -/
theorem sub_eq (hq : q.value < 2 ^ 64) (ha : a < q.value) (hb : b < q.value) :
    q.sub a b = if b ≤ a then a - b else q.value - b + a := by
  have hword : q.word.toNat = q.value := toNat_word hq
  unfold sub
  split
  · rfl
  · rw [UInt64.toNat_add, UInt64.toNat_sub, hword, toNat_toUInt64 (by omega),
      toNat_toUInt64 (by omega)]
    omega

theorem sub_lt (hq : q.value < 2 ^ 64) (ha : a < q.value) (hb : b < q.value) :
    q.sub a b < q.value := by
  rw [sub_eq hq ha hb]
  split <;> omega

theorem cast_sub (hq : q.value < 2 ^ 64) (ha : a < q.value) (hb : b < q.value) :
    (q.sub a b : ZMod q.value) = a - b := by
  rw [sub_eq hq ha hb]
  split
  · next h => rw [Nat.cast_sub h]
  · rw [Nat.cast_add, Nat.cast_sub hb.le, ZMod.natCast_self]
    ring

/-! ### Negation -/

theorem neg_eq (hq : q.value < 2 ^ 63) (ha : a < q.value) :
    q.neg a = if a = 0 then 0 else q.value - a := by
  have hword : q.word.toNat = q.value := toNat_word (by omega)
  unfold neg
  split
  · rfl
  · rw [UInt64.toNat_sub, hword, toNat_toUInt64 (by omega)]
    omega

theorem neg_lt (hq : q.value < 2 ^ 63) (ha : a < q.value) : q.neg a < q.value := by
  rw [neg_eq hq ha]
  split <;> omega

theorem cast_neg (hq : q.value < 2 ^ 63) (ha : a < q.value) :
    (q.neg a : ZMod q.value) = -a := by
  rw [neg_eq hq ha]
  split
  · next h => simp [h]
  · rw [Nat.cast_sub ha.le, ZMod.natCast_self, zero_sub]

/-! ### Products and powers -/

theorem mul_lt (hq : 0 < q.value) (a b : ℕ) : q.mul a b < q.value :=
  Nat.mod_lt _ hq

theorem cast_mul (q : Modulus) (a b : ℕ) : (q.mul a b : ZMod q.value) = a * b := by
  rw [mul, ZMod.natCast_mod, Nat.cast_mul]

/-- One step of square and multiply uses up the lowest bit of the exponent. -/
theorem cast_powBits (q : Modulus) :
    ∀ (bits exponent base result : ℕ), exponent < 2 ^ bits →
      (q.powBits bits exponent base result : ZMod q.value) = result * base ^ exponent := by
  intro bits
  induction bits with
  | zero =>
      intro exponent base result h
      have hzero : exponent = 0 := by simpa using h
      simp [powBits, hzero]
  | succ bits ih =>
      intro exponent base result h
      rw [powBits, ih _ _ _ (by rw [pow_succ] at h; omega), cast_mul]
      have hsplit : (base : ZMod q.value) ^ exponent =
          base ^ (exponent % 2) * (base * base) ^ (exponent / 2) := by
        rw [← sq, ← pow_mul, ← pow_add, Nat.mod_add_div]
      rcases Nat.mod_two_eq_zero_or_one exponent with hbit | hbit
      · rw [if_neg (by omega), hsplit, hbit, pow_zero, one_mul]
      · rw [if_pos hbit, cast_mul, hsplit, hbit, pow_one]
        ring

/-- **Square and multiply is the power.** -/
theorem cast_pow (q : Modulus) (base exponent : ℕ) :
    (q.pow base exponent : ZMod q.value) = base ^ exponent := by
  rw [pow, cast_powBits q _ _ _ _ (lt_two_pow_bitLength exponent), ZMod.natCast_mod,
    Nat.cast_one, one_mul]

theorem powBits_lt (hq : 0 < q.value) :
    ∀ (bits exponent base result : ℕ), result < q.value →
      q.powBits bits exponent base result < q.value := by
  intro bits
  induction bits with
  | zero => exact fun _ _ _ h => h
  | succ bits ih =>
      intro exponent base result h
      refine ih _ _ _ ?_
      split
      · exact mul_lt hq _ _
      · exact h

theorem pow_lt (hq : 1 < q.value) (base exponent : ℕ) : q.pow base exponent < q.value :=
  powBits_lt (by omega) _ _ _ _ hq

/-- A power of a modulus beyond 1 is the remainder of the power. -/
theorem pow_eq_mod (hq : 1 < q.value) (base exponent : ℕ) :
    q.pow base exponent = base ^ exponent % q.value := by
  refine eq_of_cast_eq (pow_lt hq _ _) (Nat.mod_lt _ (by omega)) ?_
  rw [cast_pow, ZMod.natCast_mod, Nat.cast_pow]

/-- The exponent of the inverse is a word that does not wrap around. -/
theorem inv_eq_pow (htwo : 2 ≤ q.value) (hq : q.value < 2 ^ 64) (a : ℕ) :
    q.inv a = q.pow a (q.value - 2) := by
  have hexp : (q.word - 2).toNat = q.value - 2 := by
    rw [UInt64.toNat_sub, toNat_word hq, show (2 : UInt64).toNat = 2 from rfl]
    omega
  rw [inv, hexp]

/-- **The power `q - 2` is the inverse** modulo a prime. -/
theorem cast_inv [Fact q.value.Prime] (hq : q.value < 2 ^ 64) (ha : (a : ZMod q.value) ≠ 0) :
    (q.inv a : ZMod q.value) = (a : ZMod q.value)⁻¹ := by
  have htwo : 2 ≤ q.value := (Fact.out : q.value.Prime).two_le
  rw [inv_eq_pow htwo hq, cast_pow]
  refine eq_inv_of_mul_eq_one_left ?_
  rw [← pow_succ, show q.value - 2 + 1 = q.value - 1 by omega, ZMod.pow_card_sub_one_eq_one ha]

/-! ### Signed integers -/

theorem reduce_lt (hq : 0 < q.value) (x : ℤ) : q.reduce x < q.value := by
  unfold reduce
  have hnonneg := Int.emod_nonneg x (by omega : (q.value : ℤ) ≠ 0)
  have hlt := Int.emod_lt_of_pos x (by omega : (0 : ℤ) < q.value)
  omega

theorem natCast_reduce (hq : 0 < q.value) (x : ℤ) : (q.reduce x : ℤ) = x % q.value :=
  Int.toNat_of_nonneg (Int.emod_nonneg x (by omega))

theorem cast_reduce (hq : 0 < q.value) (x : ℤ) : (q.reduce x : ZMod q.value) = x := by
  rw [← Int.cast_natCast, natCast_reduce hq, ZMod.intCast_mod]

/-- A canonical residue is the reduction of itself. -/
theorem reduce_natCast (ha : a < q.value) : q.reduce a = a := by
  rw [reduce, Int.emod_eq_of_lt (by omega) (by omega), Int.toNat_natCast]

/-- On canonical residues the word that is negated is at most half the modulus. -/
theorem center_eq (hq : q.value < 2 ^ 63) (ha : a < q.value) :
    q.center a = if q.value / 2 < a then (a : ℤ) - q.value else a := by
  unfold center
  split
  · have hword : (q.word - a.toUInt64).toNat = q.value - a := by
      rw [UInt64.toNat_sub, toNat_word (by omega), toNat_toUInt64 (by omega)]
      omega
    rw [toInt_neg_toInt64 hword (by omega)]
    omega
  · rfl

theorem cast_center (hq : q.value < 2 ^ 63) (ha : a < q.value) :
    (q.center a : ZMod q.value) = a := by
  rw [center_eq hq ha]
  split
  · push_cast
    rw [ZMod.natCast_self, sub_zero]
  · rw [Int.cast_natCast]

theorem lt_two_mul_center (hq : q.value < 2 ^ 63) (ha : a < q.value) :
    -(q.value : ℤ) < 2 * q.center a := by
  rw [center_eq hq ha]
  split <;> omega

theorem two_mul_center_le (hq : q.value < 2 ^ 63) (ha : a < q.value) :
    2 * q.center a ≤ q.value := by
  rw [center_eq hq ha]
  split <;> omega

end Modulus

end EncryptedReals

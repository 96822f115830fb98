import EncryptedReals.Binary64
import Mathlib

/-!
# Doubles and the numbers they stand for

The operations on doubles unpack their operands, compute with sign, mantissa and exponent, and pack the
result.  The form that unpacking gives is the exact value of the double, and packing loses nothing of a
form that fits the format.  So what an operation does can be said of exact values.

## Main Definitions

* `Binary64.value` — the exact value of a finite double
* `unpacked` — the sign, mantissa and exponent that operations on a double work with
* `Binary64.ofUnpacked?` — the value of an unpacked form
* `Binary64.Representable` — the unpacked forms of doubles

## Main results

* `Binary64.two_mul_abs_round_sub_value_le` — rounding is to the nearest integer
* `Binary64.ofFloat?_eq` — the value read off the bits is that of the unpacked form
* `Binary64.unpack_pack` — packing keeps a double's form
* `Binary64.abs_value_le` — what a comparison of doubles says of their values
* `Binary64.exists_value_nearest` — the integers that are doubles
-/

namespace EncryptedReals

open Float.Model Float.Model.UnpackedFloat

/-- The unpacked form of a double. -/
def unpacked (x : Float) : UnpackedFloat :=
  x.toModel.unpack

namespace Binary64

/-! ### Rounding -/

/-- **The exact value of a finite double.** -/
def value (x : Binary64) : ℚ :=
  (if x.negative then -1 else 1) * (x.mantissa * 2 ^ x.exponent)

theorem two_mul_abs_roundMagnitude_sub_le (x : Binary64) :
    2 * |(x.roundMagnitude : ℚ) - x.mantissa * 2 ^ x.exponent| ≤ 1 := by
  unfold roundMagnitude
  split
  · next hexponent =>
      obtain ⟨m, hm⟩ := Int.eq_ofNat_of_zero_le hexponent
      rw [hm]
      simp
  · next hexponent =>
      obtain ⟨m, hm⟩ : ∃ m : ℕ, x.exponent = -m := ⟨(-x.exponent).toNat, by omega⟩
      have hpos : (0 : ℚ) < 2 ^ m := by positivity
      rw [hm, neg_neg, Int.toNat_natCast, zpow_neg, zpow_natCast, ← div_eq_mul_inv]
      -- the quotient lies within one half of a division by twice the denominator
      have hdivision := Nat.div_add_mod (2 * x.mantissa + 2 ^ m) (2 * 2 ^ m)
      have hremainder := Nat.mod_lt (2 * x.mantissa + 2 ^ m) (show 0 < 2 * 2 ^ m by positivity)
      generalize (2 * x.mantissa + 2 ^ m) / (2 * 2 ^ m) = quotient at hdivision ⊢
      generalize (2 * x.mantissa + 2 ^ m) % (2 * 2 ^ m) = remainder at hdivision hremainder
      have hdivision' : (2 * 2 ^ m * quotient + remainder : ℚ) = 2 * x.mantissa + 2 ^ m := by
        exact_mod_cast hdivision
      have hremainder' : (remainder : ℚ) < 2 * 2 ^ m := by exact_mod_cast hremainder
      have hnonneg : (0 : ℚ) ≤ remainder := Nat.cast_nonneg remainder
      have hdifference : (quotient : ℚ) - x.mantissa / 2 ^ m =
          (2 ^ m - remainder) / (2 * 2 ^ m) := by
        field_simp
        linarith
      have hbound : |(2 ^ m - remainder : ℚ)| ≤ 2 ^ m :=
        abs_le.mpr ⟨by linarith, by linarith⟩
      rw [hdifference, abs_div, abs_of_pos (show (0 : ℚ) < 2 * 2 ^ m by positivity), ← mul_div_assoc,
        div_le_one (by positivity)]
      linarith

/-- **Rounding is to the nearest integer.** -/
theorem two_mul_abs_round_sub_value_le (x : Binary64) : 2 * |(x.round : ℚ) - x.value| ≤ 1 := by
  have hmagnitude := x.two_mul_abs_roundMagnitude_sub_le
  unfold round value
  split
  · rw [Int.cast_neg, Int.cast_natCast, neg_one_mul, ← neg_sub', abs_neg]
    exact hmagnitude
  · rw [Int.cast_natCast, one_mul]
    exact hmagnitude

/-! ### Reading -/

/-- Whether a sign is the negative one. -/
def isNegative : Sign → Bool
  | .negative => true
  | .positive => false

/-- The value of an unpacked form; NaN and the infinities have none. -/
def ofUnpacked? : UnpackedFloat → Option Binary64
  | .infinity _ => none
  | .notANumber => none
  | .zero sign => some ⟨isNegative sign, 0, -1074⟩
  | .finite sign mantissa exponent _ => some ⟨isNegative sign, mantissa, exponent⟩

theorem toNat_unpackExponent (b : BitVec Format.binary64.numBits) :
    (unpackExponent b).toNat = b.toNat / 2 ^ 52 % 2048 := by
  simp only [unpackExponent, BitVec.toNat_cast, BitVec.extractLsb, BitVec.extractLsb'_toNat,
    Nat.shiftRight_eq_div_pow]

theorem toNat_unpackMantissa (b : BitVec Format.binary64.numBits) :
    (unpackMantissa b).toNat = b.toNat % 2 ^ 52 := by
  simp only [unpackMantissa, BitVec.toNat_cast, BitVec.extractLsb, BitVec.extractLsb'_toNat,
    Nat.shiftRight_zero]

theorem isNegative_unpackSign (b : BitVec Format.binary64.numBits) :
    isNegative (.ofBitVec (unpackSign b)) = decide (2 ^ 63 ≤ b.toNat) := by
  have hlt : b.toNat < 2 ^ 64 := b.isLt
  have hsign : (unpackSign b).toNat = b.toNat / 2 ^ 63 := by
    simp only [unpackSign, BitVec.toNat_cast, BitVec.extractLsb, BitVec.extractLsb'_toNat,
      Nat.shiftRight_eq_div_pow]
    omega
  unfold Sign.ofBitVec
  by_cases hzero : unpackSign b = 0#1
  · rw [hzero, BitVec.toNat_zero] at hsign
    rw [if_pos hzero, isNegative, eq_comm, decide_eq_false_iff_not]
    omega
  · have hne : (unpackSign b).toNat ≠ 0 := fun h => hzero (BitVec.eq_of_toNat_eq h)
    rw [if_neg hzero, isNegative, eq_comm, decide_eq_true_eq]
    omega

theorem toNat_one_append {w : ℕ} (v : BitVec w) : (1#1 ++ v).toNat = 2 ^ w + v.toNat := by
  rw [BitVec.toNat_append, ← Nat.shiftLeft_add_eq_or_of_lt v.isLt]
  simp [Nat.shiftLeft_eq]

/-- The unpacked form read off the three fields. -/
theorem ofUnpacked?_unpack (b : BitVec Format.binary64.numBits) :
    ofUnpacked? (unpack Format.binary64 b) =
      if (unpackExponent b).toNat = 2047 then none
      else if (unpackExponent b).toNat = 0 then
        some ⟨isNegative (.ofBitVec (unpackSign b)), (unpackMantissa b).toNat, -1074⟩
      else some ⟨isNegative (.ofBitVec (unpackSign b)), 2 ^ 52 + (unpackMantissa b).toNat,
        ((unpackExponent b).toNat : ℤ) - 1075⟩ := by
  have hfull : unpackExponent b = -1#_ ↔ (unpackExponent b).toNat = 2047 :=
    BitVec.toNat_inj.symm
  have hempty : unpackExponent b = 0#_ ↔ (unpackExponent b).toNat = 0 := BitVec.toNat_inj.symm
  unfold UnpackedFloat.unpack
  simp only [hfull, hempty]
  split
  · split <;> rfl
  · split
    · next hexponent =>
        split
        · next hmantissa => rw [ofUnpacked?, hmantissa]; rfl
        · rw [ofUnpacked?, hexponent]; rfl
    · rw [ofUnpacked?, toNat_one_append]
      rfl

theorem ofFloat?_eq (x : Float) : ofFloat? x = ofUnpacked? (unpacked x) := by
  have hfields := ofUnpacked?_unpack x.toBits.toBitVec
  rw [toNat_unpackExponent, toNat_unpackMantissa, isNegative_unpackSign] at hfields
  exact hfields.symm


/-! ### Packing -/

@[simp] theorem ofBitVec_unpackSign_packComponents (sign : Sign) (e : BitVec 11) (m : BitVec 52) :
    Sign.ofBitVec (unpackSign (packComponents Format.binary64 sign e m)) = sign := by
  simp only [unpackSign, packComponents, BitVec.extractLsb]
  rw [BitVec.extractLsb'_append_eq_of_le (by omega), BitVec.extractLsb'_append_eq_of_le (by omega)]
  cases sign <;> rfl

/-- **The forms of doubles**: mantissa and exponent of a finite one lie in the format. -/
def Representable : UnpackedFloat → Prop
  | .finite _ mantissa exponent _ =>
    mantissa < 2 ^ 53 ∧ -1074 ≤ exponent ∧ exponent ≤ 971 ∧
      (2 ^ 52 ≤ mantissa ∨ exponent = -1074)
  | _ => True

theorem representable_unpack (b : BitVec Format.binary64.numBits) :
    Representable (unpack Format.binary64 b) := by
  have hvalue := ofUnpacked?_unpack b
  generalize unpack Format.binary64 b = u at hvalue
  cases u with
  | infinity sign => trivial
  | notANumber => trivial
  | zero sign => trivial
  | finite sign mantissa exponent hpos =>
      have hexponent := (@unpackExponent Format.binary64 b).isLt
      have hmantissa := (@unpackMantissa Format.binary64 b).isLt
      dsimp only at hexponent hmantissa
      rw [ofUnpacked?] at hvalue
      split at hvalue
      · cases hvalue
      · split at hvalue
        all_goals
          simp only [Option.some.injEq, Binary64.mk.injEq] at hvalue
          obtain ⟨-, rfl, rfl⟩ := hvalue
          refine ⟨?_, ?_, ?_, ?_⟩ <;> omega

theorem representable_unpacked (x : Float) : Representable (unpacked x) :=
  representable_unpack x.toBits.toBitVec

/-- The unpacked form of three fields, when they are those of a finite double. -/
theorem unpack_packComponents {sign : Sign} {m : ℕ} {e : ℤ} {hpos : 0 < m} {E : BitVec 11} {M : BitVec 52}
    (h : (E.toNat = 0 ∧ M.toNat = m ∧ e = -1074) ∨
      (0 < E.toNat ∧ E.toNat < 2047 ∧ 2 ^ 52 + M.toNat = m ∧ e = E.toNat - 1075)) :
    unpack Format.binary64 (packComponents Format.binary64 sign E M) = .finite sign m e hpos := by
  have hfull : E = -1#_ ↔ E.toNat = 2047 := BitVec.toNat_inj.symm
  have hempty : E = 0#_ ↔ E.toNat = 0 := BitVec.toNat_inj.symm
  have hnone : M = 0#_ ↔ M.toNat = 0 := BitVec.toNat_inj.symm
  unfold UnpackedFloat.unpack
  simp only [unpackExponent_packComponents, unpackMantissa_packComponents,
    ofBitVec_unpackSign_packComponents, hfull, hempty, hnone, toNat_one_append]
  obtain ⟨hE, hM, rfl⟩ | ⟨hlow, hhigh, rfl, rfl⟩ := h
  · rw [if_neg (by omega), if_pos hE, dif_neg (by omega)]
    simp only [UnpackedFloat.finite.injEq, true_and, hM, hE]
    rfl
  · rw [if_neg (by omega), if_neg (by omega)]
    rfl

/-- **Packing keeps a double's form.** -/
theorem unpack_pack {u : UnpackedFloat} (h : Representable u) : (Float.Model.pack u).unpack = u := by
  show unpack Format.binary64 (UnpackedFloat.pack Format.binary64 u) = u
  cases u with
  | infinity sign => cases sign <;> rfl
  | notANumber => rfl
  | zero sign => cases sign <;> rfl
  | finite sign mantissa exponent hpos =>
      obtain ⟨hlt, hlow, hhigh, hnormal⟩ := h
      obtain ⟨field, hfield⟩ : ∃ field : ℕ, exponent + 1075 = field :=
        Int.eq_ofNat_of_zero_le (by omega)
      have hbiased : (exponent + (Format.binary64.exponentBias : ℤ) +
          (Format.binary64.mantissaBitsWithoutImplicit : ℤ)).toNat = field := by
        show (exponent + (1023 : ℤ) + (52 : ℤ)).toNat = field
        omega
      have hlog : mantissa.log2 + 1 = Format.binary64.mantissaBits ↔ 2 ^ 52 ≤ mantissa := by
        rw [← Nat.le_log2 hpos.ne']
        have := (Nat.log2_lt hpos.ne').mpr hlt
        show mantissa.log2 + 1 = 53 ↔ _
        omega
      unfold UnpackedFloat.pack
      simp only [hbiased, hlog]
      rw [if_neg (by show ¬2048 ≤ field + 1; omega)]
      split
      · next hnorm =>
          refine unpack_packComponents (.inr ⟨?_, ?_, ?_, ?_⟩) <;>
            simp only [BitVec.toNat_ofNat] <;> omega
      · next hnorm =>
          refine unpack_packComponents (.inl ⟨rfl, ?_, hnormal.resolve_left hnorm⟩)
          simp only [BitVec.toNat_ofNat]
          omega


/-! ### Magnitudes -/

theorem representable_abs {u : UnpackedFloat} (h : Representable u) : Representable u.abs := by
  cases u <;> exact h

theorem unpacked_abs (x : Float) : unpacked x.abs = (unpacked x).abs :=
  unpack_pack (representable_abs (representable_unpacked x))

/-- Comparing exponents first is comparing magnitudes. -/
theorem magnitude_le {sign₁ sign₂ : Sign} {m₁ m₂ : ℕ} {e₁ e₂ : ℤ} {h₁ : 0 < m₁} {h₂ : 0 < m₂}
    (hleft : Representable (.finite sign₁ m₁ e₁ h₁))
    (hright : Representable (.finite sign₂ m₂ e₂ h₂))
    (hle : ((compare e₁ e₂).then (compare m₁ m₂)).isLE = true) :
    (m₁ * 2 ^ e₁ : ℚ) ≤ m₂ * 2 ^ e₂ := by
  obtain ⟨hlt, hlow, -, -⟩ := hleft
  obtain ⟨-, -, -, hnormal⟩ := hright
  rcases lt_trichotomy e₁ e₂ with hexponent | rfl | hexponent
  · -- a larger exponent is that of a normal double
    have hnormal := hnormal.resolve_right (by omega)
    have hlt' : (m₁ : ℚ) ≤ 2 ^ 53 := by exact_mod_cast hlt.le
    have hnormal' : (2 ^ 52 : ℚ) ≤ m₂ := by exact_mod_cast hnormal
    calc (m₁ * 2 ^ e₁ : ℚ) ≤ 2 ^ 53 * 2 ^ e₁ := by gcongr
      _ = 2 ^ 52 * 2 ^ (e₁ + 1) := by
          rw [zpow_add₀ two_ne_zero]
          ring
      _ ≤ m₂ * 2 ^ e₂ :=
          mul_le_mul hnormal' (zpow_le_zpow_right₀ (by norm_num) hexponent) (by positivity)
            (by positivity)
  · have hmantissa : m₁ ≤ m₂ := by
      rwa [Std.compare_self, Ordering.eq_then, Nat.isLE_compare] at hle
    gcongr
  · rw [Int.compare_eq_gt.mpr hexponent] at hle
    cases hle

theorem abs_value (v : Binary64) : |v.value| = v.mantissa * 2 ^ v.exponent := by
  have hnonneg : (0 : ℚ) ≤ v.mantissa * 2 ^ v.exponent := by positivity
  unfold value
  split
  · rw [neg_one_mul, abs_neg, abs_of_nonneg hnonneg]
  · rw [one_mul, abs_of_nonneg hnonneg]

/-- **What `≤` says of doubles**: the magnitude is at most the bound. -/
theorem abs_value_le {x y : Float} {v w : Binary64} (h : x.abs ≤ y) (hx : ofFloat? x = some v)
    (hy : ofFloat? y = some w) : |v.value| ≤ w.value := by
  have hcompare : ((unpacked x.abs).compare (unpacked y)).any (·.isLE) = true :=
    of_decide_eq_true h
  have hleft := representable_unpacked x
  have hright := representable_unpacked y
  rw [unpacked_abs] at hcompare
  rw [ofFloat?_eq] at hx hy
  rw [abs_value]
  generalize unpacked x = a at hleft hcompare hx
  generalize unpacked y = b at hright hcompare hy
  cases b with
  | infinity sign => cases hy
  | notANumber => cases hy
  | zero sign =>
      cases hy
      have hzero : (Binary64.mk (isNegative sign) 0 (-1074)).value = 0 := by simp [value]
      cases a with
      | infinity sign => cases hx
      | notANumber => cases hx
      | zero sign => cases hx; simp [value]
      | finite sign m e hpos => cases hcompare
  | finite sign' m' e' hpos' =>
      cases hy
      cases sign' with
      | negative => cases a <;> cases hcompare
      | positive =>
          have hvalue : (Binary64.mk (isNegative .positive) m' e').value = m' * 2 ^ e' := by
            simp [value, isNegative]
          rw [hvalue]
          cases a with
          | infinity sign => cases hx
          | notANumber => cases hx
          | zero sign =>
              cases hx
              rw [Nat.cast_zero, zero_mul]
              positivity
          | finite sign m e hpos =>
              cases hx
              exact magnitude_le hleft hright hcompare

/-- **Rounding stays within an integral bound.** -/
theorem abs_round_le {v : Binary64} {bound : ℕ} (h : |v.value| ≤ bound) : |v.round| ≤ bound := by
  have hround := v.two_mul_abs_round_sub_value_le
  have htriangle : |(v.round : ℚ)| ≤ |(v.round : ℚ) - v.value| + |v.value| := by
    simpa using abs_add_le ((v.round : ℚ) - v.value) v.value
  have hlt : |(v.round : ℚ)| < bound + 1 := by linarith
  have hlt' : |v.round| < bound + 1 := by exact_mod_cast hlt
  omega


/-! ### Products -/

theorem round_zero (negative : Bool) (exponent : ℤ) :
    (Binary64.mk negative 0 exponent).round = 0 := by
  have hpos : 0 < 2 ^ (-exponent).toNat := by positivity
  have hmagnitude : (Binary64.mk negative 0 exponent).roundMagnitude = 0 := by
    unfold roundMagnitude
    dsimp only
    split
    · exact Nat.zero_mul _
    · exact Nat.div_eq_of_lt (by omega)
  rw [round, hmagnitude, Nat.cast_zero, neg_zero, ite_self]

/-- **Zero times a finite double** rounds to zero. -/
theorem ofFloat?_zero_mul {y : Float} (h : y.isFinite = true) :
    ∃ v, ofFloat? (0.0 * y) = some v ∧ v.round = 0 := by
  have hfinite : (unpacked y).isFinite = true := h
  have hzero : unpacked 0.0 = .zero .positive := rfl
  have hproduct : unpacked (0.0 * y) =
      (Float.Model.pack (.mul Format.binary64 (unpacked 0.0) (unpacked y))).unpack := rfl
  have hpacked : ∀ sign, ofUnpacked? (Float.Model.pack (.zero sign)).unpack =
      some ⟨isNegative sign, 0, -1074⟩ :=
    fun sign => congrArg ofUnpacked? (@unpack_pack (.zero sign) trivial)
  rw [ofFloat?_eq, hproduct, hzero]
  generalize unpacked y = u at hfinite
  cases u with
  | infinity sign => cases hfinite
  | notANumber => cases hfinite
  | zero sign => exact ⟨_, hpacked _, round_zero _ _⟩
  | finite sign m e hpos => exact ⟨_, hpacked _, round_zero _ _⟩

/-! ### Integers -/

/-- **The value of a word of bits**, by its three fields. -/
theorem ofFloat?_ofBits (b : UInt64) : ofFloat? (Float.ofBits b) =
    if b.toNat / 2 ^ 52 % 2048 = 2047 then none
    else if b.toNat / 2 ^ 52 % 2048 = 0 then
      some ⟨decide (2 ^ 63 ≤ b.toNat), b.toNat % 2 ^ 52, -1074⟩
    else some ⟨decide (2 ^ 63 ≤ b.toNat), 2 ^ 52 + b.toNat % 2 ^ 52,
      ((b.toNat / 2 ^ 52 % 2048 : ℕ) : ℤ) - 1075⟩ := by
  have hunpacked : unpacked (Float.ofBits b) = unpack Format.binary64 b.toBitVec :=
    unpack_pack (representable_unpack b.toBitVec)
  have hfields := ofUnpacked?_unpack b.toBitVec
  rw [toNat_unpackExponent, toNat_unpackMantissa, isNegative_unpackSign] at hfields
  rw [ofFloat?_eq, hunpacked]
  exact hfields

/-- The bits of an integer that has no bits below the leading 53: the mantissa is a shift of it. -/
theorem exists_nearestBits {n : ℕ} (hne : n ≠ 0) (hdvd : 2 ^ (bitLength n - 53) ∣ n)
    (hlt : n < 2 ^ 64) : ∃ fraction < 2 ^ 52, nearestBits n = (n.log2 + 1023) * 2 ^ 52 + fraction ∧
      (2 ^ 52 + fraction) * 2 ^ n.log2 = n * 2 ^ 52 := by
  have hlog : n.log2 < 64 := (Nat.log2_lt hne).mpr hlt
  have hlow := Nat.log2_self_le hne
  have hhigh := @Nat.lt_log2_self n
  obtain ⟨mantissa, hshift, hmantissa⟩ : ∃ mantissa, mantissa * 2 ^ n.log2 = n * 2 ^ 52 ∧
      (if n.log2 ≤ 52 then n * 2 ^ (52 - n.log2) else divTiesEven n (2 ^ (n.log2 - 52))) =
        mantissa := by
    split
    · next hk =>
        refine ⟨_, ?_, rfl⟩
        rw [mul_assoc, ← pow_add, Nat.sub_add_cancel hk]
    · next hk =>
        rw [bitLength, if_neg hne, show n.log2 + 1 - 53 = n.log2 - 52 by omega] at hdvd
        obtain ⟨quotient, hquotient⟩ := hdvd
        have hexact : divTiesEven n (2 ^ (n.log2 - 52)) = quotient := by
          have hpos : 0 < 2 ^ (n.log2 - 52) := Nat.two_pow_pos _
          have hdiv : n / 2 ^ (n.log2 - 52) = quotient := Nat.div_eq_of_eq_mul_right hpos hquotient
          have hmod : n % 2 ^ (n.log2 - 52) = 0 := Nat.mod_eq_zero_of_dvd ⟨quotient, hquotient⟩
          simp only [divTiesEven, hdiv, hmod, mul_zero, hpos, if_true]
        refine ⟨quotient, ?_, hexact⟩
        have hpow : 2 ^ n.log2 = 2 ^ (n.log2 - 52) * 2 ^ 52 := by
          rw [← pow_add]
          congr 1
          omega
        rw [hpow, ← mul_assoc, mul_comm quotient, ← hquotient]
  have hfull : 2 ^ 52 ≤ mantissa := by
    refine Nat.le_of_mul_le_mul_right ?_ (Nat.two_pow_pos n.log2)
    rw [hshift, mul_comm]
    exact Nat.mul_le_mul_right _ hlow
  have hless : mantissa < 2 ^ 53 := by
    refine Nat.lt_of_mul_lt_mul_right (a := 2 ^ n.log2) ?_
    rw [hshift, show 2 ^ 53 * 2 ^ n.log2 = 2 ^ (n.log2 + 1) * 2 ^ 52 by rw [pow_succ]; ring]
    exact Nat.mul_lt_mul_of_pos_right hhigh (by positivity)
  refine ⟨mantissa - 2 ^ 52, by omega, ?_, by rw [Nat.add_sub_cancel' hfull, hshift]⟩
  unfold nearestBits
  rw [if_neg hne]
  simp only [hmantissa]
  omega

/-- The value of the bits of such an integer under a sign bit. -/
theorem exists_ofFloat?_nearestBits {n : ℕ} (negative : Bool) (hne : n ≠ 0)
    (hdvd : 2 ^ (bitLength n - 53) ∣ n) (hlt : n < 2 ^ 64) : ∃ m : ℕ,
      ofFloat? (Float.ofBits (UInt64.ofNat ((if negative then 2 ^ 63 else 0) + nearestBits n))) =
        some ⟨negative, m, n.log2 - 52⟩ ∧ (m * 2 ^ ((n.log2 : ℤ) - 52) : ℚ) = n := by
  obtain ⟨fraction, hfraction, hbits, hvalue⟩ := exists_nearestBits hne hdvd hlt
  have hlog : n.log2 < 64 := (Nat.log2_lt hne).mpr hlt
  have hword : (UInt64.ofNat ((if negative then 2 ^ 63 else 0) + nearestBits n)).toNat =
      (if negative then 2 ^ 63 else 0) + ((n.log2 + 1023) * 2 ^ 52 + fraction) := by
    have hfits : (if negative then 2 ^ 63 else 0) + ((n.log2 + 1023) * 2 ^ 52 + fraction) < 2 ^ 64 := by
      split <;> omega
    rw [hbits]
    exact UInt64.toNat_ofNat_of_lt' hfits
  refine ⟨2 ^ 52 + fraction, ?_, ?_⟩
  · rw [ofFloat?_ofBits, hword]
    cases negative <;> simp only [Bool.false_eq_true, if_true, if_false]
    all_goals
      rw [if_neg (by omega), if_neg (by omega)]
      simp only [Option.some.injEq, mk.injEq, decide_eq_true_eq, decide_eq_false_iff_not]
      omega
  · have hpow : (2 : ℚ) ^ ((n.log2 : ℤ) - 52) * 2 ^ 52 = 2 ^ n.log2 := by
      rw [zpow_sub₀ two_ne_zero, zpow_natCast]
      norm_num
    have hvalue' : ((2 ^ 52 + fraction : ℕ) * 2 ^ n.log2 : ℚ) = n * 2 ^ 52 := by
      exact_mod_cast hvalue
    rw [← hpow, ← mul_assoc] at hvalue'
    exact mul_right_cancel₀ (by positivity) hvalue'

/-- **An integer that has no bits below its leading 53 is a double.** -/
theorem exists_value_nearest {z : ℤ} (hdvd : 2 ^ (bitLength z.natAbs - 53) ∣ z.natAbs)
    (hlt : z.natAbs < 2 ^ 64) : ∃ v, ofFloat? (nearest z) = some v ∧ v.value = z := by
  cases z with
  | ofNat n =>
      rcases Nat.eq_zero_or_pos n with rfl | hpos
      · exact ⟨⟨false, 0, -1074⟩, by rw [nearest, ofFloat?_ofBits]; rfl, by simp [value]⟩
      · obtain ⟨m, hread, hvalue⟩ := exists_ofFloat?_nearestBits false hpos.ne' hdvd hlt
        rw [if_neg Bool.false_ne_true, zero_add] at hread
        refine ⟨_, hread, ?_⟩
        rw [value, if_neg Bool.false_ne_true, one_mul, hvalue]
        rfl
  | negSucc n =>
      obtain ⟨m, hread, hvalue⟩ := exists_ofFloat?_nearestBits true n.succ_ne_zero hdvd hlt
      rw [if_pos rfl] at hread
      refine ⟨_, hread, ?_⟩
      rw [value, if_pos rfl, hvalue, Int.cast_negSucc, neg_one_mul]

end Binary64
end EncryptedReals

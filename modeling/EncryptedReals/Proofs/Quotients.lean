import EncryptedReals.Proofs.Doubles

/-!
# Signs and ranges of products and quotients

The operations on doubles round a mantissa and an exponent to the format and pack the outcome.  Rounding
keeps the sign and adds at most one to the exponent; packing gives up where the exponent is too large.
So a product of doubles without a minus sign has none either, unless it overflows, and a quotient by an
integer from two on does not overflow at all.

## Main Definitions

* `Binary64.Signed` — zeros and finite forms of one sign, up to a largest exponent

## Main results

* `Binary64.signed_mul` — finite products of doubles without a minus sign
* `Binary64.signed_div_nearest` — quotients by integers are finite
-/

namespace EncryptedReals

open Float.Model Float.Model.UnpackedFloat

namespace Binary64

/-- **A zero or a finite form** of the given sign, whose exponent is at most the given one. -/
inductive Signed (sign : Sign) (top : ℤ) : UnpackedFloat → Prop
  | zero : Signed sign top (.zero sign)
  | finite {m : ℕ} {e : ℤ} {hpos : 0 < m} (he : e ≤ top) : Signed sign top (.finite sign m e hpos)

variable {sign : Sign} {top : ℤ} {u : UnpackedFloat} {m : ℕ} {e : ℤ} {x y : Float}

theorem Signed.isFinite (h : Signed sign top u) : u.isFinite = true := by
  cases h <;> rfl

/-! ### Rounding a mantissa -/

/-- The exponent that the format wants, in numbers. -/
theorem targetExponent_eq (total : ℤ) :
    Format.binary64.targetExponent total = max (total - 53) (-1074) :=
  rfl

theorem mantissa_shiftRight (em : ExtendedMantissa) (k : ℕ) :
    (em >>> k).mantissa = em.mantissa / 2 ^ k := by
  show (k.repeat ExtendedMantissa.shiftRightOne em).mantissa = _
  induction k with
  | zero => rw [Nat.repeat, pow_zero, Nat.div_one]
  | succ k ih =>
      rw [Nat.repeat, pow_succ, ← Nat.div_div_eq_div_mul, ← ih]
      rfl

theorem roundedMantissa_le (em : ExtendedMantissa) : em.roundedMantissa ≤ em.mantissa + 1 := by
  obtain ⟨m, roundBit, stickyBit⟩ := em
  have hparity : m % 2 ≤ 1 := Nat.lt_succ_iff.mp (Nat.mod_lt m two_pos)
  cases roundBit <;> cases stickyBit <;>
    simp [ExtendedMantissa.roundedMantissa, ExtendedMantissa.accuracy,
      Accuracy.roundToNearestEven, hparity]

/-- A mantissa that was shifted to the exponent of the format has at most 53 bits. -/
theorem mantissa_shiftToTargetExponent_lt (m : ℕ) (e : ℤ) (a : Accuracy) :
    (shiftToTargetExponent Format.binary64 m e a).1.mantissa < 2 ^ 53 := by
  have hmantissa : (ExtendedMantissa.ofMantissaAndAccuracy m a).mantissa = m := by
    cases a with
    | exact => rfl
    | inexact o => cases o <;> rfl
  have hshift : m.log2 + 1 ≤ 53 + (Format.binary64.targetExponent (totalExponent m e) - e).toNat := by
    rw [targetExponent_eq, totalExponent]
    omega
  rw [shiftToTargetExponent, shiftToExponent, mantissa_shiftRight, hmantissa]
  refine (Nat.div_lt_iff_lt_mul (by positivity)).mpr ?_
  calc m < 2 ^ (m.log2 + 1) := Nat.lt_log2_self
    _ ≤ 2 ^ 53 * 2 ^ _ := by
        rw [← pow_add]
        exact Nat.pow_le_pow_right two_pos hshift

theorem exponent_shiftToTargetExponent (m : ℕ) (e : ℤ) (a : Accuracy) :
    (shiftToTargetExponent Format.binary64 m e a).2 =
      max (Format.binary64.targetExponent (totalExponent m e)) e := by
  show e + ((Format.binary64.targetExponent (totalExponent m e) - e).toNat : ℤ) = _
  rw [Int.toNat_eq_max]
  omega

/-- **Rounding keeps the sign** and adds at most one to the exponent. -/
theorem signed_roundWithAccuracy (sign : Sign) (m : ℕ) (e : ℤ) (a : Accuracy) :
    Signed sign (max (Format.binary64.targetExponent (totalExponent m e)) e + 1)
      (roundWithAccuracy Format.binary64 sign m e a) := by
  have hfirst := exponent_shiftToTargetExponent m e a
  have hmantissa := (roundedMantissa_le _).trans (mantissa_shiftToTargetExponent_lt m e a)
  unfold roundWithAccuracy
  generalize shiftToTargetExponent Format.binary64 m e a = first at hfirst hmantissa
  obtain ⟨em, e'⟩ := first
  obtain rfl : e' = _ := hfirst
  have hsecond := exponent_shiftToTargetExponent em.roundedMantissa
    (max (Format.binary64.targetExponent (totalExponent m e)) e) .exact
  have hlog : em.roundedMantissa.log2 ≤ 53 := by
    rcases Nat.eq_zero_or_pos em.roundedMantissa with hzero | hpos
    · rw [hzero]
      decide
    · rw [← Nat.lt_succ_iff, Nat.log2_lt hpos.ne']
      exact hmantissa.trans_lt (Nat.pow_lt_pow_right one_lt_two (Nat.lt_succ_self 53))
  dsimp only
  split
  · exact .zero
  · refine .finite (hsecond.le.trans ?_)
    simp only [targetExponent_eq, totalExponent]
    omega

/-! ### Packing -/

/-- Three fields that are not those of an infinity or NaN unpack to a form of their sign. -/
theorem signed_unpack_packComponents (sign : Sign) {E : BitVec 11} (M : BitVec 52)
    (hE : E.toNat < 2047) :
    Signed sign 971 (unpack Format.binary64 (packComponents Format.binary64 sign E M)) := by
  have hfull : E ≠ -1#_ := fun h => by
    rw [h] at hE
    exact absurd hE (by decide)
  unfold UnpackedFloat.unpack
  simp only [unpackExponent_packComponents, unpackMantissa_packComponents,
    ofBitVec_unpackSign_packComponents]
  rw [if_neg hfull]
  have hbias : (Format.binary64.exponentBias : ℤ) + Format.binary64.mantissaBitsWithoutImplicit =
      1075 := rfl
  split
  · next hzero =>
      split
      · exact .zero
      · refine .finite ?_
        rw [hbias, hzero]
        decide
  · refine .finite ?_
    rw [hbias]
    omega

/-- **What packing makes of a form**: a form of the same sign again, or an infinity where the exponent
is too large. -/
theorem signed_unpack_pack (h : Signed sign top u)
    (hfits : top ≤ 971 ∨ (Float.Model.pack u).unpack.isFinite = true) :
    Signed sign 971 (Float.Model.pack u).unpack := by
  change top ≤ 971 ∨ (unpack Format.binary64 (UnpackedFloat.pack Format.binary64 u)).isFinite = true
    at hfits
  show Signed sign 971 (unpack Format.binary64 (UnpackedFloat.pack Format.binary64 u))
  cases h with
  | zero =>
      cases sign with
      | negative => exact .zero
      | positive => exact .zero
  | @finite m e hpos he =>
      have hbiased : e + (Format.binary64.exponentBias : ℤ) +
          (Format.binary64.mantissaBitsWithoutImplicit : ℤ) = e + 1075 := by
        show e + (1023 : ℤ) + (52 : ℤ) = _
        ring
      unfold UnpackedFloat.pack at hfits ⊢
      simp only [hbiased] at hfits ⊢
      by_cases hover : 2 ^ Format.binary64.exponentBits ≤ (e + 1075).toNat + 1
      · -- the exponent is too large, so the packed form would be an infinity
        rw [if_pos hover] at hfits
        change 2048 ≤ (e + 1075).toNat + 1 at hover
        obtain hfits | hfits := hfits
        · omega
        · cases sign <;> cases hfits
      · rw [if_neg hover]
        change ¬2048 ≤ (e + 1075).toNat + 1 at hover
        split
        · refine signed_unpack_packComponents sign _ ?_
          rw [BitVec.toNat_ofNat]
          omega
        · exact signed_unpack_packComponents sign _ (by decide)

/-! ### Doubles without a minus sign -/

/-- **A positive finite double** has no minus sign. -/
theorem signed_of_pos (hfinite : x.isFinite = true) (hpos : 0 < x) :
    Signed .positive 971 (unpacked x) := by
  have hunpacked : (unpacked x).isFinite = true := hfinite
  have hless : ((unpacked 0).compare (unpacked x) == some .lt) = true := of_decide_eq_true hpos
  have hzero : unpacked 0 = .zero .positive := rfl
  have hrange := representable_unpacked x
  rw [hzero] at hless
  generalize unpacked x = u at hunpacked hless hrange
  cases u with
  | infinity sign => cases hunpacked
  | notANumber => cases hunpacked
  | zero sign => cases hless
  | finite sign m e hpos =>
      cases sign with
      | negative => cases hless
      | positive => exact .finite hrange.2.2.1

/-- Doubles without a minus sign are not negative. -/
theorem zero_le_of_signed (h : Signed .positive top (unpacked x)) : 0 ≤ x := by
  have hzero : unpacked 0 = .zero .positive := rfl
  have hcompare : ((unpacked 0).compare (unpacked x)).any (·.isLE) = true := by
    rw [hzero]
    generalize unpacked x = u at h
    cases h <;> rfl
  exact decide_eq_true hcompare

/-- **A finite product** of doubles without a minus sign has none. -/
theorem signed_mul (hx : Signed .positive top (unpacked x)) (hy : Signed .positive top (unpacked y))
    (hfinite : (x * y).isFinite = true) : Signed .positive 971 (unpacked (x * y)) := by
  have hproduct : unpacked (x * y) =
      (Float.Model.pack (.mul Format.binary64 (unpacked x) (unpacked y))).unpack := rfl
  have hunpacked : (unpacked (x * y)).isFinite = true := hfinite
  rw [hproduct] at hunpacked ⊢
  generalize unpacked x = u at hx hunpacked
  generalize unpacked y = v at hy hunpacked
  cases hx with
  | zero => cases hy <;> exact signed_unpack_pack (.zero : Signed .positive 0 _) (.inr hunpacked)
  | finite =>
      cases hy with
      | zero => exact signed_unpack_pack (.zero : Signed .positive 0 _) (.inr hunpacked)
      | finite => exact signed_unpack_pack (signed_roundWithAccuracy _ _ _ _) (.inr hunpacked)

/-! ### Quotients -/

theorem divTiesEven_bounds (num den : ℕ) :
    num / den ≤ divTiesEven num den ∧ divTiesEven num den ≤ num / den + 1 := by
  unfold divTiesEven
  dsimp only
  split
  · omega
  · split <;> omega

/-- The leading 53 bits of an integer, which rounding may carry to `2 ^ 53`. -/
theorem leadingBits_bounds {n k : ℕ} (hlow : 2 ^ k ≤ n) (hhigh : n < 2 ^ (k + 1)) :
    2 ^ 52 ≤ (if k ≤ 52 then n * 2 ^ (52 - k) else divTiesEven n (2 ^ (k - 52))) ∧
      (if k ≤ 52 then n * 2 ^ (52 - k) else divTiesEven n (2 ^ (k - 52))) ≤ 2 ^ 53 := by
  split
  · next hk =>
      have hsplit : 2 ^ 52 = 2 ^ k * 2 ^ (52 - k) := by rw [← pow_add]; congr 1; omega
      rw [pow_succ] at hhigh
      constructor
      · rw [hsplit]
        exact Nat.mul_le_mul_right _ hlow
      · rw [pow_succ, hsplit, mul_right_comm]
        exact Nat.mul_le_mul_right _ hhigh.le
  · next hk =>
      have hsplit : 2 ^ k = 2 ^ 52 * 2 ^ (k - 52) := by rw [← pow_add]; congr 1; omega
      rw [pow_succ, hsplit, mul_right_comm, ← pow_succ] at hhigh
      rw [hsplit] at hlow
      have hpos : 0 < 2 ^ (k - 52) := by positivity
      have hquotient : 2 ^ 52 ≤ n / 2 ^ (k - 52) := (Nat.le_div_iff_mul_le hpos).mpr hlow
      have hquotient' : n / 2 ^ (k - 52) < 2 ^ 53 := (Nat.div_lt_iff_lt_mul hpos).mpr hhigh
      obtain ⟨hdown, hup⟩ := divTiesEven_bounds n (2 ^ (k - 52))
      exact ⟨hquotient.trans hdown, hup.trans hquotient'⟩

/-- **The bits of the double nearest to an integer** from two on: the exponent field is at least that
of two, and not that of an infinity. -/
theorem nearestBits_bounds {n : ℕ} (htwo : 2 ≤ n) (hlt : n < 2 ^ 63) :
    1024 * 2 ^ 52 ≤ nearestBits n ∧ nearestBits n < 2047 * 2 ^ 52 := by
  have hne : n ≠ 0 := by omega
  have hlow : 1 ≤ n.log2 := (Nat.le_log2 hne).mpr htwo
  have hhigh : n.log2 < 63 := (Nat.log2_lt hne).mpr hlt
  have hbits := leadingBits_bounds (Nat.log2_self_le hne) Nat.lt_log2_self
  have hnearest : nearestBits n = min ((n.log2 + 1022) * 2 ^ 52 +
      (if n.log2 ≤ 52 then n * 2 ^ (52 - n.log2) else divTiesEven n (2 ^ (n.log2 - 52))))
        (2047 * 2 ^ 52) := by
    unfold nearestBits
    rw [if_neg hne]
  rw [hnearest]
  generalize (if n.log2 ≤ 52 then n * 2 ^ (52 - n.log2) else divTiesEven n (2 ^ (n.log2 - 52))) =
    mantissa at hbits ⊢
  omega

/-- **The form of the double nearest to an integer** from two on. -/
theorem exists_unpacked_nearest {n : ℕ} (htwo : 2 ≤ n) (hlt : n < 2 ^ 63) :
    ∃ (m : ℕ) (e : ℤ) (hpos : 0 < m), unpacked (nearest n) = .finite .positive m e hpos ∧
      2 ^ 52 ≤ m ∧ -51 ≤ e := by
  obtain ⟨hlow, hhigh⟩ := nearestBits_bounds htwo hlt
  have hbits : (UInt64.ofNat (nearestBits n)).toBitVec.toNat = nearestBits n := by
    show nearestBits n % 2 ^ 64 = _
    omega
  have hunpacked : unpacked (nearest n) =
      unpack Format.binary64 (UInt64.ofNat (nearestBits n)).toBitVec :=
    unpack_pack (representable_unpack _)
  have hfields := ofUnpacked?_unpack (UInt64.ofNat (nearestBits n)).toBitVec
  rw [← hunpacked, toNat_unpackExponent, toNat_unpackMantissa, isNegative_unpackSign, hbits,
    if_neg (by omega), if_neg (by omega), decide_eq_false (by omega)] at hfields
  generalize unpacked (nearest n) = u at hfields
  cases u with
  | infinity sign => cases hfields
  | notANumber => cases hfields
  | zero sign =>
      simp only [ofUnpacked?, Option.some.injEq, mk.injEq] at hfields
      omega
  | finite sign m e hpos =>
      simp only [ofUnpacked?, Option.some.injEq, mk.injEq] at hfields
      obtain ⟨hsign, rfl, rfl⟩ := hfields
      cases sign with
      | negative => cases hsign
      | positive => exact ⟨_, _, hpos, rfl, by omega, by omega⟩

/-- The mantissa of a quotient by a full mantissa grows by no more than the shift. -/
theorem log2_quotient_le {m₁ m₂ : ℕ} (s : ℕ) (hm₁ : m₁ < 2 ^ 53) (hm₂ : 2 ^ 52 ≤ m₂) :
    ((m₁ <<< s) / m₂).log2 ≤ s := by
  rcases Nat.eq_zero_or_pos ((m₁ <<< s) / m₂) with hzero | hpos
  · rw [hzero]
    exact Nat.zero_le s
  · rw [← Nat.lt_succ_iff, Nat.log2_lt hpos.ne', Nat.div_lt_iff_lt_mul (by omega),
      Nat.shiftLeft_eq, pow_succ, mul_assoc, mul_comm (2 ^ s)]
    exact Nat.mul_lt_mul_of_pos_right (by omega) (by positivity)

/-- **Quotients by integers from two on are finite**: the exponent falls by as much as rounding may add
to it. -/
theorem signed_div_nearest {n : ℕ} (htwo : 2 ≤ n) (hlt : n < 2 ^ 63)
    (hx : Signed .positive top (unpacked x)) : Signed .positive 971 (unpacked (x / nearest n)) := by
  obtain ⟨m₂, e₂, hpos₂, hdivisor, hm₂, he₂⟩ := exists_unpacked_nearest htwo hlt
  have hquotient : unpacked (x / nearest n) =
      (Float.Model.pack (.div Format.binary64 (unpacked x) (unpacked (nearest n)))).unpack := rfl
  have hrange := representable_unpacked x
  rw [hquotient, hdivisor]
  generalize unpacked x = u at hx hrange
  cases hx with
  | zero => exact signed_unpack_pack (.zero : Signed .positive 0 _) (.inl (by decide))
  | @finite m₁ e₁ hpos₁ _ =>
      obtain ⟨hm₁, -, he₁, -⟩ := hrange
      refine signed_unpack_pack (signed_roundWithAccuracy _ _ _ _) (.inl ?_)
      have hlog₁ : m₁.log2 < 53 := (Nat.log2_lt hpos₁.ne').mpr hm₁
      have hlog₂ : 52 ≤ m₂.log2 := (Nat.le_log2 hpos₂.ne').mpr hm₂
      simp only [targetExponent_eq, totalExponent]
      generalize hs : (e₁ - e₂ - min (e₁ - e₂)
        (max (↑m₁.log2 + 1 + e₁ - (↑m₂.log2 + 1 + e₂) - 53) (-1074))).toNat = s
      have hlog := log2_quotient_le s hm₁ hm₂
      omega

end Binary64

end EncryptedReals

import EncryptedReals.Evaluation
import EncryptedReals.Proofs.Division
import EncryptedReals.Proofs.SwitchingKeys

/-!
# Rescaling is rounding division by the dropped modulus

Rescaling works limb by limb and never sees the integers behind the residues.  Still, if `C` is
any integer with the residues of a coefficient, then the coefficient becomes the residue of the
integer nearest to `C / q`, where `q` is the modulus that is dropped: the centred residue `r` of
`C` modulo `q` is found in the dropped limb, and `(C - r) / q` is that integer.

## Main Definitions

* `Context.IsCoefficient` — the integers with the residues of a coefficient
* `Context.pairRemainder` — what rescaling leaves behind of a message

## Main results

* `round_div_eq` — division after taking off a centred remainder is rounding
* `Context.isCoefficient_rescalePart` — a coefficient is divided and rounded
* `Context.phase_rescaled` — the phase of a pair after rescaling
* `Context.rescale_round` — what rescaling does to ciphertexts and to messages

## Design Notes

The theorems on values hold at every point of a transform.  Coefficients come in at the end, by
`Context.Limb.eq_of_eval_point_eq`: two polynomials with the same values at all points are
the same.
-/

namespace EncryptedReals

open Negacyclic

/-- **Division after taking off a centred remainder is rounding** to the nearest integer. -/
theorem round_div_eq {C z r : ℤ} {m : ℕ} (hm : 0 < m) (hC : C = m * z + r)
    (hr : 2 * |r| ≤ (m : ℤ) - 1) : round ((C : ℚ) / m) = z := by
  have hpos : (0 : ℚ) < m := by exact_mod_cast hm
  have hbounds : -(m : ℤ) < 2 * r ∧ 2 * r < m := by
    have hlow := neg_abs_le r
    have hhigh := le_abs_self r
    constructor <;> omega
  have hlow : -(m : ℚ) < 2 * r := by exact_mod_cast hbounds.1
  have hhigh : 2 * (r : ℚ) < m := by exact_mod_cast hbounds.2
  have hquotient : (C : ℚ) / m = z + r / m := by
    rw [hC]
    push_cast
    field_simp
  have hlow' : -(1 / 2 : ℚ) < r / m := by
    rw [lt_div_iff₀ hpos]
    linarith
  have hhigh' : (r : ℚ) / m < 1 / 2 := by
    rw [div_lt_iff₀ hpos]
    linarith
  rw [hquotient, round_eq_iff]
  exact ⟨by linarith, by linarith⟩

namespace Context

variable {ctx : Context} {level : ℕ} {p : ResiduePoly} {ct : Ciphertext} {last : Transform}
  {lastPsi : ZMod last.modulus.value}

/-! ### Parts -/

/-- **An integer with the residues of a coefficient** of a part at a level. -/
def IsCoefficient (ctx : Context) (level : ℕ) (p : ResiduePoly) (k : ℕ) (C : ℤ) : Prop :=
  ∀ (i : ℕ) (q : Modulus), (ctx.moduliAt level)[i]? = some q →
    ((p.inverse ctx.transforms).limb i).getD k 0 = q.reduce C

/-- **The remainder of a part**: the centred coefficients of the limb that rescaling drops. -/
def partRemainder (last : Transform) (index : ℕ) (p : ResiduePoly) : ℕ → ℤ :=
  remainder last (p.limb index)

section Part

variable (h : ctx.Made) (hlast : ctx.Limb (level + 1) last lastPsi)
  (hp : p.Canonical ctx.degree (ctx.moduliAt (level + 1)))

include hlast hp

theorem isVector_dropped : last.modulus.IsVector last.size (p.limb (level + 1)) := by
  rw [hlast.size_eq]
  exact hp.isVector (level + 1) _ (hlast.modulusAt le_rfl)

include h

theorem two_mul_abs_partRemainder_le {k : ℕ} (hk : k < ctx.degree) :
    2 * |partRemainder last (level + 1) p k| ≤ (last.modulus.value : ℤ) - 1 := by
  have hodd := h.modulus_odd (List.mem_of_getElem? hlast.modulus)
  exact two_mul_abs_remainder_le hlast.lawful (isVector_dropped hlast hp) hodd
    (hlast.size_eq.symm ▸ hk)

/-- A limb of a part after rescaling. -/
theorem limb_rescalePart {i : ℕ} {t : Transform} {psi : ZMod t.modulus.value}
    (hl : ctx.Limb i t psi) (hi : i ≤ level) :
    t.modulus.IsVector ctx.degree ((ctx.rescalePart (level + 1) last p).limb i) ∧
      ∀ k < ctx.degree,
        (ctx.rescalePart (level + 1) last p).value t.modulus i k * last.modulus.value =
          p.value t.modulus i k -
            evalInt ctx.degree (partRemainder last (level + 1) p) (t.point psi k) := by
  have hq := hl.modulusAt (show i ≤ level + 1 by omega)
  have hkept : (p.limbs.take (level + 1))[i]? = some (p.limb i) := by
    rw [List.getElem?_take_of_lt (by omega)]
    exact hp.getElem? hq
  have hvector : t.modulus.IsVector t.size (p.limb i) := by
    rw [hl.size_eq]
    exact hp.isVector i _ hq
  obtain ⟨b, hb, hbvector, hbview⟩ := getElem?_divideByLast hlast.lawful
    (isVector_dropped hlast hp) hl.lawful (hl.size_eq.trans hlast.size_eq.symm) hvector
    (h.modulus_ne_zero hl.modulus hlast.modulus (by omega)) hkept hl.transform
  have hlimb : (ctx.rescalePart (level + 1) last p).limb i = b :=
    ResiduePoly.limb_eq_of_getElem? hb
  rw [hl.size_eq] at hbvector hbview
  refine ⟨hlimb ▸ hbvector, fun k hk => ?_⟩
  rw [ResiduePoly.value, hlimb, hbview k hk]
  rfl

/-- **A part after rescaling has canonical residues** at the lower level. -/
theorem canonical_rescalePart (hlevel : level + 1 ≤ ctx.maxLevel) :
    (ctx.rescalePart (level + 1) last p).Canonical ctx.degree (ctx.moduliAt level) := by
  refine ⟨hp.degree_eq, ?_, fun i q hq => ?_⟩
  · rw [rescalePart, divideByLast, length_overlay, List.length_take, hp.length_eq,
      h.length_moduliAt hlevel, h.length_moduliAt (by omega)]
    omega
  · obtain ⟨hi, t, psi, rfl, hl⟩ := h.exists_limbAt hq
    exact (limb_rescalePart h hlast hp hl hi).1

/-- **The coefficients after rescaling**: the dropped modulus times the new one is the old one
less the remainder. -/
theorem value_inverse_rescalePart (hlevel : level + 1 ≤ ctx.maxLevel) {i k : ℕ} {t : Transform}
    {psi : ZMod t.modulus.value} (hl : ctx.Limb i t psi) (hi : i ≤ level) (hk : k < ctx.degree) :
    last.modulus.value *
        ((ctx.rescalePart (level + 1) last p).inverse ctx.transforms).value t.modulus i k =
      (p.inverse ctx.transforms).value t.modulus i k - partRemainder last (level + 1) p k := by
  have hrescaled := canonical_rescalePart h hlast hp hlevel
  refine hl.eq_of_eval_point_eq
    (c := fun m => last.modulus.value *
      ((ctx.rescalePart (level + 1) last p).inverse ctx.transforms).value t.modulus i m)
    (d := fun m => (p.inverse ctx.transforms).value t.modulus i m -
      partRemainder last (level + 1) p m) (fun j hj => ?_) hk
  have hvalue := (limb_rescalePart h hlast hp hl hi).2 j hj
  rw [eval_const_mul, eval_sub, hl.eval_inverse hi hrescaled hj,
    hl.eval_inverse (show i ≤ level + 1 by omega) hp hj, mul_comm, hvalue, evalInt]

/-- **A coefficient is divided by the dropped modulus and rounded.**  Whichever integer has the
residues of the coefficient, the new residues are those of the nearest integer to its quotient. -/
theorem isCoefficient_rescalePart (hlevel : level + 1 ≤ ctx.maxLevel) {k : ℕ}
    (hk : k < ctx.degree) {C : ℤ} (hC : ctx.IsCoefficient (level + 1) p k C) :
    ctx.IsCoefficient level (ctx.rescalePart (level + 1) last p) k
      (round ((C : ℚ) / last.modulus.value)) := by
  intro i q hq
  obtain ⟨hi, t, psi, rfl, hl⟩ := h.exists_limbAt hq
  have : Fact t.modulus.value.Prime := ⟨hl.lawful.prime⟩
  have hunit := h.modulus_ne_zero hl.modulus hlast.modulus (show i ≠ level + 1 by omega)
  -- the remainder is the centred residue of `C`, so the modulus divides what is left
  have hremainder : partRemainder last (level + 1) p k =
      last.modulus.center (last.modulus.reduce C) := by
    rw [← hC _ _ (hlast.modulusAt le_rfl), partRemainder,
      remainder_eq hlast.lawful (isVector_dropped hlast hp) (hlast.size_eq.symm ▸ hk),
      ResiduePoly.limb_inverse (hp.length_lt (hlast.modulusAt le_rfl)) hlast.transform]
  have hdvd : (last.modulus.value : ℤ) ∣ C - partRemainder last (level + 1) p k := by
    refine (ZMod.intCast_zmod_eq_zero_iff_dvd _ _).mp ?_
    rw [hremainder, Int.cast_sub,
      Modulus.cast_center hlast.lawful.small (Modulus.reduce_lt hlast.lawful.pos C),
      Modulus.cast_reduce hlast.lawful.pos, sub_self]
  obtain ⟨z, hz⟩ := hdvd
  have hround : round ((C : ℚ) / last.modulus.value) = z :=
    round_div_eq hlast.lawful.pos (by omega : C = last.modulus.value * z +
      partRemainder last (level + 1) p k) (two_mul_abs_partRemainder_le h hlast hp hk)
  have hcoefficient : (p.inverse ctx.transforms).value t.modulus i k = C := by
    rw [ResiduePoly.value, Modulus.view, hC i _ (hl.modulusAt (by omega)),
      Modulus.cast_reduce hl.lawful.pos]
  have hvalue := value_inverse_rescalePart h hlast hp hlevel hl hi hk
  rw [hcoefficient, ← Int.cast_sub, hz, Int.cast_mul, Int.cast_natCast] at hvalue
  have hcanonical := (canonical_rescalePart h hlast hp hlevel).inverse (h.coverAt level)
  refine t.modulus.eq_of_cast_eq ((hcanonical.isVector i _ hq).lt k hk)
    (Modulus.reduce_lt hl.lawful.pos _) ?_
  rw [Modulus.cast_reduce hl.lawful.pos, hround]
  exact mul_left_cancel₀ hunit hvalue

end Part

/-! ### Results -/

/-- **A rescale at level 0** has nothing to drop. -/
theorem rescale_bottom (hct : ctx.checkOwned ct = .ok ()) (hlevel : ct.level = 0) :
    ctx.rescale ct = .error (.chainExhausted 0) := by
  rw [rescale, bind_of_ok hct, hlevel]
  rfl

/-- **What rescaling returns above the last level.** -/
theorem rescale_eq (h : ctx.Made) (hct : ctx.Owns ct) (hlevel : ct.level = level + 1)
    (hlast : ctx.Limb (level + 1) last lastPsi) :
    ctx.rescale ct = .ok { ct with
      parts := ct.parts.map (ctx.rescalePart (level + 1) last)
      scale := ct.scale / Binary64.nearest last.modulus.value
      level := level } := by
  simp only [rescale, check_bind_eq_ok, hlevel, hlast.transform]
  exact ⟨hct.checkOwned h, rfl⟩

/-- The parts after rescaling make a well-formed ciphertext of the lower level. -/
theorem owns_rescaled (h : ctx.Made) (hct : ctx.Owns ct) (hlevel : ct.level = level + 1)
    (hlast : ctx.Limb (level + 1) last lastPsi) (scale : Float) :
    ctx.Owns { ct with
      parts := ct.parts.map (ctx.rescalePart (level + 1) last)
      scale := scale
      level := level } := by
  have hle := hct.level_le
  refine ⟨hct.owner_eq, by simp only; omega, ?_, ?_⟩
  · rw [Ciphertext.size, List.length_map]
    exact hct.two_le_size
  · refine List.forall_mem_map.mpr fun p hp => ?_
    exact canonical_rescalePart h hlast (hlevel ▸ hct.canonical p hp) (hlevel ▸ hle)

/-! ### Messages -/

/-- **The remainder of two parts**, taken at the secret. -/
def pairRemainder (ctx : Context) (last : Transform) (index : ℕ) (s : Array ℤ)
    (c0 c1 : ResiduePoly) (k : ℕ) : ℤ :=
  partRemainder last index c0 k +
    mul ctx.degree (partRemainder last index c1) (fun j => s.getD j 0) k

section Pair

variable {s : Array ℤ} {c0 c1 : ResiduePoly} {k : ℕ} (h : ctx.Made) (hs : ctx.Ternary s)
  (hlast : ctx.Limb (level + 1) last lastPsi)
  (h0 : c0.Canonical ctx.degree (ctx.moduliAt (level + 1)))
  (h1 : c1.Canonical ctx.degree (ctx.moduliAt (level + 1)))

include h hs hlast h0 h1

/-- The remainder of two parts is small: a centred remainder, and `n` more of them. -/
theorem two_mul_abs_pairRemainder_le (hk : k < ctx.degree) :
    2 * |pairRemainder ctx last (level + 1) s c0 c1 k| ≤
      ((ctx.degree : ℤ) + 1) * ((last.modulus.value : ℤ) - 1) := by
  have hfirst := two_mul_abs_partRemainder_le h hlast h0 hk
  have hsecond : |mul ctx.degree (fun j => 2 * partRemainder last (level + 1) c1 j)
      (fun j => s.getD j 0) k| ≤ ctx.degree * (((last.modulus.value : ℤ) - 1) * 1) := by
    refine abs_mul_le (fun j hj => ?_) (fun j _ => hs.abs_le_one j) hk
    rw [abs_mul, abs_two]
    exact two_mul_abs_partRemainder_le h hlast h1 hj
  have hdouble : mul ctx.degree (fun j => 2 * partRemainder last (level + 1) c1 j)
      (fun j => s.getD j 0) k =
        2 * mul ctx.degree (partRemainder last (level + 1) c1) (fun j => s.getD j 0) k := by
    simp only [mul, mul_assoc, Finset.mul_sum]
  rw [hdouble, abs_mul, abs_two] at hsecond
  have htriangle := abs_add_le (partRemainder last (level + 1) c0 k)
    (mul ctx.degree (partRemainder last (level + 1) c1) (fun j => s.getD j 0) k)
  rw [pairRemainder]
  linarith

/-- **The phase of a pair after rescaling**: the dropped modulus times the new phase is the
old one less the values of the remainder. -/
theorem phase_rescaled {i : ℕ} {t : Transform} {psi : ZMod t.modulus.value}
    (hl : ctx.Limb i t psi) (hi : i ≤ level) (hk : k < ctx.degree) :
    last.modulus.value * phase t.modulus i k (SecretKey.ofDraws ctx s).poly
        [ctx.rescalePart (level + 1) last c0, ctx.rescalePart (level + 1) last c1] =
      phase t.modulus i k (SecretKey.ofDraws ctx s).poly [c0, c1] -
        evalInt ctx.degree (pairRemainder ctx last (level + 1) s c0 c1) (t.point psi k) := by
  have hfirst := (limb_rescalePart h hlast h0 hl hi).2 k hk
  have hsecond := (limb_rescalePart h hlast h1 hl hi).2 k hk
  have hsecret : (SecretKey.ofDraws ctx s).poly.value t.modulus i k =
      evalInt ctx.degree (fun j => s.getD j 0) (t.point psi k) :=
    value_lift h hs.size_eq hl hk
  have hremainder : evalInt ctx.degree (pairRemainder ctx last (level + 1) s c0 c1)
        (t.point psi k) =
      evalInt ctx.degree (partRemainder last (level + 1) c0) (t.point psi k) +
        evalInt ctx.degree (partRemainder last (level + 1) c1) (t.point psi k) *
          evalInt ctx.degree (fun j => s.getD j 0) (t.point psi k) := by
    rw [← evalInt_mul (hl.point_pow k), ← evalInt_add]
    rfl
  rw [phase_pair, phase_pair, hsecret, hremainder]
  linear_combination hfirst + evalInt ctx.degree (fun j => s.getD j 0) (t.point psi k) * hsecond

end Pair

/-- **The message of a pair after rescaling**: the dropped modulus times the new message is the
old one less one integer polynomial. -/
theorem value_inverse_message_rescaled (h : ctx.Made) {s : Array ℤ} (hs : ctx.Ternary s)
    {ct ct' : Ciphertext} (hct : ctx.Owns ct) (hct' : ctx.Owns ct')
    (hlevel : ct.level = level + 1) (hlevel' : ct'.level = level)
    (hlast : ctx.Limb (level + 1) last lastPsi) {c0 c1 : ResiduePoly} (hparts : ct.parts = [c0, c1])
    (hparts' : ct'.parts = ct.parts.map (ctx.rescalePart (level + 1) last)) {i k : ℕ}
    {t : Transform} {psi : ZMod t.modulus.value} (hl : ctx.Limb i t psi) (hi : i ≤ level)
    (hk : k < ctx.degree) :
    last.modulus.value * ((ctx.message (.ofDraws ctx s) ct').inverse ctx.transforms).value
        t.modulus i k =
      ((ctx.message (.ofDraws ctx s) ct).inverse ctx.transforms).value t.modulus i k -
        pairRemainder ctx last (level + 1) s c0 c1 k := by
  have hsk := SecretKey.belongsTo_ofDraws h hs.size_eq
  obtain ⟨h0, h1⟩ := hct.canonical_pair hparts
  rw [hlevel] at h0 h1
  refine hl.eq_of_eval_point_eq
    (c := fun m => last.modulus.value *
      ((ctx.message (.ofDraws ctx s) ct').inverse ctx.transforms).value t.modulus i m)
    (d := fun m => ((ctx.message (.ofDraws ctx s) ct).inverse ctx.transforms).value t.modulus i m -
      pairRemainder ctx last (level + 1) s c0 c1 m) (fun j hj => ?_) hk
  have hphase := phase_rescaled h hs hlast h0 h1 hl hi hj
  rw [eval_const_mul, eval_sub, eval_inverse_message h hsk hct' hl (by omega) hj,
    eval_inverse_message h hsk hct hl (by omega) hj, hparts', hparts]
  exact hphase

/-! ### Ciphertexts -/

/-- **What rescaling does.**  At level 0 no modulus is left to drop.  Above, it gives a ciphertext
one level lower with as many parts, and each coefficient becomes the nearest integer to its
quotient by the dropped modulus.  For two parts and a ternary secret, the dropped modulus times
the new message is the old message less one integer polynomial `D`, the same in every limb that
is left, with coefficients of at most `(n + 1) (q - 1) / 2`. -/
theorem rescale_round (h : ctx.Made) (hct : ctx.Owns ct) :
    (ct.level = 0 → ctx.rescale ct = .error (.chainExhausted 0)) ∧
    ∀ level, ct.level = level + 1 → ∃ (last : Modulus) (ct' : Ciphertext),
      ctx.parameters.moduli[level + 1]? = some last ∧ ctx.rescale ct = .ok ct' ∧ ctx.Owns ct' ∧
        ct'.level = level ∧ ct'.size = ct.size ∧ ct'.owner = ct.owner ∧
        (∀ (j : ℕ) (p : ResiduePoly), ct.parts[j]? = some p → ∃ p', ct'.parts[j]? = some p' ∧
          ∀ k < ctx.degree, ∀ C : ℤ, ctx.IsCoefficient (level + 1) p k C →
            ctx.IsCoefficient level p' k (round ((C : ℚ) / last.value))) ∧
        (ct.size = 2 → ∀ s : Array ℤ, ctx.Ternary s → ∃ (m m' : Plaintext) (D : ℕ → ℤ),
          ctx.decrypt ct (.ofDraws ctx s) = .ok m ∧ ctx.decrypt ct' (.ofDraws ctx s) = .ok m' ∧
            (∀ k < ctx.degree, 2 * |D k| ≤ ((ctx.degree : ℤ) + 1) * ((last.value : ℤ) - 1)) ∧
            ∀ (i : ℕ) (q : Modulus), (ctx.moduliAt level)[i]? = some q → ∀ k < ctx.degree,
              last.value * (m'.poly.inverse ctx.transforms).value q i k =
                (m.poly.inverse ctx.transforms).value q i k - D k) := by
  refine ⟨fun hzero => ?_, fun level hlevel => ?_⟩
  · rw [rescale, hct.checkOwned h, hzero]
    rfl
  · have hle := hct.level_le
    obtain ⟨last, hmodulus⟩ := h.exists_modulusAt hle le_rfl
    rw [hlevel] at hmodulus
    obtain ⟨t, psi, rfl, hlast⟩ := h.exists_limb (Parameters.getElem?_moduliAt.mp hmodulus).2
    have hown := owns_rescaled h hct hlevel hlast (ct.scale / Binary64.nearest t.modulus.value)
    refine ⟨t.modulus, _, hlast.modulus, rescale_eq h hct hlevel hlast, hown, rfl,
      List.length_map _, rfl, fun j p hp => ?_, fun hsize s hs => ?_⟩
    · refine ⟨ctx.rescalePart (level + 1) t p, ?_, fun k hk C hC => ?_⟩
      · rw [List.getElem?_map, hp]
        rfl
      · have hcanonical := hct.canonical p (List.mem_of_getElem? hp)
        rw [hlevel] at hcanonical
        exact isCoefficient_rescalePart h hlast hcanonical (hlevel ▸ hle) hk hC
    · obtain ⟨c0, c1, hparts⟩ := List.length_eq_two.mp hsize
      obtain ⟨h0, h1⟩ := hct.canonical_pair hparts
      rw [hlevel] at h0 h1
      have hsk := SecretKey.belongsTo_ofDraws h hs.size_eq
      refine ⟨_, _, pairRemainder ctx t (level + 1) s c0 c1, decrypt_eq h hsk hct,
        decrypt_eq h hsk hown, fun k hk => two_mul_abs_pairRemainder_le h hs hlast h0 h1 hk,
        fun i q hq k hk => ?_⟩
      obtain ⟨hi, u, psi, rfl, hl⟩ := h.exists_limbAt hq
      exact value_inverse_message_rescaled h hs hct hown hlevel rfl hlast hparts rfl hl hi hk

/-- Two parts at level 1 of the small context, which drop the modulus 41. -/
theorem rescale_round_small : ∃ (last : Modulus) (ct' : Ciphertext),
    last = ⟨41⟩ ∧ small.rescale (.small false) = .ok ct' ∧ small.Owns ct' ∧ ct'.level = 0 ∧
      ct'.size = 2 ∧
      (∀ (j : ℕ) (p : ResiduePoly), (Ciphertext.small false).parts[j]? = some p →
        ∃ p', ct'.parts[j]? = some p' ∧ ∀ k < 4, ∀ C : ℤ, small.IsCoefficient 1 p k C →
          small.IsCoefficient 0 p' k (round ((C : ℚ) / 41))) ∧
      ∃ (m m' : Plaintext) (D : ℕ → ℤ),
        small.decrypt (.small false) (.ofDraws small #[1, 0, -1, 1]) = .ok m ∧
        small.decrypt ct' (.ofDraws small #[1, 0, -1, 1]) = .ok m' ∧
        (∀ k < 4, 2 * |D k| ≤ 200) ∧
        ∀ (i : ℕ) (q : Modulus), (small.moduliAt 0)[i]? = some q → ∀ k < 4,
          41 * (m'.poly.inverse small.transforms).value q i k =
            (m.poly.inverse small.transforms).value q i k - D k := by
  obtain ⟨last, ct', hlast, hrescale, hown, hlevel, hsize, -, hparts, hmessage⟩ :=
    (rescale_round made_small (owns_small false)).2 0 rfl
  obtain rfl : last = ⟨41⟩ := (Option.some.inj hlast).symm
  obtain ⟨m, m', D, hm, hm', hbound, hlimbs⟩ := hmessage rfl _ ternary_small
  exact ⟨_, ct', rfl, hrescale, hown, hlevel, hsize, hparts, m, m', D, hm, hm', hbound, hlimbs⟩

end Context

end EncryptedReals

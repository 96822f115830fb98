import EncryptedReals.Proofs.KeySwitch

/-!
# The error of key switching

`P E` is the noise less the two remainders, the second one times the secret.  It is a
multiple of `P` because it vanishes in the limb of `P`, where the target does not
enter; and dividing by `P` in a data limb gives `d t + E` there, with the same `E` in
every limb.  The bound on `E` adds up the bounds of the three summands.

## Main Definitions

* `SwitchKey.scaledError` — `P E`
* `SwitchKey.errorBound` — the bound on its coefficients

## Main results

* `SwitchKey.dvd_scaledError` — the special prime divides `P E`
* `SwitchKey.abs_scaledError_le` — the bound
* `SwitchKey.apply_spec` — the phase of what key switching returns
-/

namespace EncryptedReals

open Finset Negacyclic

/-- A sum over the indices of a list. -/
theorem sum_range_getD : ∀ l : List ℤ, ∑ j ∈ range l.length, l.getD j 0 = l.sum := by
  intro l
  induction l with
  | nil => rfl
  | cons a l ih =>
      rw [List.length_cons, sum_range_succ', List.sum_cons, List.getD_cons_zero, add_comm]
      simp only [List.getD_cons_succ]
      rw [ih]

namespace SwitchKey

variable {ctx : Context} {s : Array ℤ} {d target : ResiduePoly} {level : ℕ}
  {draws : List (ResiduePoly × Array ℤ)}

/-- The coefficients of the secret. -/
def secretInt (s : Array ℤ) (k : ℕ) : ℤ :=
  s.getD k 0

/-- The remainder of the first half, for a key made from draws. -/
def firstRemainder (ctx : Context) (last : Transform) (s : Array ℤ) (target : ResiduePoly)
    (draws : List (ResiduePoly × Array ℤ)) (d : ResiduePoly) (level : ℕ) : ℕ → ℤ :=
  weightedRemainder ctx last (firstHalf ctx (.ofDraws ctx s) last.modulus target draws) d level

/-- The remainder of the second half. -/
def secondRemainder (ctx : Context) (last : Transform) (draws : List (ResiduePoly × Array ℤ))
    (d : ResiduePoly) (level : ℕ) : ℕ → ℤ :=
  weightedRemainder ctx last (secondHalf draws) d level

/-- **The error before the division**: the noise less the remainders, taken at the secret. -/
def scaledError (ctx : Context) (last : Transform) (s : Array ℤ) (target : ResiduePoly)
    (draws : List (ResiduePoly × Array ℤ)) (d : ResiduePoly) (level k : ℕ) : ℤ :=
  noise ctx d (errorAt draws) level k - firstRemainder ctx last s target draws d level k -
    mul ctx.degree (secondRemainder ctx last draws d level) (secretInt s) k

/-- **The bound on `P E`** for key switching at a level, `P` being the special prime. -/
def errorBound (ctx : Context) (special : Modulus) (level : ℕ) : ℤ :=
  19 * ctx.degree * ((ctx.moduliAt level).map fun q => (q.value : ℤ) - 1).sum +
    (ctx.degree + 1) * (special.value - 1) / 2

theorem errorBound_nonneg (h : ctx.Made) {special : Modulus} (hspecial : 0 < special.value) :
    0 ≤ errorBound ctx special level := by
  have hsum : 0 ≤ ((ctx.moduliAt level).map fun q => (q.value : ℤ) - 1).sum := by
    refine List.sum_nonneg fun x hx => ?_
    obtain ⟨q, hq, rfl⟩ := List.mem_map.mp hx
    have hpos := (h.fitWordsAt level q hq).1
    omega
  have hproduct : (0 : ℤ) ≤ (ctx.degree + 1) * (special.value - 1) :=
    mul_nonneg (by omega) (by omega)
  exact add_nonneg (mul_nonneg (by omega) hsum) (Int.ediv_nonneg hproduct zero_le_two)

/-- The noise is bounded by the sizes of the digits and of the errors. -/
theorem abs_noise_le (h : ctx.Made) (hlevel : level ≤ ctx.maxLevel)
    (hd : d.Canonical ctx.degree (ctx.moduliAt level))
    (hdraws : ∀ j ≤ level, ctx.PairDraw (drawAt draws j)) {k : ℕ} (hk : k < ctx.degree) :
    |noise ctx d (errorAt draws) level k| ≤
      19 * ctx.degree * ((ctx.moduliAt level).map fun q => (q.value : ℤ) - 1).sum := by
  have hterm : ∀ j ∈ range (level + 1),
      |mul ctx.degree (digitInt ctx d j) (errorAt draws j) k| ≤ 19 * ctx.degree *
        ((ctx.moduliAt level).map fun q => (q.value : ℤ) - 1).getD j 0 := by
    intro j hj
    have hj' : j ≤ level := Nat.lt_succ_iff.mp (mem_range.mp hj)
    obtain ⟨q, hq⟩ := h.exists_modulusAt hlevel hj'
    have hdigit : ∀ m < ctx.degree, |digitInt ctx d j m| ≤ (q.value : ℤ) - 1 := by
      intro m hm
      have hlt := (isVector_digit h hd hq).lt m hm
      rw [digitInt, Nat.abs_cast]
      omega
    have hproduct := abs_mul_le hdigit (fun m _ => (hdraws j hj').abs_le m) hk
    have hgetD : ((ctx.moduliAt level).map fun q => (q.value : ℤ) - 1).getD j 0 =
        (q.value : ℤ) - 1 := by
      rw [List.getD_eq_getElem?_getD, List.getElem?_map, hq]
      rfl
    rw [hgetD]
    calc |mul ctx.degree (digitInt ctx d j) (errorAt draws j) k|
        ≤ ctx.degree * (((q.value : ℤ) - 1) * 19) := hproduct
      _ = 19 * ctx.degree * ((q.value : ℤ) - 1) := by ring
  have hlength : level + 1 = ((ctx.moduliAt level).map fun q => (q.value : ℤ) - 1).length := by
    rw [List.length_map, h.length_moduliAt hlevel]
  calc |noise ctx d (errorAt draws) level k|
      ≤ ∑ j ∈ range (level + 1), |mul ctx.degree (digitInt ctx d j) (errorAt draws j) k| :=
        abs_sum_le_sum_abs _ _
    _ ≤ ∑ j ∈ range (level + 1), 19 * ctx.degree *
          ((ctx.moduliAt level).map fun q => (q.value : ℤ) - 1).getD j 0 := sum_le_sum hterm
    _ = 19 * ctx.degree * ((ctx.moduliAt level).map fun q => (q.value : ℤ) - 1).sum := by
        rw [← mul_sum, hlength, sum_range_getD]

/-- The values of the error before the division. -/
theorem evalInt_scaledError {i : ℕ} {t : Transform} {psi : ZMod t.modulus.value} (last : Transform)
    (hl : ctx.Limb i t psi) (k : ℕ) :
    evalInt ctx.degree (scaledError ctx last s target draws d level) (t.point psi k) =
      evalInt ctx.degree (noise ctx d (errorAt draws) level) (t.point psi k) -
        evalInt ctx.degree (firstRemainder ctx last s target draws d level) (t.point psi k) -
        evalInt ctx.degree (secondRemainder ctx last draws d level) (t.point psi k) *
          evalInt ctx.degree (secretInt s) (t.point psi k) := by
  have hsplit : scaledError ctx last s target draws d level = fun m =>
      noise ctx d (errorAt draws) level m - firstRemainder ctx last s target draws d level m -
        mul ctx.degree (secondRemainder ctx last draws d level) (secretInt s) m := by
    funext m
    rfl
  rw [hsplit, evalInt_sub, evalInt_sub, evalInt_mul (hl.point_pow k)]

section Error

variable (h : ctx.Made) (hs : ctx.Ternary s)
  (htarget : target.Canonical ctx.degree ctx.parameters.moduli)
  (hdraws : ∀ j ≤ level, ctx.PairDraw (drawAt draws j))

include h hs htarget hdraws

theorem canonical_halves (special : Modulus) : ∀ j ≤ level,
    (firstHalf ctx (.ofDraws ctx s) special target draws j).Canonical ctx.degree
        ctx.parameters.moduli ∧
      (secondHalf draws j).Canonical ctx.degree ctx.parameters.moduli := by
  intro j hj
  have hsk := SecretKey.belongsTo_ofDraws h hs.size_eq
  obtain ⟨hfirst, hsecond, -⟩ := halves_spec h hsk htarget special (hdraws j hj)
  exact ⟨hfirst, hsecond⟩

variable (hlevel : level ≤ ctx.maxLevel) (hd : d.Canonical ctx.degree (ctx.moduliAt level))

include hlevel hd

/-- The error before the division, against the sums of products of a limb. -/
theorem evalInt_scaledError_eq (last : Transform) {i k : ℕ} {t : Transform}
    {psi : ZMod t.modulus.value} (hl : ctx.Limb i t psi) (hk : k < ctx.degree) :
    evalInt ctx.degree (scaledError ctx last s target draws d level) (t.point psi k) +
        (if i ≤ level then last.modulus.value * (d.value t.modulus i k * target.value t.modulus i k)
          else 0) =
      t.modulus.view (weighted ctx (firstHalf ctx (.ofDraws ctx s) last.modulus target draws) d
          level i t) k -
        evalInt ctx.degree (firstRemainder ctx last s target draws d level) (t.point psi k) +
        (t.modulus.view (weighted ctx (secondHalf draws) d level i t) k -
          evalInt ctx.degree (secondRemainder ctx last draws d level) (t.point psi k)) *
          (SecretKey.ofDraws ctx s).poly.value t.modulus i k := by
  have hsk := SecretKey.belongsTo_ofDraws h hs.size_eq
  have hsecret : (SecretKey.ofDraws ctx s).poly.value t.modulus i k =
      evalInt ctx.degree (secretInt s) (t.point psi k) :=
    Context.value_lift h hs.size_eq hl hk
  have hphase := phase_weighted h hsk htarget hlevel hd hdraws last.modulus hl hk
  rw [evalInt_scaledError last hl, ← hsecret]
  linear_combination -hphase

variable {last : Transform} {lastPsi : ZMod last.modulus.value}
  (hlast : ctx.SpecialLimb last lastPsi)

include hlast

/-- **The special prime divides the error before the division.**  In its limb the sums of
products are their own remainders, so the values of the error vanish at all points. -/
theorem dvd_scaledError {k : ℕ} (hk : k < ctx.degree) :
    (last.modulus.value : ℤ) ∣ scaledError ctx last s target draws d level k := by
  obtain ⟨-, -, hlt, -⟩ := h.special_spec hlast.special
  have hhalves := canonical_halves h hs htarget hdraws last.modulus
  refine hlast.limb.dvd_of_evalInt_eq_zero (fun m hm => ?_) hk
  have hvalues := evalInt_scaledError_eq h hs htarget hdraws hlevel hd last hlast.limb hm
  have hfirst := evalInt_weightedRemainder h hlevel hd (fun j hj => (hhalves j hj).1) hlast hm
  have hsecond := evalInt_weightedRemainder h hlevel hd (fun j hj => (hhalves j hj).2) hlast hm
  -- the special prime's index is above the level, so the target does not enter
  rw [if_neg (by omega), add_zero, firstRemainder, secondRemainder, hfirst, hsecond, sub_self,
    sub_self, zero_mul, add_zero] at hvalues
  exact hvalues

/-- **The bound on the error before the division.** -/
theorem abs_scaledError_le {k : ℕ} (hk : k < ctx.degree) :
    |scaledError ctx last s target draws d level k| ≤ errorBound ctx last.modulus level := by
  obtain ⟨-, hodd, -, -⟩ := h.special_spec hlast.special
  have hhalves := canonical_halves h hs htarget hdraws last.modulus
  obtain ⟨half, hhalf⟩ : ∃ half : ℤ, (last.modulus.value : ℤ) - 1 = 2 * half :=
    ⟨last.modulus.value / 2, by omega⟩
  have hfirst : |firstRemainder ctx last s target draws d level k| ≤ half := by
    have := two_mul_abs_weightedRemainder_le h hlevel hd (fun j hj => (hhalves j hj).1) hlast hk
    rw [firstRemainder]
    omega
  have hsecond : ∀ m < ctx.degree, |secondRemainder ctx last draws d level m| ≤ half := by
    intro m hm
    have := two_mul_abs_weightedRemainder_le h hlevel hd (fun j hj => (hhalves j hj).2) hlast hm
    rw [secondRemainder]
    omega
  have hproduct := abs_mul_le hsecond (fun m _ => hs.abs_le_one m) hk
  have hnoise := abs_noise_le h hlevel hd hdraws hk
  have hbound : ((ctx.degree : ℤ) + 1) * (last.modulus.value - 1) / 2 =
      (ctx.degree + 1) * half := by
    rw [hhalf, mul_left_comm, Int.mul_ediv_cancel_left _ two_ne_zero]
  rw [scaledError, errorBound, hbound]
  calc |noise ctx d (errorAt draws) level k - firstRemainder ctx last s target draws d level k -
          mul ctx.degree (secondRemainder ctx last draws d level) (secretInt s) k|
      ≤ |noise ctx d (errorAt draws) level k| +
          |firstRemainder ctx last s target draws d level k| +
          |mul ctx.degree (secondRemainder ctx last draws d level) (secretInt s) k| :=
        (abs_sub _ _).trans (add_le_add_left (abs_sub _ _) _)
    _ ≤ 19 * ctx.degree * ((ctx.moduliAt level).map fun q => (q.value : ℤ) - 1).sum + half +
          ctx.degree * (half * 1) := add_le_add (add_le_add hnoise hfirst) hproduct
    _ = 19 * ctx.degree * ((ctx.moduliAt level).map fun q => (q.value : ℤ) - 1).sum +
          (ctx.degree + 1) * half := by ring

/-- **The halves of the result in a data limb**: the digits' polynomial times the target, and
the quotient of the error by the special prime. -/
theorem phase_quotient {i k : ℕ} {t : Transform} {psi : ZMod t.modulus.value}
    (hl : ctx.Limb i t psi) (hi : i ≤ level) (hk : k < ctx.degree) :
    (quotient ctx last (firstHalf ctx (.ofDraws ctx s) last.modulus target draws) d level).value
          t.modulus i k +
        (quotient ctx last (secondHalf draws) d level).value t.modulus i k *
          (SecretKey.ofDraws ctx s).poly.value t.modulus i k =
      d.value t.modulus i k * target.value t.modulus i k +
        evalInt ctx.degree
          (fun m => scaledError ctx last s target draws d level m / last.modulus.value)
          (t.point psi k) := by
  have : Fact t.modulus.value.Prime := ⟨hl.lawful.prime⟩
  have hunit := h.special_ne_zero hlast.special (hi.trans hlevel) hl.modulus
  have hhalves := canonical_halves h hs htarget hdraws last.modulus
  have hfirst := (limb_quotient h hlevel hd (fun j hj => (hhalves j hj).1) hlast hl hi).2 k hk
  have hsecond := (limb_quotient h hlevel hd (fun j hj => (hhalves j hj).2) hlast hl hi).2 k hk
  have herror := evalInt_scaledError_eq h hs htarget hdraws hlevel hd last hl hk
  rw [if_pos hi, evalInt_eq_mul_ediv fun m hm =>
    dvd_scaledError h hs htarget hdraws hlevel hd hlast hm, firstRemainder, secondRemainder]
    at herror
  -- both sides are multiplied by the special prime, which has an inverse in a data limb
  refine mul_right_cancel₀ hunit ?_
  linear_combination hfirst + (SecretKey.ofDraws ctx s).poly.value t.modulus i k * hsecond - herror

end Error

/-- **Key switching multiplies by the target, up to one small integer polynomial.**  With a
key made from draws in range, switching `d` at a level gives canonical halves whose phase is
`d t + E` in every limb, where `P |E|` is within the bound. -/
theorem apply_spec {key : SwitchKey} {special : Modulus} (h : ctx.Made) (hs : ctx.Ternary s)
    (htarget : target.Canonical ctx.degree ctx.parameters.moduli)
    (hkey : key.MadeFor ctx (.ofDraws ctx s) target)
    (hspecial : ctx.parameters.special? = some special) (hlevel : level ≤ ctx.maxLevel)
    (hd : d.Canonical ctx.degree (ctx.moduliAt level)) :
    (key.apply ctx d level).1.Canonical ctx.degree (ctx.moduliAt level) ∧
      (key.apply ctx d level).2.Canonical ctx.degree (ctx.moduliAt level) ∧
        ∃ E : ℕ → ℤ, (∀ k < ctx.degree, special.value * |E k| ≤ errorBound ctx special level) ∧
          ∀ (i : ℕ) (t : Transform) (psi : ZMod t.modulus.value), ctx.Limb i t psi → i ≤ level →
            ∀ k < ctx.degree,
              (key.apply ctx d level).1.value t.modulus i k +
                  (key.apply ctx d level).2.value t.modulus i k *
                    (SecretKey.ofDraws ctx s).poly.value t.modulus i k =
                d.value t.modulus i k * target.value t.modulus i k +
                  evalInt ctx.degree E (t.point psi k) := by
  obtain ⟨special', draws, hspecial', hlength, hrange, rfl⟩ := hkey
  cases hspecial.symm.trans hspecial'
  obtain ⟨last, lastPsi, rfl, hlast⟩ := h.exists_specialLimb hspecial
  obtain ⟨-, -, -, hdata⟩ := h.special_spec hspecial
  have hr : level < draws.length := by omega
  have hdraws : ∀ j ≤ level, ctx.PairDraw (drawAt draws j) :=
    fun j hj => pairDraw_drawAt hrange (by omega)
  have hgetLast : ctx.transforms.getLast? = some last := by
    rw [List.getLast?_eq_getElem?]
    exact hlast.limb.transform
  have hhalves := canonical_halves h hs htarget hdraws last.modulus
  rw [apply_eq h hlevel (hd.length_eq.trans (h.length_moduliAt hlevel)) hr parts_ofDraws hgetLast]
  refine ⟨canonical_quotient h hlevel hd (fun j hj => (hhalves j hj).1) hlast,
    canonical_quotient h hlevel hd (fun j hj => (hhalves j hj).2) hlast,
    fun m => scaledError ctx last s target draws d level m / last.modulus.value,
    fun k hk => ?_, fun i t psi hl hi k hk =>
      phase_quotient h hs htarget hdraws hlevel hd hlast hl hi hk⟩
  have hdvd := dvd_scaledError h hs htarget hdraws hlevel hd hlast hk
  have hbound := abs_scaledError_le h hs htarget hdraws hlevel hd hlast hk
  calc (last.modulus.value : ℤ) *
        |scaledError ctx last s target draws d level k / last.modulus.value|
      = |last.modulus.value *
          (scaledError ctx last s target draws d level k / last.modulus.value)| := by
        rw [abs_mul, Nat.abs_cast]
    _ = |scaledError ctx last s target draws d level k| := by rw [Int.mul_ediv_cancel' hdvd]
    _ ≤ errorBound ctx last.modulus level := hbound

end SwitchKey

end EncryptedReals

import EncryptedReals.KeySwitch
import EncryptedReals.Proofs.Context

/-!
# Division by the last modulus

Dividing by a dropped modulus `P` takes the centred coefficients of the dropped limb off
every other limb and multiplies by the inverse of `P`.  In each limb that remains the
quotient `b` of `a` satisfies `P b = a - c`, where `c` is one integer polynomial for
all limbs, the *remainder*, with coefficients of at most `(P - 1) / 2`.

## Main Definitions

* `remainder` — the centred coefficients of the dropped limb

## Main results

* `view_divideLimb` — what division does to one limb
* `getElem?_divideByLast` — and to each limb of a list
-/

namespace EncryptedReals

open Negacyclic

/-! ### The remainder -/

/-- **The remainder of a division**: the centred coefficients of the limb that is dropped. -/
def remainder (last : Transform) (dropped : Array ℕ) (k : ℕ) : ℤ :=
  ((last.inverse dropped).map last.modulus.center).getD k 0

section Remainder

variable {last : Transform} {psi : ZMod last.modulus.value} {dropped : Array ℕ} {k : ℕ}

theorem remainder_eq (hlawful : last.Lawful psi)
    (hdropped : last.modulus.IsVector last.size dropped) (hk : k < last.size) :
    remainder last dropped k = last.modulus.center ((last.inverse dropped).getD k 0) := by
  have hsize := (hlawful.isVector_inverse hdropped).size_eq
  rw [remainder, getD_map _ (hsize ▸ hk) 0]

/-- Modulo the dropped modulus the remainder is the dropped limb. -/
theorem evalInt_remainder (hlawful : last.Lawful psi)
    (hdropped : last.modulus.IsVector last.size dropped) (hk : k < last.size) :
    evalInt last.size (remainder last dropped)
      (last.point psi k) = last.modulus.view dropped k := by
  rw [← hlawful.eval_inverse hdropped hk]
  refine eval_congr (fun j hj => ?_) _
  have hvector := hlawful.isVector_inverse hdropped
  rw [remainder_eq hlawful hdropped hj, Modulus.cast_center hlawful.small (hvector.lt j hj),
    Modulus.view]

/-- **The remainder is centred**: for an odd modulus it is at most half of the modulus less 1. -/
theorem two_mul_abs_remainder_le (hlawful : last.Lawful psi)
    (hdropped : last.modulus.IsVector last.size dropped) (hodd : last.modulus.value % 2 = 1)
    (hk : k < last.size) : 2 * |remainder last dropped k| ≤ last.modulus.value - 1 := by
  have hcanonical := (hlawful.isVector_inverse hdropped).lt k hk
  have hlow := Modulus.lt_two_mul_center hlawful.small hcanonical
  have hhigh := Modulus.two_mul_center_le hlawful.small hcanonical
  rw [remainder_eq hlawful hdropped hk]
  rcases abs_cases (last.modulus.center ((last.inverse dropped).getD k 0)) with
    ⟨habs, -⟩ | ⟨habs, -⟩
  · omega
  · omega

end Remainder

/-! ### Limbs -/

section Limbs

variable {t : Transform} {psi : ZMod t.modulus.value} {a : Array ℕ} {last : Modulus}

/-- **Division of one limb**: the quotient times the dropped modulus is the limb less the
values of the remainder. -/
theorem view_divideLimb (hlawful : t.Lawful psi) (ha : t.modulus.IsVector t.size a)
    (hlast : (last.value : ZMod t.modulus.value) ≠ 0) {c : Array ℤ} (hc : c.size = t.size) :
    t.modulus.IsVector t.size (divideLimb last c a t) ∧
      ∀ k < t.size, t.modulus.view (divideLimb last c a t) k * last.value =
        t.modulus.view a k -
          evalInt t.size (fun j => c.getD j 0) (t.point psi k) := by
  have : Fact t.modulus.value.Prime := ⟨hlawful.prime⟩
  have hreduced : t.modulus.IsVector t.size (c.map t.modulus.reduce) :=
    hc ▸ Modulus.IsVector.reduce hlawful.pos c
  have hforward := hlawful.isVector_forward hreduced
  have hlimb : divideLimb last c a t =
      Array.zipWith (fun x y => t.modulus.mul (t.modulus.sub x y)
        (t.modulus.inv (last.value % t.modulus.value))) a
        (t.forward (c.map t.modulus.reduce)) :=
    overlayEntries_eq_zipWith _ (ha.size_eq.trans hforward.size_eq.symm).le
  have hentry : ∀ k < t.size, (divideLimb last c a t).getD k 0 =
      t.modulus.mul (t.modulus.sub (a.getD k 0) ((t.forward (c.map t.modulus.reduce)).getD k 0))
        (t.modulus.inv (last.value % t.modulus.value)) := by
    intro k hk
    rw [hlimb, getD_zipWith _ (ha.size_eq.symm ▸ hk) (hforward.size_eq.symm ▸ hk) 0 0]
  refine ⟨⟨?_, fun k hk => ?_⟩, fun k hk => ?_⟩
  · rw [hlimb, Array.size_zipWith, ha.size_eq, hforward.size_eq, Nat.min_self]
  · rw [hentry k hk]
    exact Modulus.mul_lt hlawful.pos _ _
  · have hsmall := hlawful.small
    have hvalues : t.modulus.view (t.forward (c.map t.modulus.reduce)) k =
        evalInt t.size (fun j => c.getD j 0) (t.point psi k) := by
      rw [hlawful.view_forward hreduced hk]
      exact eval_congr (fun j hj => Modulus.view_reduce hlawful.pos (hc ▸ hj)) _
    rw [Modulus.view, hentry k hk, Modulus.cast_mul,
      Modulus.cast_sub (hsmall.trans (by norm_num)) (ha.lt k hk) (hforward.lt k hk),
      Modulus.cast_inv (by omega) (by rwa [ZMod.natCast_mod]), ZMod.natCast_mod, ← hvalues,
      Modulus.view, Modulus.view, inv_mul_cancel_right₀ hlast]

end Limbs

/-- **Division of a list of limbs** divides each by the same remainder. -/
theorem getElem?_divideByLast {last t : Transform} {psi : ZMod t.modulus.value}
    {lastPsi : ZMod last.modulus.value} {dropped a : Array ℕ} {limbs : List (Array ℕ)}
    {transforms : List Transform} {i : ℕ} (hlast : last.Lawful lastPsi)
    (hdropped : last.modulus.IsVector last.size dropped) (hlawful : t.Lawful psi)
    (hsize : t.size = last.size) (ha : t.modulus.IsVector t.size a)
    (hunit : (last.modulus.value : ZMod t.modulus.value) ≠ 0) (hlimb : limbs[i]? = some a)
    (ht : transforms[i]? = some t) :
    ∃ b, (divideByLast last dropped limbs transforms)[i]? = some b ∧
      t.modulus.IsVector t.size b ∧
        ∀ k < t.size, t.modulus.view b k * last.modulus.value = t.modulus.view a k -
          evalInt t.size (remainder last dropped)
            (t.point psi k) := by
  have hcentered : ((last.inverse dropped).map last.modulus.center).size = t.size := by
    rw [Array.size_map, (hlast.isVector_inverse hdropped).size_eq, hsize]
  obtain ⟨hvector, hview⟩ := view_divideLimb hlawful ha hunit hcentered
  exact ⟨_, getElem?_overlay _ hlimb ht, hvector, hview⟩

end EncryptedReals

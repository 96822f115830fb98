import EncryptedReals.Proofs.Doubles
import EncryptedReals.Proofs.Plaintexts

/-!
# Encoding is faithful up to multiples of the modulus

A real coefficient is rounded to an integer and reduced modulo each prime.  Reconstruction
returns the representative of that integer in `(-Q/2, Q/2]`, where `Q` is the product of the
primes, so the integer itself comes back exactly when it lies there.

The encoder does not ask for that.  It compares the width of the integer with the sum of the
widths of the primes, which may exceed the width of `Q` by almost one bit for each prime.  An integer
between the two bounds is encoded and comes back as another one.

## Main Definitions

* `countedBits`, `HasRoom` — the width that is counted, and when a coefficient is let in
* `scaledInteger`, `constantPoly` — the integer of one value, and the polynomial it becomes

## Main results

* `Context.value_inverse_encodeScalar` — one value becomes a constant polynomial
* `liftCoefficients_centered` — what comes back of the coefficients, and what is refused
* `encodeScalar_wraps` — a value of as many bits as the modulus that comes back as zero

## Design Notes

The width of an integer is counted by a logarithm that was rounded, so it may be one more than its
length in bits.  Only `bitLength_le_countedBits` depends on this.
-/

namespace EncryptedReals

/-! ### Widths -/

/-- **The width that the encoder counts** for an integer. -/
def countedBits (z : ℤ) : ℕ :=
  ((Binary64.mk false z.natAbs 0).floorOfLog2 + 1).toNat

/-- Rounding a logarithm does not lower its integral part. -/
theorem Binary64.floorLog2_le_floorOfLog2 (x : Binary64) : x.floorLog2 ≤ x.floorOfLog2 := by
  unfold floorOfLog2
  dsimp only
  split <;> omega

/-- No bit is missed. -/
theorem bitLength_le_countedBits {z : ℤ} (hz : z ≠ 0) : bitLength z.natAbs ≤ countedBits z := by
  have hlog := (Binary64.mk false z.natAbs 0).floorLog2_le_floorOfLog2
  simp only [Binary64.floorLog2] at hlog
  rw [bitLength, if_neg (Int.natAbs_ne_zero.mpr hz), countedBits]
  omega

/-- **A coefficient has room** in a number of bits: it is finite, and the nearest integer is zero or
counts fewer bits. -/
def HasRoom (bits : ℕ) (c : Float) (z : ℤ) : Prop :=
  ∃ v, Binary64.ofFloat? c = some v ∧ v.round = z ∧ (z = 0 ∨ countedBits z < bits)

/-- What has room is below half of the power of two. -/
theorem HasRoom.two_mul_abs_lt {bits : ℕ} {c : Float} {z : ℤ} (h : HasRoom bits c z) :
    2 * |z| < 2 ^ bits := by
  obtain ⟨v, -, -, rfl | hbits⟩ := h
  · simp
  · by_cases hz : z = 0
    · simp [hz]
    · have hwidth := (bitLength_le_countedBits hz).trans_lt hbits
      have hlt : 2 * z.natAbs < 2 ^ bits :=
        calc 2 * z.natAbs < 2 * 2 ^ bitLength z.natAbs :=
              Nat.mul_lt_mul_of_pos_left (lt_two_pow_bitLength _) (by norm_num)
          _ = 2 ^ (bitLength z.natAbs + 1) := (pow_succ' 2 _).symm
          _ ≤ 2 ^ bits := Nat.pow_le_pow_right (by norm_num) hwidth
      rw [Int.abs_eq_natAbs]
      exact_mod_cast hlt

/-- **The sum of the widths exceeds the width of the product** by at most a bit for each
modulus. -/
theorem two_pow_totalBits_le {moduli : List Modulus} (h : ∀ q ∈ moduli, 0 < q.value) :
    2 ^ totalBits moduli ≤ 2 ^ moduli.length * Reconstruction.modulusProduct moduli := by
  induction moduli with
  | nil => exact le_refl 1
  | cons q moduli ih =>
      obtain ⟨hq, hrest⟩ := List.forall_mem_cons.mp h
      have hbits : 2 ^ q.bits ≤ 2 * q.value := by
        rw [Modulus.bits, bitLength, if_neg hq.ne', pow_succ']
        exact Nat.mul_le_mul_left 2 (Nat.log2_self_le hq.ne')
      have htotal : totalBits (q :: moduli) = q.bits + totalBits moduli := rfl
      have hproduct : Reconstruction.modulusProduct (q :: moduli) =
          q.value * Reconstruction.modulusProduct moduli := List.prod_cons
      calc 2 ^ totalBits (q :: moduli) = 2 ^ q.bits * 2 ^ totalBits moduli := by
            rw [htotal, pow_add]
        _ ≤ 2 * q.value * (2 ^ moduli.length * Reconstruction.modulusProduct moduli) :=
            Nat.mul_le_mul hbits (ih hrest)
        _ = 2 ^ (q :: moduli).length * Reconstruction.modulusProduct (q :: moduli) := by
            rw [hproduct, List.length_cons, pow_succ]
            ring

/-! ### Coefficients -/

/-- **A coefficient is rounded when it has room.** -/
theorem roundCoefficient_eq_ok {bits index : ℕ} {c : Float} {z : ℤ} :
    roundCoefficient bits index c = .ok z ↔ HasRoom bits c z := by
  unfold roundCoefficient HasRoom
  cases hvalue : Binary64.ofFloat? c with
  | none => simp
  | some v =>
      simp only [Option.some.injEq, exists_eq_left']
      by_cases hzero : v.round = 0
      · rw [if_pos hzero, Except.ok.injEq, hzero]
        constructor
        · rintro rfl
          exact ⟨rfl, .inl rfl⟩
        · rintro ⟨rfl, -⟩
          rfl
      · rw [if_neg hzero]
        constructor
        · intro h
          split at h
          · cases h
          · next hwide =>
              cases h
              exact ⟨rfl, .inr (not_le.mp hwide)⟩
        · rintro ⟨rfl, hnil | hbits⟩
          · exact absurd hnil hzero
          · exact if_neg (not_le.mpr hbits)

/-- A coefficient that is refused has no room, and it is refused for an overflow. -/
theorem roundCoefficient_eq_error {bits index : ℕ} {c : Float} {failure : Failure}
    (h : roundCoefficient bits index c = .error failure) :
    (∃ o, failure = .overflow o) ∧ ∀ z, ¬HasRoom bits c z := by
  refine ⟨?_, fun z hz => ?_⟩
  · unfold roundCoefficient at h
    split at h
    · cases h
      exact ⟨_, rfl⟩
    · dsimp only at h
      split at h
      · cases h
      · split at h
        · cases h
          exact ⟨_, rfl⟩
        · cases h
  · rw [roundCoefficient_eq_ok.mpr hz] at h
    cases h

/-- **The integers of a list of coefficients** stand at the indices of the coefficients. -/
theorem roundCoefficients_eq_ok {bits : ℕ} {coefficients : Array Float} {integers : Array ℤ}
    (h : roundCoefficients bits coefficients = .ok integers) {k : ℕ} {c : Float}
    (hc : coefficients[k]? = some c) : HasRoom bits c (integers.getD k 0) := by
  simp only [roundCoefficients, bind_eq_ok, pure_eq_ok] at h
  obtain ⟨rounded, hrounded, rfl⟩ := h
  have hindexed : coefficients.toList.zipIdx[k]? = some (c, k) := by
    rw [List.getElem?_zipIdx, Array.getElem?_toList, hc]
    simp
  obtain ⟨z, hz, hround⟩ := (getElem?_of_mapM_ok hrounded).2 k (c, k) hindexed
  have hentry : (rounded.toArray).getD k 0 = z := by
    simp [Array.getD_eq_getD_getElem?, hz]
  rw [hentry]
  exact roundCoefficient_eq_ok.mp hround

/-- A list of coefficients is refused for an overflow, of one that has no room. -/
theorem liftCoefficients_eq_error {coefficients : Array Float} {moduli : List Modulus}
    {failure : Failure} (h : liftCoefficients coefficients moduli = .error failure) :
    (∃ o, failure = .overflow o) ∧ ∃ c ∈ coefficients, ∀ z, ¬HasRoom (totalBits moduli) c z := by
  rw [liftCoefficients, bind_pure_eq_error, roundCoefficients, bind_pure_eq_error] at h
  obtain ⟨⟨c, i⟩, hmem, hrefused⟩ := exists_mem_of_mapM_error h
  obtain ⟨hoverflow, hroom⟩ := roundCoefficient_eq_error hrefused
  exact ⟨hoverflow, c, Array.mem_toList_iff.mp (List.fst_mem_of_mem_zipIdx hmem), hroom⟩

/-! ### One value -/

/-- **The integer of a value at a scale**, the nearest to their product. -/
def scaledInteger (value scale : Float) : ℤ :=
  ((Binary64.ofFloat? (value * scale)).map Binary64.round).getD 0

theorem HasRoom.eq_scaledInteger {bits : ℕ} {value scale : Float} {z : ℤ}
    (h : HasRoom bits (value * scale) z) : z = scaledInteger value scale := by
  obtain ⟨v, hv, rfl, -⟩ := h
  rw [scaledInteger, hv]
  rfl

theorem Binary64.ofFloat?_zero : ofFloat? 0 = some ⟨false, 0, -1074⟩ := by
  decide +kernel

/-- Zero has room under every modulus. -/
theorem hasRoom_zero {bits : ℕ} : HasRoom bits 0 0 :=
  ⟨_, Binary64.ofFloat?_zero, Binary64.round_zero _ _, .inl rfl⟩

theorem hasRoom_zero_mul {bits : ℕ} {scale : Float} (h : scale.isFinite = true) :
    HasRoom bits (0.0 * scale) 0 := by
  obtain ⟨v, hv, hround⟩ := Binary64.ofFloat?_zero_mul h
  exact ⟨v, hv, hround, .inl rfl⟩

theorem HasRoom.eq_zero {bits : ℕ} {z : ℤ} (h : HasRoom bits 0 z) : z = 0 := by
  obtain ⟨v, hv, rfl, -⟩ := h
  rw [Binary64.ofFloat?_zero, Option.some.injEq] at hv
  rw [← hv, Binary64.round_zero]

/-- Zero at a finite scale is zero. -/
theorem scaledInteger_zero {scale : Float} (h : scale.isFinite = true) :
    scaledInteger 0.0 scale = 0 := by
  obtain ⟨v, hv, hround⟩ := Binary64.ofFloat?_zero_mul h
  rw [scaledInteger, hv]
  exact hround

/-- **The coefficients of a constant polynomial.** -/
def constantPoly (z : ℤ) (k : ℕ) : ℤ :=
  if k = 0 then z else 0

@[simp] theorem constantPoly_zero (k : ℕ) : constantPoly 0 k = 0 :=
  ite_self 0

theorem constantPoly_add (y z : ℤ) (k : ℕ) :
    constantPoly (y + z) k = constantPoly y k + constantPoly z k := by
  unfold constantPoly
  split <;> ring

namespace Context

variable {ctx : Context} {value scale : Float} {level : ℕ} {pt : Plaintext}

/-- **One value becomes a constant polynomial**, of its integer at the scale. -/
theorem encodeScalar_spec (h : ctx.Made) (hencode : ctx.encodeScalar value scale level = .ok pt) :
    ∃ integers : Array ℤ, integers.size = ctx.degree ∧
      (∀ k, integers.getD k 0 = constantPoly (scaledInteger value scale) k) ∧
        pt = ctx.plaintext (.ofInts integers (ctx.moduliAt level)) scale level := by
  simp only [encodeScalar, Embedding.encodeScalar, bind_eq_ok, pure_eq_ok, liftCoefficients_eq_ok]
    at hencode
  obtain ⟨-, -, -, ⟨-, -, integers, hround, rfl⟩, rfl⟩ := hencode
  have hdegree : ctx.embedding.degree = ctx.degree := by rw [h.embedding_eq]; rfl
  have hsize : integers.size = ctx.degree := by
    rw [size_roundCoefficients hround, Array.size_setIfInBounds, Array.size_replicate, hdegree]
  refine ⟨integers, hsize, fun k => ?_, rfl⟩
  rcases Nat.lt_or_ge k ctx.degree with hk | hk
  · have hcoefficient : ((Array.replicate ctx.embedding.degree 0).setIfInBounds 0
        (value * scale))[k]? = some (if k = 0 then value * scale else 0) := by
      rw [hdegree, Array.getElem?_setIfInBounds, Array.size_replicate, Array.getElem?_replicate,
        if_pos hk]
      rcases Nat.eq_zero_or_pos k with rfl | hpos
      · rw [if_pos rfl, if_pos rfl, if_pos hk]
      · rw [if_neg hpos.ne, if_neg hpos.ne']
    have hroom := roundCoefficients_eq_ok hround hcoefficient
    rcases Nat.eq_zero_or_pos k with rfl | hpos
    · exact hroom.eq_scaledInteger
    · rw [if_neg hpos.ne'] at hroom
      rw [constantPoly, if_neg hpos.ne']
      exact hroom.eq_zero
  · have hpos := h.degree_pos
    rw [constantPoly, if_neg (by omega), Array.getD_eq_getD_getElem?,
      Array.getElem?_eq_none (by omega), Option.getD_none]

/-- **The coefficients of an encoded value**, in every limb. -/
theorem value_inverse_encodeScalar (h : ctx.Made)
    (hencode : ctx.encodeScalar value scale level = .ok pt) {i k : ℕ} {q : Modulus}
    (hq : (ctx.moduliAt level)[i]? = some q) (hk : k < ctx.degree) :
    (pt.poly.inverse ctx.transforms).value q i k = constantPoly (scaledInteger value scale) k := by
  obtain ⟨integers, hsize, hintegers, rfl⟩ := encodeScalar_spec h hencode
  obtain ⟨hi, t, psi, rfl, hl⟩ := h.exists_limbAt hq
  have hw := h.fitWordsAt level
  have hints : (ResiduePoly.ofInts integers (ctx.moduliAt level)).Canonical ctx.degree
      (ctx.moduliAt level) :=
    hsize ▸ ResiduePoly.canonical_ofInts hw integers
  rw [← hintegers, ← ResiduePoly.value_ofInts hw hq (hsize ▸ hk)]
  exact hl.value_inverse_of_eval hi (h.canonical_plaintext hints)
    (fun j hj => hints.value_forward hq hl.transform hl.size_eq hl.lawful hj) hk

end Context

/-! ### What comes back -/

open Reconstruction

/-- **What comes back of the coefficients of an encoding.**  Over the first primes of a generated
chain, with product `Q`, an accepted coefficient is finite, the integer nearest to it is less than
`2 ^ l Q / 2` for `l` primes, and what is reconstructed is the representative of that integer in
`(-Q/2, Q/2]`, whichever way its residues were taken.  So the integer itself comes back exactly when it
lies in that range.  Coefficients are refused for an overflow only, and only when one of them has no
room in the sum of the widths. -/
theorem liftCoefficients_centered {params : Parameters} {degree : ℕ} {widths : List ℕ}
    {security : Security} (hmake : Parameters.make degree widths security = .ok params)
    (hprime : ∀ q ∈ params.moduli, q.value.Prime) (level : ℕ) (coefficients : Array Float) :
    (∀ p, liftCoefficients coefficients (params.moduliAt level) = .ok p →
      ∀ (k : ℕ) (c : Float), coefficients[k]? = some c → ∃ v, Binary64.ofFloat? c = some v ∧
        2 * |(v.round : ℚ) - v.value| ≤ 1 ∧
        2 * |v.round| < 2 ^ (params.moduliAt level).length *
          modulusProduct (params.moduliAt level) ∧
        IsCentered (modulusProduct (params.moduliAt level)) v.round
          (((ofModuli (params.moduliAt level)).composePoly p).getD k 0) ∧
        (((ofModuli (params.moduliAt level)).composePoly p).getD k 0 = v.round ↔
          -(modulusProduct (params.moduliAt level) : ℤ) < 2 * v.round ∧
            2 * v.round ≤ modulusProduct (params.moduliAt level))) ∧
    ∀ failure, liftCoefficients coefficients (params.moduliAt level) = .error failure →
      (∃ o, failure = .overflow o) ∧
        ∃ c ∈ coefficients, ∀ z, ¬HasRoom (totalBits (params.moduliAt level)) c z := by
  refine ⟨fun p hlift k c hc => ?_, fun failure hfailure => liftCoefficients_eq_error hfailure⟩
  obtain ⟨m, -, -, hchain⟩ := Parameters.exists_chain hmake hprime
  have hdistinct : DistinctPrimes (params.moduliAt level) := hchain.distinctPrimes.take (level + 1)
  have hw := hdistinct.fitWords
  obtain ⟨integers, hround, rfl⟩ := liftCoefficients_eq_ok.mp hlift
  have hk : k < integers.size := by
    rw [size_roundCoefficients hround]
    exact (Array.getElem?_eq_some_iff.mp hc).1
  have hroom := roundCoefficients_eq_ok hround hc
  have hsmall := hroom.two_mul_abs_lt
  obtain ⟨v, hvalue, hinteger, -⟩ := hroom
  have hcentered := isCentered_composePoly (c := fun j => integers.getD j 0) hdistinct
    (ResiduePoly.canonical_ofInts hw integers) hk
    (fun i q hq => ResiduePoly.value_ofInts hw hq hk)
  rw [← hinteger] at hcentered hsmall
  have hwidth : (2 : ℤ) ^ totalBits (params.moduliAt level) ≤
      2 ^ (params.moduliAt level).length * modulusProduct (params.moduliAt level) := by
    exact_mod_cast two_pow_totalBits_le fun q hq => (hw q hq).1
  refine ⟨v, hvalue, v.two_mul_abs_round_sub_value_le, hsmall.trans_le hwidth, hcentered,
    fun heq => ?_, fun ⟨hlow, hhigh⟩ => ?_⟩
  · have hrange := hcentered
    rw [heq] at hrange
    exact ⟨hrange.1, hrange.2.1⟩
  · exact hcentered.unique (isCentered_self hlow hhigh)

/-- A chain whose widths add up to a bit more than the width of its product: 5, 13 and 29 are the
data moduli, and their product 1885 has 11 bits. -/
def narrowChain : Parameters :=
  ⟨2, [⟨5⟩, ⟨13⟩, ⟨29⟩, ⟨61⟩], .unchecked⟩

theorem prime_narrowChain : ∀ q ∈ narrowChain.moduli, q.value.Prime := by
  simp only [narrowChain, List.forall_mem_cons]
  norm_num

/-- The halves 20.5 and -30.5 over the moduli 5 and 13: both nearest integers come back. -/
theorem liftCoefficients_centered_narrowChain :
    Parameters.make 2 [3, 4, 5, 6] .unchecked = .ok narrowChain ∧
      ∃ p, liftCoefficients #[20.5, -30.5] (narrowChain.moduliAt 1) = .ok p ∧
        ((ofModuli (narrowChain.moduliAt 1)).composePoly p).getD 0 0 = 21 ∧
        ((ofModuli (narrowChain.moduliAt 1)).composePoly p).getD 1 0 = -31 := by
  have hlift : liftCoefficients #[20.5, -30.5] (narrowChain.moduliAt 1) =
      .ok ⟨[#[1, 4], #[8, 8]], 2⟩ :=
    eq_ok_of_toOption (by decide +kernel)
  have hmake : Parameters.make 2 [3, 4, 5, 6] .unchecked = .ok narrowChain := rfl
  have hcoefficients := (liftCoefficients_centered hmake prime_narrowChain 1 _).1 _ hlift
  have hfirst : Binary64.ofFloat? 20.5 = some ⟨false, 5770237022568448, -48⟩ := by decide +kernel
  have hsecond : Binary64.ofFloat? (-30.5) = some ⟨true, 8584986789675008, -48⟩ := by
    decide +kernel
  obtain ⟨v, hv, -, -, -, hback⟩ := hcoefficients 0 20.5 rfl
  obtain ⟨w, hw, -, -, -, hback'⟩ := hcoefficients 1 (-30.5) rfl
  rw [hfirst, Option.some.injEq] at hv
  rw [hsecond, Option.some.injEq] at hw
  subst hv hw
  exact ⟨hmake, _, hlift, hback.mpr (by decide +kernel), hback'.mpr (by decide +kernel)⟩

/-- **A value comes back as zero.**  The value 1885 at scale 1 takes as many bits as the modulus, is
let in because the widths 3, 4 and 5 add up to 12, and has no residue but zero. -/
theorem encodeScalar_wraps :
    Parameters.make 2 [3, 4, 5, 6] .unchecked = .ok narrowChain ∧
      (∀ q ∈ narrowChain.moduli, q.value.Prime) ∧
      modulusProduct (narrowChain.moduliAt 2) = 1885 ∧ bitLength 1885 = 11 ∧
      (∃ v, Binary64.ofFloat? (1885 * 1) = some v ∧ v.round = 1885) ∧
      ∃ p, (Embedding.make 2).encodeScalar 1885 1 (narrowChain.moduliAt 2) = .ok p ∧
        ((ofModuli (narrowChain.moduliAt 2)).composePoly p).getD 0 0 = 0 := by
  have hencode : (Embedding.make 2).encodeScalar 1885 1 (narrowChain.moduliAt 2) =
      .ok ⟨[#[0, 0], #[0, 0], #[0, 0]], 2⟩ :=
    eq_ok_of_toOption (by decide +kernel)
  have hvalue : Binary64.ofFloat? (1885 * 1) = some ⟨false, 8290317673431040, -42⟩ := by
    decide +kernel
  exact ⟨rfl, prime_narrowChain, rfl, rfl, ⟨_, hvalue, by decide +kernel⟩, _, hencode, by
    decide +kernel⟩

end EncryptedReals

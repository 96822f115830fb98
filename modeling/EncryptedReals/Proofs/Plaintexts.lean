import EncryptedReals.Proofs.Context

/-!
# Encoded plaintexts

What the encoders of a context return is a polynomial of the ring dimension with
canonical residues, at a level of the chain.  The reals that go in play no part in this:
the embedding keeps the number of coefficients whatever they are, and rounding either
fails or returns as many integers.

## Main Definitions

* `Context.Encodes` — the plaintexts that the encoders return

## Main results

* `coefficientResidue_eq` — both ways to reduce a coefficient agree
* `checkScale_eq_ok` — what the check of a scale says
* `Context.Encodes.spec` — encoded plaintexts have canonical residues
-/

namespace EncryptedReals

namespace Embedding

/-! ### Numbers of coefficients -/

theorem halvings_two_pow (k : ℕ) : halvings k (2 ^ k) = k := by
  induction k with
  | zero => rfl
  | succ k ih =>
      have heven : 2 ^ (k + 1) % 2 = 0 := by omega
      have hhalf : 2 ^ (k + 1) / 2 = 2 ^ k := by omega
      rw [halvings, if_pos heven, hhalf, ih]

/-- **The Fourier transform keeps the number of points.** -/
theorem size_fourier {twiddles : Array (Array Phasor)}
    (htwiddles : ∀ s < twiddles.size, (twiddles.getD s #[]).size = 2 ^ s) :
    ∀ {depth : ℕ} {a : Array Phasor}, depth ≤ twiddles.size → a.size = 2 ^ depth →
      (fourier twiddles depth a).size = 2 ^ depth := by
  intro depth
  induction depth with
  | zero =>
      intro a _ ha
      exact ha
  | succ depth ih =>
      intro a hdepth _
      have hhalf : ∀ f : Fin (2 ^ depth) → Phasor,
          (fourier twiddles depth (Array.ofFn f)).size = 2 ^ depth :=
        fun f => ih (by omega) Array.size_ofFn
      have htwiddle := htwiddles depth (by omega)
      simp only [fourier, Array.size_append, Array.size_zipWith, hhalf, htwiddle, Nat.min_self]
      rw [pow_succ]
      omega

theorem size_spread (e : Embedding) (values : List Float) : (e.spread values).size = e.degree := by
  rw [spread]
  refine List.foldlRecOn (motive := fun z : Array Phasor => z.size = e.degree) _ _
    Array.size_replicate fun z hz entry _ => ?_
  rw [Array.size_setIfInBounds, Array.size_setIfInBounds, hz]

/-- **The coefficients of slot values** are as many as the ring has. -/
theorem size_toCoefficients (k : ℕ) (values : List Float) :
    ((make (2 ^ k)).toCoefficients values).size = 2 ^ k := by
  have hdegree : (make (2 ^ k)).degree = 2 ^ k := rfl
  have hdepth : (make (2 ^ k)).twiddles.size = k := by
    simp only [make, Array.size_ofFn]
    rw [Nat.log2_two_pow, halvings_two_pow]
  have htwiddles : ∀ s < (make (2 ^ k)).twiddles.size,
      ((make (2 ^ k)).twiddles.getD s #[]).size = 2 ^ s := by
    intro s hs
    have hs' : s < halvings (2 ^ k).log2 (2 ^ k) := by
      rw [Nat.log2_two_pow, halvings_two_pow]
      omega
    rw [make, getD_ofFn _ hs', Array.size_ofFn]
  have hspread : ((make (2 ^ k)).spread values).size = 2 ^ (make (2 ^ k)).twiddles.size := by
    rw [size_spread, hdegree, hdepth]
  -- the length is a power of two, so the transform has a single block
  have htransform : ((make (2 ^ k)).transform ((make (2 ^ k)).spread values)).size = 2 ^ k := by
    have hblocks : (make (2 ^ k)).degree / 2 ^ (make (2 ^ k)).twiddles.size = 1 := by
      rw [hdegree, hdepth, Nat.div_self (Nat.two_pow_pos k)]
    rw [transform, hblocks, List.range_one, List.foldl_cons, List.foldl_nil, block, if_pos rfl,
      Array.size_append, size_fourier htwiddles (le_refl _) hspread, hdepth, Array.size_empty,
      zero_add]
  have htwists : (make (2 ^ k)).twists.size = 2 ^ k := Array.size_ofFn
  rw [toCoefficients, Array.size_zipWith, htransform, htwists, Nat.min_self]

end Embedding

/-- Rounding returns as many integers as there are coefficients. -/
theorem size_roundCoefficients {bits : ℕ} {coefficients : Array Float} {integers : Array ℤ}
    (h : roundCoefficients bits coefficients = .ok integers) :
    integers.size = coefficients.size := by
  simp only [roundCoefficients, bind_eq_ok, pure_eq_ok] at h
  obtain ⟨rounded, hrounded, rfl⟩ := h
  have hlength := (getElem?_of_mapM_ok hrounded).1
  rw [List.size_toArray, hlength, List.length_zipIdx, Array.length_toList]

/-! ### Residues of coefficients -/

theorem Modulus.reduceWide_eq (q : Modulus) (z : ℤ) : q.reduceWide z = q.reduce z := by
  simp only [reduceWide, reduce, Int.tmod_eq_emod]
  rcases Nat.eq_zero_or_pos q.value with hzero | hpos
  · rw [hzero, Nat.cast_zero, Int.emod_zero, Int.natAbs_zero, ite_self]
    split <;> simp
  · have hnonneg := Int.emod_nonneg z (b := q.value) (by omega)
    have hlt := Int.emod_lt_of_pos z (b := q.value) (by omega)
    split
    · rw [if_neg (by omega), Nat.cast_zero, sub_zero]
    · -- a negative remainder is the canonical one less the modulus
      rw [if_pos (by omega), Int.natAbs_natCast, sub_add_cancel]

/-- **Both ways to reduce a rounded coefficient** give the residue of the integer. -/
theorem coefficientResidue_eq (q : Modulus) (z : ℤ) : coefficientResidue q z = q.reduce z := by
  unfold coefficientResidue
  split
  · next hword =>
      have hlimit : wordLimit < 2 ^ 63 := by decide
      rw [Modulus.reduceWord, Int.toInt64, Int64.toInt_ofInt_of_le (by omega) (by omega)]
  · exact q.reduceWide_eq z

/-- **The polynomial of real coefficients** consists of the residues of their integers. -/
theorem liftCoefficients_eq_ok {coefficients : Array Float} {moduli : List Modulus}
    {p : ResiduePoly} : liftCoefficients coefficients moduli = .ok p ↔
      ∃ integers, roundCoefficients (totalBits moduli) coefficients = .ok integers ∧
        p = .ofInts integers moduli := by
  have hresidue : ∀ q, coefficientResidue q = q.reduce := fun q => funext (coefficientResidue_eq q)
  simp only [liftCoefficients, bind_eq_ok, pure_eq_ok, hresidue]
  exact exists_congr fun integers => and_congr_right fun _ => eq_comm

theorem canonical_liftCoefficients {n : ℕ} {moduli : List Modulus} (hw : FitWords moduli)
    {coefficients : Array Float} (hsize : coefficients.size = n) {p : ResiduePoly}
    (h : liftCoefficients coefficients moduli = .ok p) : p.Canonical n moduli := by
  obtain ⟨integers, hround, rfl⟩ := liftCoefficients_eq_ok.mp h
  have hcanonical := ResiduePoly.canonical_ofInts hw integers
  rwa [size_roundCoefficients hround, hsize] at hcanonical

/-- **What a check of a scale says**: it is finite, positive and fits. -/
theorem checkScale_eq_ok {scale : Float} {moduli : List Modulus} :
    checkScale scale moduli = .ok () ↔
      scale.isFinite = true ∧ 0 < scale ∧ scaleFits scale (totalBits moduli) = true := by
  by_cases hfinite : scale.isFinite = true <;> by_cases hpos : 0 < scale <;>
    simp [checkScale, hfinite, hpos]

namespace Context

/-- **A plaintext that the context encoded**: one of its encoders returned it. -/
def Encodes (ctx : Context) (pt : Plaintext) : Prop :=
  (∃ value scale level, ctx.encodeScalar value scale level = .ok pt) ∨
    ∃ values scale level, ctx.encodeSlots values scale level = .ok pt

variable {ctx : Context} {pt : Plaintext}

/-- The plaintext of a canonical polynomial is canonical. -/
theorem Made.canonical_plaintext (h : ctx.Made) {p : ResiduePoly} {scale : Float} {level : ℕ}
    (hp : p.Canonical ctx.degree (ctx.moduliAt level)) :
    (ctx.plaintext p scale level).poly.Canonical ctx.degree (ctx.moduliAt level) :=
  hp.forward (h.coverAt level)

/-- **What an encoder that succeeds has done**: level and scale were accepted, and as many coefficients as
the ring has were rounded and reduced. -/
theorem Encodes.exists_lift (h : ctx.Made) (hpt : ctx.Encodes pt) :
    pt.level ≤ ctx.maxLevel ∧ checkScale pt.scale (ctx.moduliAt pt.level) = .ok () ∧
      ∃ (coefficients : Array Float) (p : ResiduePoly), coefficients.size = ctx.degree ∧
        liftCoefficients coefficients (ctx.moduliAt pt.level) = .ok p ∧
          pt = ctx.plaintext p pt.scale pt.level := by
  obtain ⟨k, -, hdegree, -⟩ := h.exists_chain
  have hembedding := h.embedding_eq
  rcases hpt with ⟨value, scale, level, hencode⟩ | ⟨values, scale, level, hencode⟩
  · simp only [encodeScalar, Embedding.encodeScalar, bind_eq_ok, pure_eq_ok] at hencode
    obtain ⟨⟨⟩, hlevel, p, ⟨⟨⟩, hscale, hlift⟩, rfl⟩ := hencode
    refine ⟨checkLevel_ok.mp hlevel, hscale, _, p, ?_, hlift, rfl⟩
    rw [Array.size_setIfInBounds, Array.size_replicate, hembedding]
    rfl
  · simp only [encodeSlots, Embedding.encodeSlots, throw_bind, check_eq_ok, bind_eq_ok,
      pure_eq_ok] at hencode
    obtain ⟨⟨⟩, hlevel, p, ⟨-, ⟨⟩, hscale, hlift⟩, rfl⟩ := hencode
    refine ⟨checkLevel_ok.mp hlevel, hscale, _, p, ?_, hlift, rfl⟩
    rw [Array.size_map, hembedding, hdegree, Embedding.size_toCoefficients]

/-- **The scale of an encoded plaintext** was accepted at its level. -/
theorem Encodes.checkScale (h : ctx.Made) (hpt : ctx.Encodes pt) :
    checkScale pt.scale (ctx.moduliAt pt.level) = .ok () :=
  (hpt.exists_lift h).2.1

/-- **Encoded plaintexts have canonical residues**, at a level of the chain. -/
theorem Encodes.spec (h : ctx.Made) (hpt : ctx.Encodes pt) :
    pt.level ≤ ctx.maxLevel ∧ pt.poly.Canonical ctx.degree (ctx.moduliAt pt.level) := by
  obtain ⟨hlevel, -, coefficients, p, hsize, hlift, hplaintext⟩ := hpt.exists_lift h
  refine ⟨hlevel, ?_⟩
  rw [hplaintext]
  exact h.canonical_plaintext (canonical_liftCoefficients (h.fitWordsAt pt.level) hsize hlift)

end Context

end EncryptedReals

import EncryptedReals.Proofs.Aggregation

/-!
# The error of a sum of samples

Each encryption adds one small integer polynomial to its plaintext, and ciphertexts are added part by
part.  So the sum of samples decrypts to the sum of the encoded samples plus the sum of the errors, one
from each sample and one from the encryption of zero that the sum starts from.  The polynomials are
integral, so every limb has the residues of the same one.

## Main Definitions

* `Scheme.Carries` — a fresh ciphertext whose phase is an integer polynomial
* `Samples.constant` — the integer that a sample is encoded as

## Main results

* `Scheme.Carries.sum`, `Scheme.Carries.decrypt` — what is carried by a sum, and what comes back
* `Samples.carries_encryptOn` — what is carried by one encryption
* `Samples.carries_foldl` — what is carried by a running sum
* `SampleSum.decrypt_sum` — what the sum of samples decrypts to

## Design Notes

The two ways to compute the sum have been reduced to one description, `SampleSum.IsSum`, so the
induction runs over the samples and knows nothing of workers and ranges.
-/

namespace EncryptedReals

open Negacyclic Reconstruction

/-! ### What a ciphertext carries -/

namespace Scheme

variable {s : Scheme} {a b ct : Ciphertext} {c d : ℕ → ℤ}

/-- **A ciphertext carries an integer polynomial**: it is fresh, and in every limb its phase has the
values of that polynomial. -/
structure Carries (s : Scheme) (ct : Ciphertext) (c : ℕ → ℤ) : Prop where
  fresh : s.Fresh ct
  phase_eq : ∀ {i k : ℕ} {t : Transform} {psi : ZMod t.modulus.value},
    s.context.Limb i t psi → i ≤ s.maxLevel → k < s.context.degree →
      Context.phase t.modulus i k s.secretKey.poly ct.parts =
        evalInt s.context.degree c (t.point psi k)

/-- **Sums carry sums.** -/
theorem Carries.sum (h : s.Built) (ha : s.Carries a c) (hb : s.Carries b d) :
    s.Carries (s.context.sum a b) fun k => c k + d k := by
  have hlevel : a.level = b.level := ha.fresh.level_eq.trans hb.fresh.level_eq.symm
  have hlength := h.made.length_moduliAt ha.fresh.owns.level_le
  refine ⟨ha.fresh.sum h hb.fresh, fun hl hi hk => ?_⟩
  have hphase := Context.phase_addParts (h.made.fitWordsAt a.level) ha.fresh.owns.canonical
    (hlevel ▸ hb.fresh.owns.canonical) (hl.modulusAt (ha.fresh.level_eq ▸ hi)) hk s.secretKey.poly
  rw [hlength] at hphase
  rw [evalInt_add, ← ha.phase_eq hl hi hk, ← hb.phase_eq hl hi hk]
  exact hphase

/-- **What is carried comes back**: decryption succeeds, the coefficients in every limb are the
residues of those that are carried, and reconstruction returns those that lie in the centred range. -/
theorem Carries.decrypt (h : s.Built) (hct : s.Carries ct c) :
    ∃ m, s.context.decrypt ct s.secretKey = .ok m ∧ m.level = s.maxLevel ∧ m.scale = s.scale ∧
      (m.poly.inverse s.context.transforms).Canonical s.context.degree
        (s.context.moduliAt s.maxLevel) ∧
      (∀ (i : ℕ) (q : Modulus), (s.context.moduliAt s.maxLevel)[i]? = some q →
        ∀ k < s.context.degree, (m.poly.inverse s.context.transforms).value q i k = c k) ∧
      ∀ k < s.context.degree, -(modulusProduct (s.context.moduliAt s.maxLevel) : ℤ) < 2 * c k →
        2 * c k ≤ modulusProduct (s.context.moduliAt s.maxLevel) →
          (s.context.integers m).getD k 0 = c k := by
  obtain ⟨coefficients, -, -, hternary, -, -, hsecret, -⟩ := h.exists_keyDraws
  have hsk : s.secretKey.BelongsTo s.context :=
    hsecret ▸ SecretKey.belongsTo_ofDraws h.made hternary.size_eq
  have hown := hct.fresh.owns
  have hlevel := hct.fresh.level_eq
  have hcanonical := (Context.message_spec h.made hsk hown).1.inverse (h.made.coverAt ct.level)
  have hvalue : ∀ (i : ℕ) (q : Modulus), (s.context.moduliAt ct.level)[i]? = some q →
      ∀ k < s.context.degree,
        ((s.context.message s.secretKey ct).inverse s.context.transforms).value q i k = c k := by
    intro i q hq k hk
    obtain ⟨hi, t, psi, rfl, hl⟩ := h.made.exists_limbAt hq
    exact Context.value_inverse_message (c := fun j => (c j : ZMod t.modulus.value)) h.made hsk
      hown hl hi (fun j hj => hct.phase_eq hl (hlevel ▸ hi) hj) hk
  rw [hlevel] at hcanonical hvalue
  refine ⟨_, Context.decrypt_eq h.made hsk hown, hlevel, hct.fresh.scale_eq, hcanonical, hvalue,
    fun k hk hlow hhigh => ?_⟩
  obtain ⟨m, -, -, hchain⟩ := h.made.exists_chain
  have hcentered := isCentered_composePoly (hchain.distinctPrimes.take (s.maxLevel + 1)) hcanonical
    hk fun i q hq => hvalue i q hq k hk
  show ((ofModuli (s.context.moduliAt ct.level)).composePoly _).getD k 0 = c k
  rw [hlevel]
  exact hcentered.unique (isCentered_self hlow hhigh)

end Scheme

/-! ### Samples -/

namespace Samples

variable {s : Scheme} {seed : UInt64} {bound x : Float} {ct zero : Ciphertext}

/-- **The integer that a sample is encoded as**: the constant coefficient of its plaintext. -/
def constant (s : Scheme) (seed : UInt64) (bound : Float) (index : ℕ) : ℤ :=
  scaledInteger (value seed bound index) s.scale

/-- **What one encryption carries**: the encoded value as a constant polynomial, and a small
error. -/
theorem carries_encryptOn (h : s.Built) {stream : UInt64}
    (hct : encryptOn s seed stream x = .ok ct) :
    ∃ e : ℕ → ℤ, (∀ k < s.context.degree, |e k| ≤ 19 * (2 * s.context.degree + 1)) ∧
      s.Carries ct fun k => constantPoly (scaledInteger x s.scale) k + e k := by
  obtain ⟨pt, noise, hencode, hnoise, hencrypt⟩ := h.encryptValue_spec hct
  obtain ⟨coefficients, a, e, hternary, ha, he, hsecret, hpublic⟩ := h.exists_keyDraws
  obtain ⟨hlevel, hcanonical⟩ := Context.Encodes.spec h.made (.inl ⟨_, _, _, hencode⟩)
  obtain ⟨integers, hsize, hintegers, hpt⟩ := Context.encodeScalar_spec h.made hencode
  have hptLevel : pt.level = s.maxLevel := congrArg Plaintext.level hpt
  refine ⟨Context.encryptionError s.context.degree coefficients e noise,
    fun k hk => Context.abs_encryptionError_le hternary he hnoise hk, h.fresh hct,
    fun hl hi hk => ?_⟩
  have hphase := Context.phase_encryptWith_ofDraws h.made hternary ha he hlevel hcanonical hnoise
    hl (hptLevel ▸ hi) hk
  rw [← hsecret, ← hpublic, ← hencrypt] at hphase
  have hvalue :=
    Context.value_lift_of_fitWords (h.made.fitWordsAt s.maxLevel) hsize (hl.modulusAt hi) hl hk
  have hplain : pt.poly = s.context.lift integers (s.context.moduliAt s.maxLevel) :=
    congrArg Plaintext.poly hpt
  rw [hphase, hplain, hvalue, evalInt_add]
  simp only [hintegers]

/-- **What a running sum carries**, by induction on the number of samples: each adds its own integer
and its own error to what the sum started from. -/
theorem carries_foldl (h : s.Built) {c : ℕ → ℤ} (hzero : s.Carries zero c) :
    ∀ {count : ℕ} {cts : List Ciphertext},
      (List.range count).mapM (encryption s seed bound) = .ok cts →
        ∃ e : ℕ → ℤ, (∀ k < s.context.degree, |e k| ≤ count * (19 * (2 * s.context.degree + 1))) ∧
          s.Carries (cts.foldl s.context.sum zero) fun k =>
            c k + constantPoly (∑ i ∈ Finset.range count, constant s seed bound i) k + e k := by
  intro count
  induction count with
  | zero =>
      intro cts hcts
      cases hcts
      refine ⟨fun _ => 0, fun k _ => by simp, ?_⟩
      simpa using hzero
  | succ count ih =>
      intro cts hcts
      simp only [List.range_succ, List.mapM_append, List.mapM_cons, List.mapM_nil, bind_eq_ok,
        pure_eq_ok] at hcts
      obtain ⟨previous, hprevious, -, ⟨ct, hct, -, rfl, rfl⟩, rfl⟩ := hcts
      obtain ⟨e, he, hsum⟩ := ih hprevious
      obtain ⟨e', he', hnext⟩ := carries_encryptOn h hct
      refine ⟨fun k => e k + e' k, fun k hk => ?_, ?_⟩
      · have htriangle := abs_add_le (e k) (e' k)
        have hleft := he k hk
        have hright := he' k hk
        push_cast
        linarith
      · rw [List.foldl_append, List.foldl_cons, List.foldl_nil]
        have hregroup : ∀ k, c k +
              constantPoly (∑ i ∈ Finset.range (count + 1), constant s seed bound i) k +
                (e k + e' k) =
            c k + constantPoly (∑ i ∈ Finset.range count, constant s seed bound i) k + e k +
              (constantPoly (scaledInteger (value seed bound count) s.scale) k + e' k) := by
          intro k
          rw [Finset.sum_range_succ, constantPoly_add, constant]
          ring
        simp only [hregroup]
        exact hsum.sum h hnext

end Samples

/-! ### The sum -/

namespace SampleSum

open Samples

variable {s : Scheme} {seed : UInt64} {bound : Float} {count : ℕ} {total : SampleSum}

/-- **The integer polynomial of a sum with an error**: the encoded samples add up in the constant
coefficient. -/
def summed (s : Scheme) (count : ℕ) (bound : Float) (seed : UInt64) (e : ℕ → ℤ) (k : ℕ) : ℤ :=
  constantPoly (∑ i ∈ Finset.range count, constant s seed bound i) k + e k

/-- **What the sum of samples carries**: the sum of the constants and a small error, of which one share
is that of the encryption of zero. -/
theorem IsSum.exists_carries (h : s.Built) (htotal : IsSum s count bound seed total) :
    ∃ ct, ∃ e : ℕ → ℤ, total.encrypted = some ct ∧
      (∀ k < s.context.degree, |e k| ≤ (count + 1) * (19 * (2 * s.context.degree + 1))) ∧
        s.Carries ct (summed s count bound seed e) := by
  obtain ⟨zero, cts, hzero, hcts, rfl⟩ := htotal
  obtain ⟨e₀, he₀, hcarriesZero⟩ := carries_encryptOn h hzero
  obtain ⟨e, he, hcarries⟩ := carries_foldl h hcarriesZero hcts
  refine ⟨_, fun k => e₀ k + e k, rfl, fun k hk => ?_, ?_⟩
  · have htriangle := abs_add_le (e₀ k) (e k)
    have hleft := he₀ k hk
    have hright := he k hk
    linarith
  · have hsummed : summed s count bound seed (fun k => e₀ k + e k) = fun k =>
        constantPoly (scaledInteger 0.0 s.scale) k + e₀ k +
          constantPoly (∑ i ∈ Finset.range count, constant s seed bound i) k + e k := by
      funext k
      rw [summed, scaledInteger_zero h.isFinite_scale, constantPoly_zero]
      ring
    rw [hsummed]
    exact hcarries

/-- **The sum of samples decrypts to the sum of the encoded samples and a small error.**  Whenever the
sequential sum of at least one sample succeeds, or the concurrent one with any number of workers and any
order in which enough of them have finished, every sample was encoded as a constant integer polynomial,
and decryption succeeds.  Its coefficients are, in every limb, the residues of one integer polynomial: the
sum of those constants, and an error of at most `19 (2 n + 1)` for each sample and for the encryption of
zero.  A coefficient of that polynomial in `(-Q/2, Q/2]` is what reconstruction returns. -/
theorem decrypt_sum (h : s.Built) (hcount : 0 < count)
    (hsum : sequential s count bound seed = .ok total ∨ ∃ workers order, Gathering.Settled
        ((chunks count workers).map fun r => encryptRange s seed bound r.1 r.2) order ∧
      concurrentIn s count bound seed workers order = .ok total) :
    (∀ i < count, ∃ pt, s.context.encodeScalar (value seed bound i) s.scale s.maxLevel = .ok pt ∧
      ∀ (j : ℕ) (q : Modulus), (s.context.moduliAt s.maxLevel)[j]? = some q →
        ∀ k < s.context.degree, (pt.poly.inverse s.context.transforms).value q j k =
          constantPoly (constant s seed bound i) k) ∧
      ∃ ct m, ∃ e : ℕ → ℤ, total.encrypted = some ct ∧
        s.context.decrypt ct s.secretKey = .ok m ∧
        (∀ k < s.context.degree, |e k| ≤ (count + 1) * (19 * (2 * s.context.degree + 1))) ∧
        (m.poly.inverse s.context.transforms).Canonical s.context.degree
          (s.context.moduliAt s.maxLevel) ∧
        (∀ (j : ℕ) (q : Modulus), (s.context.moduliAt s.maxLevel)[j]? = some q →
          ∀ k < s.context.degree, (m.poly.inverse s.context.transforms).value q j k =
            summed s count bound seed e k) ∧
        ∀ k < s.context.degree,
          -(modulusProduct (s.context.moduliAt s.maxLevel) : ℤ) < 2 * summed s count bound seed e k →
          2 * summed s count bound seed e k ≤ modulusProduct (s.context.moduliAt s.maxLevel) →
            (s.context.integers m).getD k 0 = summed s count bound seed e k := by
  have hdescribed : IsSum s count bound seed total := by
    rcases hsum with hsequential | ⟨workers, order, horder, hconcurrent⟩
    · exact (sequential_eq_ok h hcount).mp hsequential
    · exact (concurrentIn_eq_ok h hcount horder).mp hconcurrent
  obtain ⟨ct, e, hencrypted, he, hcarries⟩ := hdescribed.exists_carries h
  obtain ⟨m, hm, -, -, hcanonical, hvalue, hexact⟩ := hcarries.decrypt h
  refine ⟨fun i hi => ?_, ct, m, e, hencrypted, hm, he, hcanonical, hvalue, hexact⟩
  obtain ⟨zero, cts, -, hcts, -⟩ := hdescribed
  obtain ⟨ct, -, hct⟩ := (getElem?_of_mapM_ok hcts).2 i i (List.getElem?_range hi)
  obtain ⟨pt, noise, hencode, -, -⟩ := h.encryptValue_spec hct
  exact ⟨pt, hencode, fun j q hq k hk => Context.value_inverse_encodeScalar h.made hencode hq hk⟩

/-- Three samples over the small context, of which the integers 0, 4 and 8 are encrypted: the sum 12
comes back with an error of at most 684. -/
theorem decrypt_sum_small : ∃ (s : Scheme) (total : SampleSum) (ct : Ciphertext) (m : Plaintext)
    (e : ℕ → ℤ), s.Built ∧ s.context = .small ∧ sequential s 3 8 7 = .ok total ∧
      ∑ i ∈ Finset.range 3, constant s 7 8 i = 12 ∧ total.encrypted = some ct ∧
      s.context.decrypt ct s.secretKey = .ok m ∧ (∀ k < 4, |e k| ≤ 684) ∧
      ∀ (j : ℕ) (q : Modulus), (Context.small.moduliAt 1)[j]? = some q → ∀ k < 4,
        (m.poly.inverse Context.small.transforms).value q j k = summed s 3 8 7 e k := by
  obtain ⟨s, total, h, hcontext, hscale, htotal⟩ := exists_isSum_small
  have hsequential := (sequential_eq_ok h (by norm_num)).mpr htotal
  obtain ⟨-, ct, m, e, hencrypted, hm, he, -, hvalue, -⟩ :=
    decrypt_sum h (by norm_num) (.inl hsequential)
  have hsamples : scaledInteger (value 7 8 0) 1 = 0 ∧ scaledInteger (value 7 8 1) 1 = 4 ∧
      scaledInteger (value 7 8 2) 1 = 8 := by
    decide +kernel
  have hconstants : ∑ i ∈ Finset.range 3, constant s 7 8 i = 12 := by
    simp only [Finset.sum_range_succ, Finset.sum_range_zero, constant, hscale, hsamples]
    norm_num
  have hlevel : s.maxLevel = 1 := by
    rw [Scheme.maxLevel, hcontext]
    rfl
  have hdegree : s.context.degree = 4 := by
    rw [hcontext]
    rfl
  rw [hlevel, hdegree] at hvalue
  rw [hcontext] at hvalue
  refine ⟨s, total, ct, m, e, h, hcontext, hsequential, hconstants, hencrypted, hm, fun k hk => ?_,
    hvalue⟩
  have hbound := he k (hdegree ▸ hk)
  rw [hdegree] at hbound
  exact hbound.trans (by norm_num)

end SampleSum

end EncryptedReals

import EncryptedReals.Demonstration
import EncryptedReals.Proofs.Requests
import EncryptedReals.Proofs.Ring.GaloisAction
import EncryptedReals.Proofs.RotationKeys

/-!
# Rotating and adding sums the slots

The mean of values folds their slots into the first one: the sum so far is rotated by 1, 2, 4, … slots,
and added to itself.  The rotation by `m` of the sum of the first `m` images of a polynomial under the
powers of `X ↦ X ^ 5` is the sum of the next `m` images.  So each round doubles the number of images,
and the last one makes it the least power of two that is not below the number of values.

The folding needs the keys of its rotations and no others.  A scheme that was built with them never
misses a key.

## Main Definitions

* `Demonstration.span` — the number of slots that are summed
* `ResiduePoly.addRotated` — one round of the folding
* `ResiduePoly.SumsImages` — a polynomial that sums the first images of another

## Main results

* `Demonstration.meanRotations_eq` — the rotations are the powers of two below the span
* `ResiduePoly.SumsImages.addRotated`, `ResiduePoly.sumsImages_foldl` — one round, and all of them
* `Demonstration.mean_sums_slots` — the folded polynomial, its values, and the keys
-/

namespace EncryptedReals

open Negacyclic Automorphism

/-! ### The rotations of a mean -/

namespace Demonstration

/-- **The number of slots that are summed**: the least power of two that is not below the number of
values. -/
def span (count : ℕ) : ℕ :=
  2 ^ Nat.clog 2 count

theorem isLeast_span (count : ℕ) : IsLeast {m | count ≤ m ∧ ∃ k, m = 2 ^ k} (span count) := by
  refine ⟨⟨Nat.le_pow_clog one_lt_two count, _, rfl⟩, ?_⟩
  rintro m ⟨hle, k, rfl⟩
  exact Nat.pow_le_pow_right two_pos (Nat.clog_le_of_le_pow hle)

/-- The number of halvings down to one slot. -/
theorem halvings_eq (count : ℕ) :
    (if count ≤ 1 then 0 else (count - 1).log2 + 1) = Nat.clog 2 count := by
  split
  · next hone => exact (Nat.clog_of_right_le_one hone 2).symm
  · next hmany =>
      refine eq_of_forall_ge_iff fun k => ?_
      rw [Nat.clog_le_iff_le_pow one_lt_two, Nat.succ_le_iff, Nat.log2_lt (by omega)]
      omega

theorem doublings_eq : ∀ fuel a : ℕ, doublings (2 ^ (a + fuel)) fuel (2 ^ a) =
    (List.range fuel).map fun i => ((2 ^ (a + i) : ℕ) : ℤ) := by
  intro fuel
  induction fuel with
  | zero => exact fun a => rfl
  | succ fuel ih =>
      intro a
      have hlt : 2 ^ a < 2 ^ (a + (fuel + 1)) := Nat.pow_lt_pow_right one_lt_two (by omega)
      have hnext : doublings (2 ^ (a + (fuel + 1))) fuel (2 * 2 ^ a) =
          (List.range fuel).map fun i => ((2 ^ (a + 1 + i) : ℕ) : ℤ) := by
        rw [← ih (a + 1), Nat.pow_succ', Nat.add_right_comm, Nat.add_assoc]
      rw [doublings, if_pos hlt, hnext, List.range_succ_eq_map, List.map_cons, List.map_map]
      simp only [Function.comp_def, Nat.add_zero, Nat.succ_eq_add_one, Nat.add_assoc,
        Nat.add_comm 1]

/-- **The rotations are the powers of two below the span**, in order. -/
theorem meanRotations_eq (count : ℕ) :
    meanRotations count = (List.range (Nat.clog 2 count)).map fun i => ((2 ^ i : ℕ) : ℤ) := by
  have hdoublings := doublings_eq (Nat.clog 2 count) 0
  simp only [Nat.zero_add] at hdoublings
  rw [meanRotations, halvings_eq]
  exact hdoublings

end Demonstration

/-! ### Sums of images -/

section Images

variable {R : Type*} [CommRing R] {n m k : ℕ}

/-- **The image of the first `m` images** under the rotation by `m` is the sum of the next `m`. -/
theorem Automorphism.substitute_element_sum (hn : ∃ k, 1 ≤ k ∧ n = 2 ^ k) (c : ℕ → R) (hk : k < n) :
    substitute n (element m n) (fun k => ∑ j ∈ Finset.range m, substitute n (5 ^ j) c k) k =
      ∑ j ∈ Finset.range m, substitute n (5 ^ (m + j)) c k := by
  refine eq_of_forall_eval_eq (d := fun k => ∑ j ∈ Finset.range m, substitute n (5 ^ (m + j)) c k)
    (fun S _ f x hx => ?_) hk
  have hroot := pow_pow_eq_neg_one hx (odd_element (by omega : 0 < n) m)
  simp only [hom_substitute, map_sum]
  rw [eval_substitute hx, eval_sum, eval_sum]
  refine Finset.sum_congr rfl fun j _ => ?_
  have hpoint : 5 ^ j * element m n ≡ 5 ^ (m + j) [MOD 2 * n] :=
    five_pow_mul_element_modEq hn (by rw [Nat.cast_add, Int.add_comm])
  rw [eval_substitute hroot, eval_substitute hx, ← pow_mul, ← pow_mod_of_pow_eq_neg_one hx,
    mul_comm, hpoint, pow_mod_of_pow_eq_neg_one hx]

end Images

namespace ResiduePoly

variable {n m count i j : ℕ} {moduli : List Modulus} {p s : ResiduePoly} {q : Modulus}

/-- **One round of the folding**: a polynomial and its image under a rotation, added up. -/
def addRotated (moduli : List Modulus) (p : ResiduePoly) (step : ℤ) : ResiduePoly :=
  p.add moduli (apply moduli (element step p.degree) p)

/-- **A polynomial that sums the first `m` images of another** under the powers of `X ↦ X ^ 5`. -/
structure SumsImages (s : ResiduePoly) (n : ℕ) (moduli : List Modulus) (m : ℕ) (p : ResiduePoly) :
    Prop where
  canonical : s.Canonical n moduli
  value_eq : ∀ (i : ℕ) (q : Modulus), moduli[i]? = some q → ∀ k < n,
    s.value q i k = ∑ j ∈ Finset.range m, substitute n (5 ^ j) (p.value q i) k

theorem sumsImages_one (hp : p.Canonical n moduli) : p.SumsImages n moduli 1 p where
  canonical := hp
  value_eq i q _ k hk := by rw [Finset.sum_range_one, pow_zero, substitute_one _ hk]

variable (hn : ∃ k, 1 ≤ k ∧ n = 2 ^ k) (hw : FitWords moduli)

include hn hw

/-- **One round doubles the number of images.** -/
theorem SumsImages.addRotated (h : s.SumsImages n moduli m p) :
    (s.addRotated moduli m).SumsImages n moduli (2 * m) p := by
  have himage := h.canonical.automorphism (g := element m n) hw.areWords
  have hodd : Odd (element m n) := odd_element (by have := half_pos hn; omega) m
  rw [ResiduePoly.addRotated, h.canonical.degree_eq]
  refine ⟨h.canonical.add hw himage, fun i q hq k hk => ?_⟩
  calc (s.add moduli (apply moduli (element m n) s)).value q i k
      = s.value q i k + substitute n (element m n) (s.value q i) k := by
        rw [value_add hw h.canonical himage hq hk,
          value_automorphism hn hodd hw.areWords h.canonical hq hk]
    _ = ∑ j ∈ Finset.range m, substitute n (5 ^ j) (p.value q i) k +
          ∑ j ∈ Finset.range m, substitute n (5 ^ (m + j)) (p.value q i) k := by
        rw [h.value_eq i q hq k hk, substitute_congr (h.value_eq i q hq),
          substitute_element_sum hn _ hk]
    _ = ∑ j ∈ Finset.range (2 * m), substitute n (5 ^ j) (p.value q i) k := by
        rw [two_mul, Finset.sum_range_add]

/-- **The folding sums as many images as its span**, by induction on the rounds. -/
theorem sumsImages_foldl (hp : p.Canonical n moduli) (count : ℕ) :
    ((Demonstration.meanRotations count).foldl (addRotated moduli) p).SumsImages n moduli
      (Demonstration.span count) p := by
  rw [Demonstration.meanRotations_eq, Demonstration.span]
  induction Nat.clog 2 count with
  | zero => exact sumsImages_one hp
  | succ rounds ih =>
      rw [List.range_succ, List.map_append, List.foldl_append, pow_succ']
      exact ih.addRotated hn hw

omit hw in
/-- **The values at the powers of a root** are sums of as many values, the slots taken cyclically. -/
theorem SumsImages.eval_eq (h : s.SumsImages n moduli m p) (hq : moduli[i]? = some q)
    {x : ZMod q.value} (hx : x ^ n = -1) (j : ℕ) :
    eval n (s.value q i) (x ^ 5 ^ j) =
      ∑ l ∈ Finset.range m, eval n (p.value q i) (x ^ 5 ^ ((j + l) % (n / 2))) := by
  have hroot := pow_pow_eq_neg_one hx (Odd.pow (by decide) : Odd (5 ^ j))
  rw [eval_congr (h.value_eq i q hq), eval_sum]
  refine Finset.sum_congr rfl fun l _ => ?_
  have hpoint : 5 ^ (j + l) ≡ 5 ^ ((j + l) % (n / 2)) [MOD 2 * n] :=
    (five_pow_modEq_iff hn).mpr (Nat.mod_modEq _ _).symm
  rw [eval_substitute hroot, ← pow_mul, ← pow_add, ← pow_mod_of_pow_eq_neg_one hx, hpoint,
    pow_mod_of_pow_eq_neg_one hx]

end ResiduePoly

/-! ### The keys of a mean -/

section Keys

variable {P : Failure → Prop} {s : Scheme}

namespace Demonstrating

variable {α β γ : Type}

/-- A part that draws and succeeds is followed by the rest. -/
theorem start_drawing_of_ok {x : FallibleDrawing α} {a : α} {g g' : Generator}
    (hx : x.run.run g = (.ok a, g')) (f : α → Demonstrating β) :
    (drawing x >>= f).start g = (f a).start g' := by
  show (ExceptT.bindCont f (x.run.run g).1 : StateT (List Step) Drawing _).run []
    (x.run.run g).2 = _
  rw [hx]
  rfl

/-- A part that draws and fails ends a demonstration. -/
theorem start_drawing_of_error {x : FallibleDrawing α} {e : Failure} {g g' : Generator}
    (hx : x.run.run g = (.error e, g')) (f : α → Demonstrating β) :
    (drawing x >>= f).start g = ((.error e, []), g') := by
  show (ExceptT.bindCont f (x.run.run g).1 : StateT (List Step) Drawing _).run []
    (x.run.run g).2 = _
  rw [hx]
  rfl

/-- A demonstration that evaluates ends as the evaluation does. -/
theorem start_observing (y : Observed α) (f : α → β) (g : Generator) :
    (do return f (← observing y) : Demonstrating β).start g =
      (((y.run.run []).1.map f, (y.run.run []).2), g) := by
  show ((match y.run.run [] with
    | (outcome, steps) => (ExceptT.bindCont (fun a => pure (f a)) outcome :
        StateT (List Step) Drawing _).run steps) : Drawing _).run g = _
  rcases y.run.run [] with ⟨e | a, steps⟩ <;> rfl

/-- The failures of a demonstration that draws first are those of the draw and of what comes after it. -/
theorem failsWith_drawing {x : FallibleDrawing α} {f : α → Demonstrating β} (hx : RunsFailWith P x)
    (hf : ∀ a g g', x.run.run g = (.ok a, g') → FailsWith P ((f a).start g').1.1) (g : Generator) :
    FailsWith P ((drawing x >>= f).start g).1.1 := by
  rcases hrun : x.run.run g with ⟨e | a, g'⟩
  · rw [start_drawing_of_error hrun]
    exact .error (hx g e (congrArg Prod.fst hrun))
  · rw [start_drawing_of_ok hrun]
    exact hf a g g' hrun

/-- **The failures of a demonstration** that draws and then evaluates are those of its two parts. -/
theorem failsWith_start {x : FallibleDrawing α} {y : α → Observed β} {f : α → β → γ}
    (hx : RunsFailWith P x) (hy : ∀ a, RunsFailWith P (y a)) (g : Generator) :
    FailsWith P ((do
      let a ← drawing x
      let b ← observing (y a)
      return f a b : Demonstrating γ).start g).1.1 :=
  failsWith_drawing hx (fun a g g' _ => by
    rw [start_observing]
    exact (hy a []).map) g

end Demonstrating

theorem Scheme.runsFailWith_encryptSlots (values : List Float) (scale : Float) :
    RunsFailWith (·.kind ≠ .missingKey) (s.encryptSlots values scale) := by
  have hkinds : RunsFailWith (·.kind ∈ [.mismatch, .encodingOverflow, .scaleOutOfBounds])
      (s.encryptSlots values scale) :=
    .bind (.liftM (Context.failsWith_encodeSlots (by decide) (by decide) (by decide))) fun _ =>
      Context.runsFailWith_encrypt (by decide)
  exact hkinds.kind_ne (by decide)

/-- **A mean whose rotations have keys** never misses one.  A full turn needs none. -/
theorem Demonstration.failsWith_mean (values : List Float)
    (hkeys : ∀ step ∈ meanRotations values.length, element step s.context.degree = 1 ∨
      (s.galoisKeys.find? (element step s.context.degree)).isSome) (g : Generator) :
    FailsWith (·.kind ≠ .missingKey) ((mean s values).start g).1.1 := by
  have hrequest : ∀ r : Request, ¬r.IsIdle → (∀ a step, r ≠ .rotate a step) →
      RunsFailWith (·.kind ≠ .missingKey) (r.observed s) := fun r hidle hr =>
    Request.runsFailWith hidle (r.failsWith_ne_missingKey fun a step heq => absurd heq (hr a step))
  unfold mean
  split
  · exact .throw nofun
  · refine Demonstrating.failsWith_start (s.runsFailWith_encryptSlots values s.scale) (fun x => ?_) g
    refine .bind (.foldlM (fun acc step hstep => ?_) x) fun sum => ?_
    · refine .bind (Request.runsFailWith (r := .rotate acc step) not_false
        (Request.failsWith_ne_missingKey _ fun a r heq => ?_)) fun rotated =>
          hrequest (.add acc rotated) not_false nofun
      cases heq
      exact hkeys step hstep
    · exact .bind (hrequest (.multiplyPlain sum _ s.scale) not_false nofun) fun scaled =>
        hrequest (.rescale scaled) not_false nofun

/-- **The steps that rotation keys were drawn for** have keys, apart from full turns. -/
theorem Scheme.KeysDrawn.find? {rotations : List ℤ} (h : s.KeysDrawn rotations) {step : ℤ}
    (hstep : step ∈ rotations) : element step s.context.degree = 1 ∨
      (s.galoisKeys.find? (element step s.context.degree)).isSome := by
  obtain ⟨g, g', hdraw⟩ := h.galoisKeys
  obtain ⟨keys, g₁, hfold, hreturn⟩ := run_bind_ok hdraw
  have hkeys : s.galoisKeys.keys = keys := by
    cases hgalois : s.galoisKeys
    rw [hgalois] at hreturn
    cases hreturn
    rfl
  rw [GaloisKeys.find?, hkeys, GaloisKeys.lookup_foldlM_drawStep hfold]
  exact or_iff_not_imp_left.mpr fun hone => .inr ⟨step, hstep, rfl, hone⟩

end Keys

/-! ### The mean -/

namespace Demonstration

/-- **The folding of a mean.**  The span is the least power of two that is not below the number of values,
and the powers of 5 below it are different exponents.  The folded polynomial is the sum of the images
under these exponents: its value at the power `5 ^ j` of a root of `X ^ n + 1` is the sum of the values of
the slots from `j` on, cyclically, and at the root itself the sum of the counted slots, when those between
the count and the span are zero.  In a scheme that was built with the rotations of the mean, no mean of
as many values misses a key. -/
theorem mean_sums_slots {n count : ℕ} (hn : ∃ k, 1 ≤ k ∧ n = 2 ^ k) (hslots : count ≤ n / 2)
    {moduli : List Modulus} (hw : FitWords moduli) {p : ResiduePoly} (hp : p.Canonical n moduli) :
    let folded := (meanRotations count).foldl (ResiduePoly.addRotated moduli) p
    IsLeast {m | count ≤ m ∧ ∃ k, m = 2 ^ k} (span count) ∧
      (∀ i < span count, ∀ j < span count, 5 ^ i ≡ 5 ^ j [MOD 2 * n] → i = j) ∧
      folded.Canonical n moduli ∧
      (∀ (i : ℕ) (q : Modulus), moduli[i]? = some q →
        (∀ k < n, folded.value q i k =
          ∑ j ∈ Finset.range (span count), (apply moduli (5 ^ j) p).value q i k) ∧
        ∀ x : ZMod q.value, x ^ n = -1 →
          (∀ j : ℕ, eval n (folded.value q i) (x ^ 5 ^ j) =
            ∑ l ∈ Finset.range (span count), eval n (p.value q i) (x ^ 5 ^ ((j + l) % (n / 2)))) ∧
          ((∀ l, count ≤ l → l < span count → eval n (p.value q i) (x ^ 5 ^ l) = 0) →
            eval n (folded.value q i) x =
              ∑ l ∈ Finset.range count, eval n (p.value q i) (x ^ 5 ^ l))) ∧
      ∀ (profile : Profile) (generator : Generator) (s : Scheme) (id id' : ℕ) (values : List Float),
        values.length = count →
        (Scheme.build profile (meanRotations count) generator).run.run id = (.ok s, id') →
          ∀ g, FailsWith (·.kind ≠ .missingKey) ((mean s values).start g).1.1 := by
  intro folded
  have hleast := isLeast_span count
  have hfits : span count ≤ n / 2 := by
    obtain ⟨k, hk, rfl⟩ := hn
    refine hleast.2 ⟨hslots, k - 1, ?_⟩
    rw [← Nat.pow_div hk two_pos, pow_one]
  have hsums : folded.SumsImages n moduli (span count) p :=
    ResiduePoly.sumsImages_foldl hn hw hp count
  refine ⟨hleast, fun i hi j hj hij => ?_, hsums.canonical, fun i q hq => ⟨fun k hk => ?_,
    fun x hx => ⟨hsums.eval_eq hn hq hx, fun hzero => ?_⟩⟩, ?_⟩
  · exact ((five_pow_modEq_iff hn).mp hij).eq_of_lt_of_lt (hi.trans_le hfits) (hj.trans_le hfits)
  · rw [hsums.value_eq i q hq k hk]
    refine Finset.sum_congr rfl fun j _ => ?_
    rw [ResiduePoly.value_automorphism hn (Odd.pow (by decide)) hw.areWords hp hq hk]
  · have hfirst := hsums.eval_eq hn hq hx 0
    rw [pow_zero, pow_one] at hfirst
    rw [hfirst, ← Finset.sum_subset (Finset.range_subset_range.mpr hleast.1.1) fun l hl hout => ?_]
    · refine Finset.sum_congr rfl fun l hl => ?_
      rw [Nat.zero_add, Nat.mod_eq_of_lt ((Finset.mem_range.mp hl).trans_le hslots)]
    · rw [Finset.mem_range] at hl hout
      rw [Nat.zero_add, Nat.mod_eq_of_lt (hl.trans_le hfits)]
      exact hzero l (not_lt.mp hout) hl
  · rintro profile generator s id id' values rfl hbuild
    obtain ⟨-, -, -, hkeys⟩ := Scheme.build_spec hbuild
    exact failsWith_mean values fun step hstep => hkeys.find? hstep

/-- Two values in the two slots of dimension 4: one rotation folds them, and a scheme over the small
context that was built with it has its key.  9 is a root of `X ^ 4 + 1` modulo 17. -/
theorem mean_sums_slots_small : ∃ (moduli : List Modulus) (p : ResiduePoly) (s : Scheme),
    moduli = [⟨17⟩, ⟨41⟩] ∧ FitWords moduli ∧ p.Canonical 4 moduli ∧ meanRotations 2 = [1] ∧
      span 2 = 2 ∧ (9 : ZMod 17) ^ 4 = -1 ∧
      eval 4 ((p.addRotated moduli 1).value ⟨17⟩ 0) (9 : ZMod 17) =
        eval 4 (p.value ⟨17⟩ 0) (9 : ZMod 17) + eval 4 (p.value ⟨17⟩ 0) (9 ^ 5) ∧
      (Scheme.build ⟨4, [5, 6, 7], 1, .unchecked⟩ (meanRotations 2) (.ofSeed 0)).run.run 0 =
        (.ok s, 1) ∧
      FailsWith (·.kind ≠ .missingKey) ((mean s [1, 2]).start (.ofSeed 0)).1.1 := by
  have hfit : FitWords [⟨17⟩, ⟨41⟩] := by
    unfold FitWords
    decide
  have hp : ResiduePoly.Canonical 4 [⟨17⟩, ⟨41⟩] ⟨[#[1, 2, 3, 4], #[5, 6, 7, 8]], 4⟩ :=
    ResiduePoly.canonical_iff.mpr (by decide)
  have hroot : (9 : ZMod 17) ^ 4 = -1 := by decide
  have hspan : span 2 = 2 := by decide
  obtain ⟨s, hbuild, -, -⟩ := @Scheme.exists_build ⟨4, [5, 6, 7], 1, .unchecked⟩
    Context.small.parameters Context.small _ (meanRotations 2) rfl rfl rfl rfl
    (fun sk g => by
      obtain ⟨ks, g', hrun, -⟩ :=
        @GaloisKeys.exists_run_draw Context.small _ rfl sk (meanRotations 2) g
      exact ⟨ks, g', hrun⟩) (.ofSeed 0)
  obtain ⟨-, -, -, hvalues, hkeys⟩ :=
    @mean_sums_slots 4 2 ⟨2, by decide, by decide⟩ (by decide) _ hfit _ hp
  have hfirst := ((hvalues 0 ⟨17⟩ rfl).2 9 hroot).2 fun l hle hlt => by omega
  rw [Finset.sum_range_succ, Finset.sum_range_one, pow_zero, pow_one, pow_one] at hfirst
  exact ⟨_, _, s, rfl, hfit, hp, rfl, hspan, hroot, hfirst, hbuild,
    hkeys _ _ s 0 1 [1, 2] rfl hbuild (.ofSeed 0)⟩

end Demonstration

end EncryptedReals

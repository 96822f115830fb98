import EncryptedReals.Proofs.Demonstrations
import EncryptedReals.Proofs.Depth
import EncryptedReals.Proofs.RootSearch

/-!
# The profile for a depth

`Profile.forDepth` answers a number of rescales with one of two profiles: the heavy one, which has two, and
for every larger number the deep one, which has three.  So the answer has enough levels up to three
rescales, and for polynomials of up to four coefficients signs and comparisons never exhaust the chain.
Beyond that the answer is still the deep profile, and they always do.

The primes of both chains are certified, so schemes of the two profiles are built without an assumption
on the primality test.

## Main results

* `Profile.heavy_parameters`, `Profile.deep_parameters` — the chains, and `prime_heavyChain`,
  `prime_deepChain`, their primality
* `Scheme.exists_built_forDepth` — schemes of the profile for a depth
* `Profile.forDepth_enough_iff` — for which polynomials the answer suffices
-/

namespace EncryptedReals

/-! ### The two chains -/

namespace Profile

/-- The chain of the heavy profile. -/
def heavyChain : List Modulus :=
  [⟨1152921504606830593⟩, ⟨1099511480321⟩, ⟨1099510890497⟩, ⟨1152921504606748673⟩]

/-- The chain of the deep profile. -/
def deepChain : List Modulus :=
  [⟨1152921504606748673⟩, ⟨1099510054913⟩, ⟨1099508121601⟩, ⟨1099507695617⟩, ⟨1152921504606683137⟩]

theorem heavy_parameters : heavy.parameters = .ok ⟨8192, heavyChain, .classical128⟩ :=
  eq_ok_of_toOption (by decide +kernel)

theorem deep_parameters : deep.parameters = .ok ⟨16384, deepChain, .classical128⟩ :=
  eq_ok_of_toOption (by decide +kernel)

/-- The modulus that is in both chains. -/
theorem prime_shared : Nat.Prime 1152921504606748673 :=
  (by decide +kernel : Modulus.Certifies ⟨1152921504606748673⟩ 3 15 [2087, 48193, 349819]).prime
    (by norm_num)

theorem prime_heavyChain : ∀ q ∈ heavyChain, q.value.Prime := by
  have hfirst := (by decide +kernel : Modulus.Certifies ⟨1152921504606830593⟩ 10 14
    [3, 47, 178481, 2796203]).prime (by norm_num)
  have hsecond := (by decide +kernel : Modulus.Certifies ⟨1099511480321⟩ 3 14
    [5, 11, 19, 149, 431]).prime (by norm_num)
  have hthird := (by decide +kernel : Modulus.Certifies ⟨1099510890497⟩ 3 14
    [67108819]).prime (by norm_num)
  simp only [heavyChain, List.forall_mem_cons]
  exact ⟨hfirst, hsecond, hthird, prime_shared, List.forall_mem_nil _⟩

theorem prime_deepChain : ∀ q ∈ deepChain, q.value.Prime := by
  have hsecond := (by decide +kernel : Modulus.Certifies ⟨1099510054913⟩ 3 19
    [773, 2713]).prime (by norm_num)
  have hthird := (by decide +kernel : Modulus.Certifies ⟨1099508121601⟩ 11 15
    [3, 5, 5, 7, 63913]).prime (by norm_num)
  have hfourth := (by decide +kernel : Modulus.Certifies ⟨1099507695617⟩ 5 18
    [11, 593, 643]).prime (by norm_num)
  have hfactor : Nat.Prime 902163386893 := (by decide +kernel : Modulus.Certifies ⟨902163386893⟩ 2 2
    [3, 90823, 827767]).prime (by norm_num)
  have hspecial := (by decide +kernel : Modulus.Certifies ⟨1152921504606683137⟩ 5 15
    [3, 13, 902163386893]).prime
      (by simp only [List.forall_mem_cons]; exact ⟨by norm_num, by norm_num, hfactor, by simp⟩)
  simp only [deepChain, List.forall_mem_cons]
  exact ⟨prime_shared, hsecond, hthird, hfourth, hspecial, List.forall_mem_nil _⟩

/-- **The depth of the answer**: two for the heavy profile, three for the deep one. -/
theorem depth_forDepth (rescales : ℕ) :
    (forDepth rescales).depth = if rescales ≤ 2 then 2 else 3 := by
  unfold forDepth
  split <;> rfl

end Profile

/-! ### Schemes of the profiles -/

namespace Scheme

/-- **A profile whose chain is prime, has a special prime and takes the scale** gives a scheme, with any
rotations and from any generator.  Its top level is the depth of the profile. -/
theorem exists_built {profile : Profile} {params : Parameters}
    (hparams : profile.parameters = .ok params) (hprime : ∀ q ∈ params.moduli, q.value.Prime)
    (hkeys : params.hasKeySwitching = true)
    (hscale : checkScale profile.scale (params.moduliAt params.maxLevel) = .ok ())
    (rotations : List ℤ) (generator : Generator) (id : ℕ) :
    ∃ s : Scheme, (build profile rotations generator).run.run id = (.ok s, id + 1) ∧ s.Built ∧
      s.maxLevel = profile.depth := by
  obtain ⟨widths, -, hmake⟩ := Profile.parameters_spec hparams
  obtain ⟨ctx, hcontext, hmade⟩ := Context.exists_make hmake hprime id
  obtain ⟨rfl, rfl, -⟩ := Context.make_spec hcontext
  obtain ⟨special, hspecial⟩ : ∃ special, ctx.parameters.special? = some special := by
    rw [Parameters.special?, if_pos hkeys, List.getLast?_eq_some_getLast hmade.moduli_ne_nil]
    exact ⟨_, rfl⟩
  obtain ⟨s, hbuild, hs, -⟩ := exists_build hparams hcontext hscale hspecial
    (fun sk g => by
      obtain ⟨ks, g', hrun, -⟩ := GaloisKeys.exists_run_draw hspecial sk rotations g
      exact ⟨ks, g', hrun⟩) generator
  refine ⟨s, hbuild, ⟨⟨_, _, _, _, _, hbuild⟩, hs ▸ hprime⟩, ?_⟩
  rw [maxLevel, hs, Profile.depth_eq_maxLevel hparams]
  rfl

/-- **A scheme of the profile for a depth** can always be built. -/
theorem exists_built_forDepth (rescales : ℕ) (rotations : List ℤ) (generator : Generator) (id : ℕ) :
    ∃ s : Scheme, (build (Profile.forDepth rescales) rotations generator).run.run id =
      (.ok s, id + 1) ∧ s.Built ∧ s.maxLevel = (Profile.forDepth rescales).depth := by
  unfold Profile.forDepth
  split
  · exact exists_built Profile.heavy_parameters Profile.prime_heavyChain rfl
      (eq_ok_of_toOption (by decide +kernel)) rotations generator id
  · exact exists_built Profile.deep_parameters Profile.prime_deepChain rfl
      (eq_ok_of_toOption (by decide +kernel)) rotations generator id

end Scheme

/-! ### For which polynomials the answer suffices -/

namespace Profile

open Demonstration

/-- **The profile for a depth has enough levels for up to three rescales, and no more.**  Take a polynomial
that needs a number of rescales, and a scheme of the profile for that number, which can be built with
any rotations and from any generator.  The profile has as many levels as the polynomial needs exactly
when these are at most three.  Then no sign and no comparison with the polynomial reports the chain as
exhausted.  With more, every sign and every comparison of inputs that can be encoded does, at level 3;
zero is such an input. -/
theorem forDepth_enough_iff {coefficients : List Float} (hne : coefficients ≠ [])
    (rotations : List ℤ) (generator : Generator) (id : ℕ) :
    let needed := Coefficients.depth coefficients
    (needed ≤ (forDepth needed).depth ↔ needed ≤ 3) ∧
    ∃ s : Scheme, (Scheme.build (forDepth needed) rotations generator).run.run id = (.ok s, id + 1) ∧
      s.maxLevel = (forDepth needed).depth ∧
      (needed ≤ 3 → ∀ g,
        (∀ input, FailsWith (·.kind ≠ .chainExhausted) ((sign s coefficients input).start g).1.1) ∧
        ∀ a b bound,
          FailsWith (·.kind ≠ .chainExhausted) ((compare s a b coefficients bound).start g).1.1) ∧
      (3 < needed → (∃ pt, s.context.encodeScalar 0.0 s.scale s.maxLevel = .ok pt) ∧ ∀ g,
        (∀ input pt, s.context.encodeScalar input s.scale s.maxLevel = .ok pt →
          ((sign s coefficients input).start g).1 = (.error (.chainExhausted 3), [])) ∧
        ∀ a b bound pta ptb, s.context.encodeScalar a s.scale s.maxLevel = .ok pta →
          s.context.encodeScalar b s.scale s.maxLevel = .ok ptb →
          (bound.isFinite && bound > 0) = true →
          ((compare s a b coefficients bound).start g).1.1 = .error (.chainExhausted 3)) := by
  intro needed
  have hlevels := depth_forDepth needed
  have henough : needed ≤ (forDepth needed).depth ↔ needed ≤ 3 := by
    rw [hlevels]
    split <;> omega
  obtain ⟨s, hbuild, hs, htop⟩ := Scheme.exists_built_forDepth needed rotations generator id
  refine ⟨henough, s, hbuild, htop, fun hthree g => ?_, fun hthree => ?_⟩
  · have hdepth : needed ≤ s.maxLevel := (henough.mpr hthree).trans_eq htop.symm
    exact ⟨fun input => failsWith_sign hs hne hdepth input g,
      fun a b bound => failsWith_compare hs hne hdepth a b bound g⟩
  · have hmax : s.maxLevel = 3 := by
      rw [htop, hlevels, if_neg (by omega)]
    have hdepth : s.maxLevel < needed := hmax.trans_lt hthree
    refine ⟨hs.exists_encodeScalar_zero, fun g => ⟨fun input pt hencode => ?_,
      fun a b bound pta ptb ha hb hbound => ?_⟩⟩
    · rw [sign_exhausted hs hne hdepth hencode g, hmax]
    · rw [compare_exhausted hs hne hdepth ha hb hbound g, hmax]

/-- The cubic approximation of a sign needs three rescales, and its profile has them. -/
theorem forDepth_enough_iff_cubic :
    Coefficients.depth [0.0, 1.5, 0.0, -0.5] = 3 ∧ ∃ s : Scheme,
      (Scheme.build (forDepth 3) Scheme.defaultRotations (.ofSeed 0)).run.run 0 = (.ok s, 1) ∧
      s.maxLevel = 3 ∧
      FailsWith (·.kind ≠ .chainExhausted)
        ((sign s [0.0, 1.5, 0.0, -0.5] 0.5).start (.ofSeed 1)).1.1 := by
  have hne : [0.0, 1.5, 0.0, -0.5] ≠ ([] : List Float) := List.cons_ne_nil _ _
  obtain ⟨-, s, hbuild, htop, henough, -⟩ :=
    forDepth_enough_iff hne Scheme.defaultRotations (.ofSeed 0) 0
  exact ⟨rfl, s, hbuild, htop, (henough le_rfl (.ofSeed 1)).1 0.5⟩

/-- **A polynomial of five coefficients has no profile.**  It needs four rescales, the answer for four has
three, and its sign at zero exhausts the chain before the first step. -/
theorem exists_forDepth_not_enough : ∃ coefficients : List Float, coefficients ≠ [] ∧
    Coefficients.depth coefficients = 4 ∧ (forDepth 4).depth = 3 ∧ ∃ s : Scheme,
      (Scheme.build (forDepth 4) Scheme.defaultRotations (.ofSeed 0)).run.run 0 = (.ok s, 1) ∧
      ((sign s coefficients 0.0).start (.ofSeed 1)).1 = (.error (.chainExhausted 3), []) := by
  have hne : [0.0, 0.0, 0.0, 0.0, 1.0] ≠ ([] : List Float) := List.cons_ne_nil _ _
  obtain ⟨s, hbuild, hs, htop⟩ :=
    Scheme.exists_built_forDepth 4 Scheme.defaultRotations (.ofSeed 0) 0
  have hmax : s.maxLevel = 3 := htop
  obtain ⟨pt, hencode⟩ := hs.exists_encodeScalar_zero
  refine ⟨_, hne, rfl, rfl, s, hbuild, ?_⟩
  rw [sign_exhausted hs hne (hmax.trans_lt (by decide)) hencode, hmax]

end Profile

end EncryptedReals

import EncryptedReals.Proofs.Aggregation
import EncryptedReals.Proofs.Horner
import EncryptedReals.Proofs.SlotSums

/-!
# The levels of signs and comparisons

A sign is a polynomial at a fresh ciphertext, and a comparison one at the difference of two, with the
bound divided out of the coefficients.  Both arguments lie at the top level of the scheme.  So the number
of coefficients decides alone: when the scheme has the levels that the polynomial needs, neither ever
reports the chain as exhausted, and when it has fewer, both always do, on inputs that can be encoded.

## Main results

* `KeepsTo.runsFailWith` — what keeps to a course does not exhaust the chain
* `Scheme.Built.exists_sub` — fresh ciphertexts are subtracted without failure
* `Demonstration.failsWith_sign`, `Demonstration.failsWith_compare` — with enough levels
* `Demonstration.sign_exhausted`, `Demonstration.compare_exhausted` — with too few
-/

namespace EncryptedReals

/-- A computation that keeps to a course does not report the chain as exhausted. -/
theorem KeepsTo.runsFailWith {α : Type} {s : Scheme} {course : List Move} {x : Observed α}
    {Q : α → Prop} (h : KeepsTo s course x Q) : RunsFailWith (·.kind ≠ .chainExhausted) x := by
  intro earlier e he
  obtain ⟨steps, outcome, hrun, -, hends⟩ := h earlier
  rw [hrun] at he
  cases hends with
  | done => cases he
  | stopped hmoves hstarts hfails hchain =>
      cases he
      exact hchain

namespace Coefficients

/-- Dividing a bound out keeps the number of coefficients. -/
theorem length_scaleInput (coefficients : List Float) (bound : Float) :
    (scaleInput coefficients bound).length = coefficients.length := by
  have hscale : ∀ (cs : List Float) (power : Float),
      (scaleFrom bound power cs).length = cs.length := by
    intro cs
    induction cs with
    | nil => exact fun _ => rfl
    | cons c cs ih => exact fun power => congrArg (· + 1) (ih (power / bound))
  exact hscale coefficients 1.0

theorem depth_scaleInput (coefficients : List Float) (bound : Float) :
    depth (scaleInput coefficients bound) = depth coefficients := by
  rw [depth, depth, length_scaleInput]

theorem scaleInput_ne_nil {coefficients : List Float} (hne : coefficients ≠ []) (bound : Float) :
    scaleInput coefficients bound ≠ [] := by
  rw [← List.length_pos_iff, length_scaleInput]
  exact List.length_pos_iff.mpr hne

end Coefficients

/-! ### Fresh arguments -/

namespace Scheme

variable {s : Scheme} {a b ct : Ciphertext} {coefficients : List Float}

/-- Encrypting a value does not touch the chain. -/
theorem runsFailWith_encryptValue (value scale : Float) :
    RunsFailWith (·.kind ≠ .chainExhausted) (s.encryptValue value scale) := by
  have hkinds : RunsFailWith (·.kind ∈ [.mismatch, .encodingOverflow, .scaleOutOfBounds])
      (s.encryptValue value scale) :=
    .bind (.liftM (Context.failsWith_encodeScalar (by decide) (by decide) (by decide))) fun _ =>
      Context.runsFailWith_encrypt (by decide)
  exact hkinds.kind_ne (by decide)

/-- A value that was encrypted has two parts at the top level. -/
theorem Built.has_encryptValue (h : s.Built) {value : Float} {g g' : Generator}
    (hct : (s.encryptValue value s.scale).run.run g = (.ok ct, g')) : ct.Has s.maxLevel 2 := by
  obtain ⟨pt, noise, -, -, rfl⟩ := h.encryptValue_spec (congrArg Prod.fst hct)
  exact ⟨(h.fresh (congrArg Prod.fst hct)).level_eq, rfl⟩

/-- A value that can be encoded is encrypted to a fresh ciphertext. -/
theorem Built.exists_fresh (h : s.Built) {value : Float} {pt : Plaintext}
    (hencode : s.context.encodeScalar value s.scale s.maxLevel = .ok pt) (g : Generator) :
    ∃ ct g', (s.encryptValue value s.scale).run.run g = (.ok ct, g') ∧ s.Fresh ct := by
  obtain ⟨ct, hct⟩ := h.exists_encryptValue hencode g
  exact ⟨ct, _, Prod.ext hct rfl, h.fresh hct⟩

/-- **Fresh ciphertexts are subtracted without failure**, and their difference is fresh. -/
theorem Built.exists_sub (h : s.Built) (ha : s.Fresh a) (hb : s.Fresh b) :
    ∃ ct, s.context.sub a b = .ok ct ∧ s.Fresh ct := by
  obtain ⟨negated, hnegate, hscale⟩ : ∃ negated, s.context.negate b = .ok negated ∧
      negated.scale = b.scale := by
    rw [Context.negate, bind_of_ok (hb.owns.checkOwned h.made)]
    exact ⟨_, rfl, rfl⟩
  obtain ⟨howns, hlevel, -⟩ := Context.negate_spec h.made hb.owns hnegate
  have hnegated : s.Fresh negated :=
    ⟨howns, hlevel.trans hb.level_eq, hscale.trans hb.scale_eq⟩
  have hscales : (a.scale != negated.scale) = false := by
    rw [ha.scale_eq, hnegated.scale_eq]
    exact bne_self_of_isFinite h.isFinite_scale
  have hadd := Context.add_eq h.made ha.owns hnegated.owns
    (ha.level_eq.trans hnegated.level_eq.symm) hscales
  exact ⟨_, by rw [Context.sub, bind_of_ok hnegate, hadd], ha.sum h hnegated⟩

theorem keepsTo_sub {l : ℕ} (h : s.context.Made) (ha : a.Has l 2) (hb : b.Has l 2) :
    KeepsTo s [⟨.sub, [l, l], l⟩] (s.sub a b) (Ciphertext.Has l 2) := by
  obtain ⟨rfl, hasize⟩ := ha
  obtain ⟨hlevel, hbsize⟩ := hb
  have hdifference : KeepsTo s [⟨.sub, [a.level, b.level], a.level⟩] (s.sub a b)
      (Ciphertext.Has a.level 2) := by
    refine keepsTo_request h (.sub a b) not_false nofun fun call ct hcall hfollows => ?_
    cases hcall
    exact ⟨hfollows.2.1, by rw [hfollows.2.2, hasize, hbsize, max_self]⟩
  rwa [hlevel] at hdifference

/-- With enough levels an evaluation at a fresh ciphertext keeps to the course of its depth. -/
theorem Built.keepsTo_evaluate (h : s.Built) (hct : ct.Has s.maxLevel 2) (hne : coefficients ≠ [])
    (hdepth : Coefficients.depth coefficients ≤ s.maxLevel) :
    KeepsTo s (hornerCourse s.maxLevel (Coefficients.depth coefficients)) (s.evaluate ct coefficients)
      (Ciphertext.Has (s.maxLevel - Coefficients.depth coefficients) 2) := by
  have hcourse := Scheme.keepsTo_evaluate h.made hct.2 hne (hdepth.trans_eq hct.1.symm)
  rwa [hct.1] at hcourse

end Scheme

/-! ### Demonstrations -/

namespace Demonstration

open Demonstrating

variable {s : Scheme} {coefficients : List Float}

section Enough

variable (h : s.Built) (hne : coefficients ≠ [])
  (hdepth : Coefficients.depth coefficients ≤ s.maxLevel)

include h hne hdepth

/-- **With enough levels a sign never exhausts the chain.** -/
theorem failsWith_sign (input : Float) (g : Generator) :
    FailsWith (·.kind ≠ .chainExhausted) ((sign s coefficients input).start g).1.1 := by
  refine failsWith_drawing (s.runsFailWith_encryptValue _ _) (fun x g₁ g₂ hx => ?_) g
  rw [start_observing]
  exact ((h.keepsTo_evaluate (h.has_encryptValue hx) hne hdepth).runsFailWith []).map

/-- **With enough levels a comparison never exhausts the chain.** -/
theorem failsWith_compare (a b bound : Float) (g : Generator) :
    FailsWith (·.kind ≠ .chainExhausted) ((compare s a b coefficients bound).start g).1.1 := by
  unfold compare
  split
  · exact .throw nofun
  · refine failsWith_drawing (s.runsFailWith_encryptValue _ _) (fun xa g₁ g₂ hxa => ?_) g
    refine failsWith_drawing (s.runsFailWith_encryptValue _ _) (fun xb g₃ g₄ hxb => ?_) g₂
    rw [start_observing]
    have hdifference :=
      Scheme.keepsTo_sub h.made (h.has_encryptValue hxa) (h.has_encryptValue hxb)
    have hcourse := hdifference.bind fun ct hct => h.keepsTo_evaluate hct
      (Coefficients.scaleInput_ne_nil hne bound)
      ((Coefficients.depth_scaleInput coefficients bound).trans_le hdepth)
    exact (hcourse.runsFailWith []).map

end Enough

section TooFew

variable (h : s.Built) (hne : coefficients ≠ [])
  (hdepth : s.maxLevel < Coefficients.depth coefficients)

include h hne hdepth

/-- **With too few levels a sign exhausts the chain** before its first step, on every input that can be
encoded. -/
theorem sign_exhausted {input : Float} {pt : Plaintext}
    (hencode : s.context.encodeScalar input s.scale s.maxLevel = .ok pt) (g : Generator) :
    ((sign s coefficients input).start g).1 = (.error (.chainExhausted s.maxLevel), []) := by
  obtain ⟨x, g', hx, hfresh⟩ := h.exists_fresh hencode g
  have hevaluate := Scheme.run_evaluate_of_level_lt (s := s) hne (hfresh.level_eq.trans_lt hdepth) []
  rw [sign, start_drawing_of_ok hx, start_observing, hevaluate, hfresh.level_eq]
  rfl

/-- **With too few levels a comparison exhausts the chain** once the difference is taken. -/
theorem compare_exhausted {a b bound : Float} {pta ptb : Plaintext}
    (ha : s.context.encodeScalar a s.scale s.maxLevel = .ok pta)
    (hb : s.context.encodeScalar b s.scale s.maxLevel = .ok ptb)
    (hbound : (bound.isFinite && bound > 0) = true) (g : Generator) :
    ((compare s a b coefficients bound).start g).1.1 = .error (.chainExhausted s.maxLevel) := by
  obtain ⟨xa, g₁, hxa, hfresha⟩ := h.exists_fresh ha g
  obtain ⟨xb, g₂, hxb, hfreshb⟩ := h.exists_fresh hb g₁
  obtain ⟨difference, hsub, hfresh⟩ := h.exists_sub hfresha hfreshb
  have hdiff : (s.sub xa xb).run.run [] = (.ok difference, [.ofResult .sub [xa, xb] difference]) := by
    rw [Scheme.sub, hsub]
    rfl
  have hevaluate := Scheme.run_evaluate_of_level_lt (s := s) (Coefficients.scaleInput_ne_nil hne bound)
    ((hfresh.level_eq.trans_lt hdepth).trans_eq (Coefficients.depth_scaleInput coefficients bound).symm)
  rw [compare, hbound]
  show ((do
    let xa ← drawing (s.encryptValue a s.scale)
    let xb ← drawing (s.encryptValue b s.scale)
    let ct ← observing do
      let difference ← s.sub xa xb
      s.evaluate difference (Coefficients.scaleInput coefficients bound)
    return ⟨ct, Coefficients.evaluatePlain coefficients ((a - b) / bound)⟩ :
      Demonstrating Demonstration).start g).1.1 = _
  rw [start_drawing_of_ok hxa, start_drawing_of_ok hxb, start_observing, run_bind_eq hdiff, hevaluate,
    hfresh.level_eq]
  rfl

end TooFew

end Demonstration

end EncryptedReals

import EncryptedReals.Evaluation
import EncryptedReals.Proofs.Acceptance
import EncryptedReals.Proofs.Ring.Automorphism
import EncryptedReals.Proofs.SwitchingKeys

/-!
# Which rotations a list of steps makes possible

The key generator goes through a list of steps and draws a key for each one, unless the step is a
full turn or its element has a key already.  Since steps have one element exactly when they are
congruent modulo the number of slots, the keys serve the steps that are congruent to one of the
list, and the generator draws for the first step of each class only.

A step that is left out draws nothing: the state of the generator passes through it unchanged, and
so the keys of the other steps do not depend on it.

Whether a rotation succeeds is decided by the checks, which count parts and limbs.  That it reads nothing
beyond the limbs is said for those that are filled, and for keys of a secret that the context drew.

## Main Definitions

* `GaloisKeys.effective` — the steps that are drawn for
* `GaloisKeys.drawEach` — a key for each step of a list, without a check
* `GaloisKeys.Served` — the steps that the keys of a list serve

## Main results

* `GaloisKeys.foldlM_drawStep` — from any keys on, just the steps are drawn for that need it
* `GaloisKeys.lookup_foldlM_drawStep` — which elements have a key after a run
* `Context.exists_rotate_of_served` — the steps that one can rotate by
* `Context.rotate_safe` — a rotation by drawn keys stays in range
* `Context.rotate_drawn` — rotations by drawn keys, and what the keys depend on
-/

namespace EncryptedReals

variable {ctx : Context} {sk : SecretKey} {ks : GaloisKeys} {special : Modulus} {ct : Ciphertext}
  {keys keys' : List (ℕ × SwitchKey)} {step step' : ℤ} {steps : List ℤ} {g g' : Generator}

/-- A switching key can always be drawn when there is a special prime. -/
theorem SwitchKey.exists_run_draw (hspecial : ctx.parameters.special? = some special)
    (sk : SecretKey) (target : ResiduePoly) (g : Generator) :
    ∃ key g', (SwitchKey.draw ctx sk target).run.run g = (.ok key, g') := by
  unfold SwitchKey.draw
  rw [hspecial]
  exact ⟨_, _, rfl⟩

namespace GaloisKeys

/-! ### The steps that are drawn for -/

/-- **The steps that are drawn for**: full turns are left out, and of congruent steps all but the
first. -/
def effective (slots : ℕ) (steps : List ℤ) : List ℤ :=
  (steps.filter fun s => ¬(slots : ℤ) ∣ s).eraseDupsBy fun s r => s ≡ r [ZMOD slots]

/-- **A key for each step of a list**, in its order. -/
def drawEach (ctx : Context) (sk : SecretKey) (steps : List ℤ) : FallibleDrawing GaloisKeys := do
  return ⟨← steps.foldlM (addKey ctx sk) [], ctx.id⟩

/-- What needs a key after a step does so before it, and is not congruent to the step. -/
theorem needed_insert (hn : ∃ k, 1 ≤ k ∧ ctx.degree = 2 ^ k) (hstep : Needed ctx.degree keys step)
    (key : SwitchKey) :
    Needed ctx.degree (insert (Automorphism.element step ctx.degree) key keys) step' ↔
      Needed ctx.degree keys step' ∧ ¬step' ≡ step [ZMOD (ctx.degree / 2 : ℕ)] := by
  rw [Needed, Needed, lookup_insert_of_none hstep.2, ← Automorphism.element_eq_iff hn]
  split
  · next heq => simp [heq]
  · next hne => simp [hne]

/-- **Just the steps are drawn for that need it**: those without a key at the start, and of
congruent ones the first. -/
theorem foldlM_drawStep (hn : ∃ k, 1 ≤ k ∧ ctx.degree = 2 ^ k) :
    ∀ (steps : List ℤ) (keys : List (ℕ × SwitchKey)),
      steps.foldlM (drawStep ctx sk) keys =
        ((steps.filter (Needed ctx.degree keys)).eraseDupsBy fun s r =>
          s ≡ r [ZMOD (ctx.degree / 2 : ℕ)]).foldlM (addKey ctx sk) keys := by
  intro steps
  induction steps with
  | nil => intro keys; rfl
  | cons step steps ih =>
      intro keys
      by_cases hneeded : Needed ctx.degree keys step
      · rw [List.foldlM_cons, drawStep_of_needed hneeded, List.filter_cons_of_pos (by simpa),
          List.eraseDupsBy_cons, List.foldlM_cons]
        simp only [addKey, bind_assoc, pure_bind]
        refine congrArg _ (funext fun key => ?_)
        have hfilter : ∀ s, decide (Needed ctx.degree
            (insert (Automorphism.element step ctx.degree) key keys) s) =
              (decide (decide (s ≡ step [ZMOD (ctx.degree / 2 : ℕ)]) = false) &&
                decide (Needed ctx.degree keys s)) := fun s => by
          simp [needed_insert hn hneeded, and_comm]
        simp only [ih, List.filter_filter, hfilter]
      · rw [List.foldlM_cons, drawStep_of_not_needed hneeded, pure_bind, ih,
          List.filter_cons_of_neg (by simpa)]

/-- **The keys of a list of steps** are those of the steps that are drawn for, with the same
draws. -/
theorem draw_eq_drawEach (hn : ∃ k, 1 ≤ k ∧ ctx.degree = 2 ^ k) (sk : SecretKey)
    (steps : List ℤ) :
    draw ctx sk steps = drawEach ctx sk (effective (ctx.degree / 2) steps) := by
  have hneeded : ∀ s, Needed ctx.degree [] s ↔ ¬((ctx.degree / 2 : ℕ) : ℤ) ∣ s := fun s => by
    rw [Needed, ← Automorphism.element_eq_one_iff hn, List.lookup_nil, and_iff_left rfl]
  rw [draw, drawEach, foldlM_drawStep hn, effective]
  simp only [hneeded]

/-! ### The elements that have a key -/

/-- **What one step adds**: a key for its element, unless it is a full turn. -/
theorem lookup_drawStep (h : (drawStep ctx sk keys step).run.run g = (.ok keys', g')) (e : ℕ) :
    (keys'.lookup e).isSome ↔
      (keys.lookup e).isSome ∨ e = Automorphism.element step ctx.degree ∧ e ≠ 1 := by
  by_cases hneeded : Needed ctx.degree keys step
  · rw [drawStep_of_needed hneeded, addKey] at h
    obtain ⟨key, g₁, -, hinsert⟩ := run_bind_ok h
    cases hinsert
    rw [lookup_insert_of_none hneeded.2]
    split
    · next heq => simp [heq, hneeded.1]
    · next hne => simp [hne]
  · rw [drawStep_of_not_needed hneeded] at h
    cases h
    have hkept : e = Automorphism.element step ctx.degree ∧ e ≠ 1 → (keys.lookup e).isSome := by
      rintro ⟨rfl, hone⟩
      exact Option.ne_none_iff_isSome.mp fun hnone => hneeded ⟨hone, hnone⟩
    rw [or_iff_left_of_imp hkept]

/-- **Which elements have a key after a run**: those that had one, and those of the steps. -/
theorem lookup_foldlM_drawStep :
    ∀ {steps : List ℤ} {keys keys' : List (ℕ × SwitchKey)} {g g' : Generator},
      (steps.foldlM (drawStep ctx sk) keys).run.run g = (.ok keys', g') → ∀ e : ℕ,
        (keys'.lookup e).isSome ↔ (keys.lookup e).isSome ∨
          ∃ s ∈ steps, e = Automorphism.element s ctx.degree ∧ e ≠ 1 := by
  intro steps
  induction steps with
  | nil =>
      intro keys keys' g g' h e
      cases h
      simp
  | cons step steps ih =>
      intro keys keys' g g' h e
      rw [List.foldlM_cons] at h
      obtain ⟨next, g₁, hstep, hrest⟩ := run_bind_ok h
      rw [ih hrest, lookup_drawStep hstep, List.exists_mem_cons_iff, or_assoc]

/-- **The drawing of a run always ends with keys** when there is a special prime. -/
theorem exists_run_foldlM_drawStep (hspecial : ctx.parameters.special? = some special)
    (sk : SecretKey) :
    ∀ (steps : List ℤ) (keys : List (ℕ × SwitchKey)) (g : Generator),
      ∃ keys' g', (steps.foldlM (drawStep ctx sk) keys).run.run g = (.ok keys', g') := by
  intro steps
  induction steps with
  | nil => exact fun keys g => ⟨keys, g, rfl⟩
  | cons step steps ih =>
      intro keys g
      rw [List.foldlM_cons]
      by_cases hneeded : Needed ctx.degree keys step
      · obtain ⟨key, g₁, hkey⟩ := SwitchKey.exists_run_draw hspecial sk
          (target ctx sk (Automorphism.element step ctx.degree)) g
        simp only [drawStep_of_needed hneeded, addKey, bind_assoc, pure_bind]
        rw [run_bind_eq hkey]
        exact ih _ g₁
      · rw [drawStep_of_not_needed hneeded, pure_bind]
        exact ih keys g

/-- **What a list of steps draws**: keys of the context, for the elements of the steps but 1. -/
theorem exists_run_draw (hspecial : ctx.parameters.special? = some special) (sk : SecretKey)
    (steps : List ℤ) (g : Generator) :
    ∃ ks g', (draw ctx sk steps).run.run g = (.ok ks, g') ∧ ks.owner = ctx.id ∧
      ∀ e : ℕ, (ks.find? e).isSome ↔
        ∃ s ∈ steps, e = Automorphism.element s ctx.degree ∧ e ≠ 1 := by
  obtain ⟨keys, g', hrun⟩ := exists_run_foldlM_drawStep hspecial sk steps [] g
  refine ⟨⟨keys, ctx.id⟩, g', ?_, rfl, fun e => ?_⟩
  · rw [draw, run_bind_eq hrun]
    rfl
  · rw [find?, lookup_foldlM_drawStep hrun]
    simp

/-- **The steps that are served** by the keys of a list: the full turns, and those that are
congruent to a step of the list. -/
def Served (slots : ℕ) (steps : List ℤ) (step : ℤ) : Prop :=
  (slots : ℤ) ∣ step ∨ ∃ s ∈ steps, s ≡ step [ZMOD slots]

/-- A step is served when its element is 1 or has a key. -/
theorem served_iff (hn : ∃ k, 1 ≤ k ∧ ctx.degree = 2 ^ k)
    (hkeys : ∀ e : ℕ, (ks.find? e).isSome ↔
      ∃ s ∈ steps, e = Automorphism.element s ctx.degree ∧ e ≠ 1) (step : ℤ) :
    Served (ctx.degree / 2) steps step ↔ Automorphism.element step ctx.degree = 1 ∨
      (ks.find? (Automorphism.element step ctx.degree)).isSome := by
  rw [Served, hkeys, ← Automorphism.element_eq_one_iff hn]
  simp only [← Automorphism.element_eq_iff hn]
  constructor
  · rintro (hone | ⟨s, hs, heq⟩)
    · exact .inl hone
    · exact or_iff_not_imp_left.mpr fun hone => ⟨s, hs, heq.symm, hone⟩
  · exact Or.imp_right fun ⟨s, hs, heq, _⟩ => ⟨s, hs, heq.symm⟩

end GaloisKeys

/-! ### Rotations -/

namespace Context

/-- **What a rotation of two accepted parts returns**, with keys of the same context: the ciphertext
itself after a full turn, and otherwise what it makes of the key, or the missing step.  Only the
failure knows the step from its element. -/
theorem exists_rotate_eq (haccepted : ctx.checkOwned ct = .ok ()) (hsize : ct.size = 2)
    (howner : ks.owner = ctx.id) :
    ∃ turned : ℕ → SwitchKey → Ciphertext, ∀ step : ℤ, ctx.rotate ct step ks =
      if Automorphism.element step ctx.degree = 1 then .ok ct
      else match ks.find? (Automorphism.element step ctx.degree) with
        | none => .error (.missingKey step)
        | some key => .ok (turned (Automorphism.element step ctx.degree) key) := by
  obtain ⟨c0, c1, hparts⟩ := List.length_eq_two.mp hsize
  have hsame : ks.owner = ct.owner := howner.trans (checkOwned_iff.mp haccepted).1.symm
  refine ⟨fun e key => { ct with parts :=
    [(ctx.permutePart ct.level e c0).add (ctx.moduliAt ct.level)
        (key.apply ctx (ctx.permutePart ct.level e c1) ct.level).1,
      (key.apply ctx (ctx.permutePart ct.level e c1) ct.level).2] }, fun step => ?_⟩
  rw [rotate, bind_of_ok haccepted, hsame, hparts]
  simp only [bne_self_eq_false, Bool.false_eq_true, if_false, beq_iff_eq]
  by_cases hone : Automorphism.element step ctx.degree = 1
  · rw [if_pos hone, if_pos hone]
    rfl
  · rw [if_neg hone, if_neg hone]
    cases ks.find? (Automorphism.element step ctx.degree) <;> rfl

/-- **By a step that is served one can rotate**: it is a full turn, or its key is there. -/
theorem exists_rotate_of_served (h : ctx.Made) (haccepted : ctx.checkOwned ct = .ok ())
    (hsize : ct.size = 2) (howner : ks.owner = ctx.id)
    (hkeys : ∀ e : ℕ, (ks.find? e).isSome ↔
      ∃ s ∈ steps, e = Automorphism.element s ctx.degree ∧ e ≠ 1)
    (hstep : GaloisKeys.Served (ctx.degree / 2) steps step) :
    ∃ ct', ctx.rotate ct step ks = .ok ct' := by
  obtain ⟨turned, hrotate⟩ := exists_rotate_eq haccepted hsize howner
  rw [hrotate]
  rcases (GaloisKeys.served_iff h.exists_two_pow hkeys step).mp hstep with hone | hsome
  · exact ⟨ct, if_pos hone⟩
  · obtain ⟨key, hkey⟩ := Option.isSome_iff_exists.mp hsome
    rw [hkey]
    split <;> exact ⟨_, rfl⟩

/-- **A rotation by drawn keys stays in range** on filled limbs, its sums and differences fit in words
when the residues are canonical, and what it returns is accepted and filled again. -/
theorem rotate_safe (h : ctx.Made) (hks : ctx.DrawsGaloisKeys ks)
    (haccepted : ctx.checkOwned ct = .ok ()) (hfilled : ctx.Filled ct) (step : ℤ) :
    (Call.rotate ct step ks).Safe False ctx ∧
      (ctx.Owns ct → (Call.rotate ct step ks).Safe True ctx) ∧
      ∀ ct', ctx.rotate ct step ks = .ok ct' → ctx.checkOwned ct' = .ok () ∧ ctx.Filled ct' ∧
        ct'.level = ct.level ∧ ct'.size = ct.size := by
  have hshaped := (shaped_iff h).mpr ⟨haccepted, hfilled⟩
  obtain ⟨hsafe, hresult⟩ :=
    (Call.rotate ct step ks).step h hks (List.forall_mem_singleton.mpr hshaped)
  refine ⟨hsafe, fun hct => ?_, fun ct' hrotate => ?_⟩
  · exact ((Call.rotate ct step ks).step h hks
      (List.forall_mem_singleton.mpr (shaped_iff_owns.mpr hct))).1
  · obtain ⟨hshaped', hfollows⟩ := hresult ct' hrotate
    obtain ⟨haccepted', hfilled'⟩ := (shaped_iff h).mp hshaped'
    exact ⟨haccepted', hfilled', hfollows⟩

/-- **The rotations that a list of steps makes possible.**  With a special prime the keys of every
list can be drawn.  By a step that the list does not serve no accepted ciphertext of two parts can be
rotated, whatever its limbs hold, and the failure names the step itself.  When its limbs are filled and the
keys are those of a secret that the context drew, it can be rotated by just the steps that the list serves,
to the same ciphertext for congruent steps, and no rotation leaves its ranges.  The keys and the draws are
those of one switching key for each step that is left in the list without its full turns and without its
later congruent steps, so that lists which agree in these steps draw the same. -/
theorem rotate_drawn (h : ctx.Made) (hspecial : ctx.parameters.special? = some special)
    (sk : SecretKey) (steps : List ℤ) (g : Generator) :
    (∃ ks g', (GaloisKeys.draw ctx sk steps).run.run g = (.ok ks, g') ∧
      ∀ ct : Ciphertext, ctx.checkOwned ct = .ok () → ct.size = 2 →
        (∀ step : ℤ, ¬GaloisKeys.Served (ctx.degree / 2) steps step →
          ctx.rotate ct step ks = .error (.missingKey step)) ∧
        (ctx.DrawsSecret sk → ctx.Filled ct →
          (∀ step : ℤ, (∃ ct', ctx.rotate ct step ks = .ok ct') ↔
            GaloisKeys.Served (ctx.degree / 2) steps step) ∧
          (∀ (step step' : ℤ) (ct' : Ciphertext), step ≡ step' [ZMOD (ctx.degree / 2 : ℕ)] →
            ctx.rotate ct step ks = .ok ct' → ctx.rotate ct step' ks = .ok ct') ∧
          ∀ step : ℤ, (Call.rotate ct step ks).Safe False ctx ∧
            (ctx.Owns ct → (Call.rotate ct step ks).Safe True ctx) ∧
            ∀ ct', ctx.rotate ct step ks = .ok ct' → ctx.checkOwned ct' = .ok () ∧
              ctx.Filled ct' ∧ ct'.level = ct.level ∧ ct'.size = ct.size)) ∧
      GaloisKeys.draw ctx sk steps =
        GaloisKeys.drawEach ctx sk (GaloisKeys.effective (ctx.degree / 2) steps) ∧
      ∀ steps' : List ℤ, GaloisKeys.effective (ctx.degree / 2) steps' =
          GaloisKeys.effective (ctx.degree / 2) steps →
        GaloisKeys.draw ctx sk steps' = GaloisKeys.draw ctx sk steps := by
  have hn := h.exists_two_pow
  have hdraw := GaloisKeys.draw_eq_drawEach hn sk
  refine ⟨?_, hdraw steps, fun steps' heq => by rw [hdraw, hdraw, heq]⟩
  obtain ⟨ks, g', hrun, howner, hkeys⟩ := GaloisKeys.exists_run_draw hspecial sk steps g
  refine ⟨ks, g', hrun, fun ct haccepted hsize => ?_⟩
  obtain ⟨turned, hrotate⟩ := exists_rotate_eq haccepted hsize howner
  have hserved := GaloisKeys.served_iff hn hkeys
  have hmissing : ∀ step : ℤ, ¬GaloisKeys.Served (ctx.degree / 2) steps step →
      ctx.rotate ct step ks = .error (.missingKey step) := by
    intro step hnot
    obtain ⟨hone, hnone⟩ := not_or.mp (mt (hserved step).mpr hnot)
    rw [hrotate, if_neg hone, Option.not_isSome_iff_eq_none.mp hnone]
  refine ⟨hmissing, fun hsk hfilled => ⟨fun step => ⟨fun ⟨ct', hok⟩ => ?_,
      exists_rotate_of_served h haccepted hsize howner hkeys⟩, fun step step' ct' hmod hok => ?_,
    rotate_safe h ⟨sk, steps, g, g', hsk, hrun⟩ haccepted hfilled⟩⟩
  · by_contra hnot
    rw [hmissing step hnot] at hok
    cases hok
  · rw [hrotate, (Automorphism.element_eq_iff hn).mpr hmod] at hok
    rw [hrotate, ← hok]
    -- the two sides differ in the step of the failure alone
    by_cases hone : Automorphism.element step' ctx.degree = 1
    · rw [if_pos hone, if_pos hone]
    · rw [if_neg hone] at hok ⊢
      rw [if_neg hone]
      cases hkey : ks.find? (Automorphism.element step' ctx.degree) with
      | none =>
          rw [hkey] at hok
          cases hok
      | some key => rfl

/-- Four steps over the small context, which has two slots: the step by 3 is all that is drawn for,
and it serves the steps by 1 and -7.  Full turns serve themselves only. -/
theorem rotate_drawn_small :
    ∃ (sk : SecretKey) (ks turns : GaloisKeys) (g' g'' : Generator) (ct' : Ciphertext),
      small.parameters.special? = some ⟨113⟩ ∧ small.DrawsSecret sk ∧
      small.checkOwned (.small false) = .ok () ∧ small.Filled (.small false) ∧
      (GaloisKeys.draw small sk [2, 3, -1, 5]).run.run (.ofSeed 0) = (.ok ks, g') ∧
      small.rotate (.small false) 1 ks = .ok ct' ∧ small.rotate (.small false) (-7) ks = .ok ct' ∧
      (Call.rotate (.small false) 1 ks).Safe True small ∧ small.Filled ct' ∧
      GaloisKeys.effective 2 [2, 3, -1, 5] = [3] ∧
      GaloisKeys.draw small sk [2, 3, -1, 5] = GaloisKeys.draw small sk [3] ∧
      (GaloisKeys.draw small sk [4, -2]).run.run (.ofSeed 0) = (.ok turns, g'') ∧
      (∃ ct'', small.rotate (.small false) 8 turns = .ok ct'') ∧
      small.rotate (.small false) (-7) turns = .error (.missingKey (-7)) := by
  have hown := owns_small false
  have haccepted := hown.checkOwned made_small
  have hfilled := hown.filled
  have hone : GaloisKeys.Served 2 [2, 3, -1, 5] 1 := .inr ⟨3, by simp, by decide⟩
  have hmissing : ¬GaloisKeys.Served 2 [4, -2] (-7) := by
    rintro (hturn | ⟨s, hs, hmod⟩)
    · exact absurd hturn (by decide)
    · fin_cases hs <;> exact absurd hmod (by decide)
  obtain ⟨sk, -, hsk, -⟩ := exists_draws_small
  obtain ⟨⟨ks, g', hrun, hrotate⟩, -, hlists⟩ :=
    rotate_drawn made_small rfl sk [2, 3, -1, 5] (.ofSeed 0)
  obtain ⟨⟨turns, g'', hrun', hrotate'⟩, -⟩ := rotate_drawn made_small rfl sk [4, -2] (.ofSeed 0)
  obtain ⟨-, hturned⟩ := hrotate _ haccepted rfl
  obtain ⟨hserved, hcongruent, hsafe⟩ := hturned hsk hfilled
  obtain ⟨hnamed, hturned'⟩ := hrotate' _ haccepted rfl
  obtain ⟨hserved', -⟩ := hturned' hsk hfilled
  obtain ⟨ct', hct'⟩ := (hserved 1).mpr hone
  obtain ⟨-, hcanonical, hresult⟩ := hsafe 1
  exact ⟨sk, ks, turns, g', g'', ct', rfl, hsk, haccepted, hfilled, hrun, hct',
    hcongruent _ (-7) _ (by decide) hct', hcanonical hown, (hresult ct' hct').2.1, by decide,
    (hlists [3] (by decide)).symm, hrun', (hserved' 8).mpr (.inl (by decide)), hnamed (-7) hmissing⟩

end Context

end EncryptedReals

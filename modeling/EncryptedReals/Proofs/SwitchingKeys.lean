import EncryptedReals.Proofs.Decryption
import EncryptedReals.Proofs.Drawing

/-!
# Switching keys encrypt multiples of their target

A switching key holds one pair `(bⱼ, aⱼ)` for each data modulus.  Its phase
`bⱼ + aⱼ s` is the error `eⱼ`, plus `P` times the target in limb `j` alone, where `P` is
the special prime.  This is all that key switching uses of a key.

## Main Definitions

* `Context.Ternary`, `Context.Errors` — the ranges of signed coefficients
* `Context.PairDraw` — the range of the draws of one pair
* `SwitchKey.MadeFor` — the keys that some draws in range make
* `RelinearizationKey.MadeFor`, `GaloisKeys.MadeFor` — the key sets of a secret
* `GaloisKeys.Needed`, `GaloisKeys.addKey` — when a step draws, and what it draws then

## Design Notes

That the draws are in range is part of the definitions here, and a hypothesis of the theorems on
`draw`, which say that a key that was drawn comes from what the samplers returned.
-/

namespace EncryptedReals

/-! ### Draws -/

namespace Context

/-- **Ternary coefficients**, one for each coefficient of the ring. -/
structure Ternary (ctx : Context) (coefficients : Array ℤ) : Prop where
  size_eq : coefficients.size = ctx.degree
  mem : ∀ x ∈ coefficients, x = -1 ∨ x = 0 ∨ x = 1

/-- **Errors** of at most 19, one for each coefficient of the ring. -/
structure Errors (ctx : Context) (coefficients : Array ℤ) : Prop where
  size_eq : coefficients.size = ctx.degree
  mem : ∀ x ∈ coefficients, |x| ≤ 19

/-- **The draws of one pair**: canonical residues for every modulus, and errors of at
most 19. -/
structure PairDraw (ctx : Context) (draw : ResiduePoly × Array ℤ) : Prop where
  canonical : draw.1.Canonical ctx.degree ctx.parameters.moduli
  size_eq : draw.2.size = ctx.degree
  mem : ∀ x ∈ draw.2, |x| ≤ 19

variable {ctx : Context}

/-- An entry of an array is one of its members or zero. -/
theorem getD_mem_or_zero (a : Array ℤ) (k : ℕ) : a.getD k 0 ∈ a ∨ a.getD k 0 = 0 := by
  by_cases hk : k < a.size
  · refine .inl ?_
    simp [hk]
  · refine .inr ?_
    simp [hk]

theorem Ternary.abs_le_one {coefficients : Array ℤ} (h : ctx.Ternary coefficients) (k : ℕ) :
    |coefficients.getD k 0| ≤ 1 := by
  rcases getD_mem_or_zero coefficients k with hmem | hzero
  · rcases h.mem _ hmem with hx | hx | hx <;> rw [hx] <;> norm_num
  · rw [hzero]
    norm_num

theorem Errors.abs_le {coefficients : Array ℤ} (h : ctx.Errors coefficients) (k : ℕ) :
    |coefficients.getD k 0| ≤ 19 := by
  rcases getD_mem_or_zero coefficients k with hmem | hzero
  · exact h.mem _ hmem
  · rw [hzero]
    norm_num

theorem PairDraw.abs_le {draw : ResiduePoly × Array ℤ} (h : ctx.PairDraw draw) (k : ℕ) :
    |draw.2.getD k 0| ≤ 19 :=
  Errors.abs_le ⟨h.size_eq, h.mem⟩ k

/-- **Values of signed coefficients** are the values of the integer polynomial, in every limb
of the chain they are reduced for. -/
theorem value_lift_of_fitWords {moduli : List Modulus} (hw : FitWords moduli) {c : Array ℤ}
    {i k : ℕ} {t : Transform} {psi : ZMod t.modulus.value} (hsize : c.size = ctx.degree)
    (hq : moduli[i]? = some t.modulus) (hl : ctx.Limb i t psi) (hk : k < ctx.degree) :
    (ctx.lift c moduli).value t.modulus i k =
      Negacyclic.evalInt ctx.degree (fun j => c.getD j 0) (t.point psi k) := by
  have hints : (ResiduePoly.ofInts c moduli).Canonical ctx.degree moduli :=
    hsize ▸ ResiduePoly.canonical_ofInts hw c
  rw [lift, Context.forward, hints.value_forward hq hl.transform hl.size_eq hl.lawful hk]
  exact Negacyclic.eval_congr (fun j hj => ResiduePoly.value_ofInts hw hq (hsize ▸ hj)) _

theorem value_lift (h : ctx.Made) {c : Array ℤ} {i k : ℕ} {t : Transform}
    {psi : ZMod t.modulus.value} (hsize : c.size = ctx.degree) (hl : ctx.Limb i t psi)
    (hk : k < ctx.degree) :
    (ctx.lift c ctx.parameters.moduli).value t.modulus i k =
      Negacyclic.evalInt ctx.degree (fun j => c.getD j 0) (t.point psi k) :=
  value_lift_of_fitWords h.fitWords hsize hl.modulus hl hk

end Context

/-! ### Pairs -/

/-- **The phase of masked errors is the errors**, over any chain that has transforms. -/
theorem maskedErrors_spec {ctx : Context} {moduli : List Modulus} {s a : ResiduePoly} {e : Array ℤ}
    (hcover : Transform.Cover ctx.degree moduli ctx.transforms)
    (hs : s.Canonical ctx.degree moduli) (ha : a.Canonical ctx.degree moduli)
    (hsize : e.size = ctx.degree) :
    (maskedErrors ctx moduli s a e).Canonical ctx.degree moduli ∧
      ∀ (i : ℕ) (q : Modulus), moduli[i]? = some q → ∀ k < ctx.degree,
        (maskedErrors ctx moduli s a e).value q i k + a.value q i k * s.value q i k =
          (ctx.lift e moduli).value q i k := by
  have hlift := Context.canonical_lift hcover hsize
  have hmask := ha.mul hcover.fitWords hs
  refine ⟨hlift.sub hcover.fitWords hmask, fun i q hq k hk => ?_⟩
  rw [maskedErrors, ResiduePoly.value_sub hcover.fitWords hlift hmask hq hk,
    ResiduePoly.value_mul ha hs hq hk, sub_add_cancel]

theorem limb_modify {p : ResiduePoly} {i : ℕ} (j : ℕ) (f : Array ℕ → Array ℕ)
    (hi : i < p.limbs.length) :
    (⟨p.limbs.modify j f, p.degree⟩ : ResiduePoly).limb i =
      if j = i then f (p.limb i) else p.limb i := by
  refine ResiduePoly.limb_eq_of_getElem? ?_
  rw [List.getElem?_modify, ResiduePoly.getElem?_limbs hi]
  split <;> rfl

namespace SwitchKey

variable {ctx : Context} {sk : SecretKey} {special : Modulus} {target : ResiduePoly}
  {draw : ResiduePoly × Array ℤ} {i j k : ℕ} {q : Modulus}

/-- The limb in which a pair holds the target. -/
theorem limb_pair (h : ctx.Made) (hsk : sk.BelongsTo ctx) (hdraw : ctx.PairDraw draw)
    (htarget : target.Canonical ctx.degree ctx.parameters.moduli)
    (hq : ctx.parameters.moduli[i]? = some q) :
    (pair ctx sk special target j draw.1 draw.2).1.limb i =
      if j = i then
        Array.zipWith (fun x y => q.add x (q.mul (special.value % q.value) y))
          ((maskedErrors ctx ctx.parameters.moduli sk.poly draw.1 draw.2).limb i) (target.limb i)
      else (maskedErrors ctx ctx.parameters.moduli sk.poly draw.1 draw.2).limb i := by
  obtain ⟨hmasked, -⟩ := maskedErrors_spec h.cover hsk.canonical hdraw.canonical hdraw.size_eq
  rw [pair, limb_modify _ _ (hmasked.length_lt hq)]
  split
  · next heq =>
      subst heq
      have hsize := (hmasked.isVector j q hq).size_eq.trans (htarget.isVector j q hq).size_eq.symm
      rw [hq, htarget.getElem? hq]
      exact overlayEntries_eq_zipWith _ hsize.le
  · rfl

/-- **The phase of a pair**: the errors, and `P` times the target in the pair's own limb. -/
theorem pair_spec (h : ctx.Made) (hsk : sk.BelongsTo ctx) (hdraw : ctx.PairDraw draw)
    (htarget : target.Canonical ctx.degree ctx.parameters.moduli) :
    (pair ctx sk special target j draw.1 draw.2).1.Canonical ctx.degree ctx.parameters.moduli ∧
      ∀ (i : ℕ) (q : Modulus), ctx.parameters.moduli[i]? = some q → ∀ k < ctx.degree,
        (pair ctx sk special target j draw.1 draw.2).1.value q i k +
            draw.1.value q i k * sk.poly.value q i k =
          (ctx.lift draw.2 ctx.parameters.moduli).value q i k +
            if j = i then special.value * target.value q i k else 0 := by
  obtain ⟨hmasked, hphase⟩ := maskedErrors_spec h.cover hsk.canonical hdraw.canonical hdraw.size_eq
  have hscaled : ∀ (i : ℕ) (q : Modulus), ctx.parameters.moduli[i]? = some q → ∀ k < ctx.degree,
      (Array.zipWith (fun x y => q.add x (q.mul (special.value % q.value) y))
          ((maskedErrors ctx ctx.parameters.moduli sk.poly draw.1 draw.2).limb i)
          (target.limb i)).getD k 0 =
        q.add (((maskedErrors ctx ctx.parameters.moduli sk.poly draw.1 draw.2).limb i).getD k 0)
          (q.mul (special.value % q.value) ((target.limb i).getD k 0)) := by
    intro i q hq k hk
    rw [getD_zipWith _ ((hmasked.isVector i q hq).size_eq.symm ▸ hk)
      ((htarget.isVector i q hq).size_eq.symm ▸ hk) 0 0]
  refine ⟨⟨hmasked.degree_eq, ?_, fun i q hq => ?_⟩, fun i q hq k hk => ?_⟩
  · exact (List.length_modify _ _ _).trans hmasked.length_eq
  · have hpos := (h.fitWords q (List.mem_of_getElem? hq)).1
    have hsmall := (h.fitWords q (List.mem_of_getElem? hq)).2
    have hvector := hmasked.isVector i q hq
    rw [limb_pair h hsk hdraw htarget hq]
    split
    · refine ⟨?_, fun k hk => ?_⟩
      · rw [Array.size_zipWith, hvector.size_eq, (htarget.isVector i q hq).size_eq, Nat.min_self]
      · rw [hscaled i q hq k hk]
        exact q.add_lt hsmall (hvector.lt k hk) (q.mul_lt hpos _ _)
    · exact hvector
  · have hpos := (h.fitWords q (List.mem_of_getElem? hq)).1
    have hsmall := (h.fitWords q (List.mem_of_getElem? hq)).2
    have hvector := hmasked.isVector i q hq
    rw [← hphase i q hq k hk, ResiduePoly.value, limb_pair h hsk hdraw htarget hq]
    split
    · rw [Modulus.view, hscaled i q hq k hk,
        q.cast_add hsmall (hvector.lt k hk) (q.mul_lt hpos _ _), q.cast_mul, ZMod.natCast_mod]
      simp only [ResiduePoly.value, Modulus.view]
      ring
    · rw [add_zero]
      rfl

/-! ### Keys -/

/-- **A key from a target to a secret**, made from draws in range. -/
def MadeFor (ctx : Context) (sk : SecretKey) (target : ResiduePoly) (key : SwitchKey) : Prop :=
  ∃ special draws, ctx.parameters.special? = some special ∧
    draws.length = ctx.parameters.dataModuli.length ∧ (∀ x ∈ draws, ctx.PairDraw x) ∧
      key = ofDraws ctx sk special target draws

/-- **A key that was drawn** is made from draws in range, when the samplers keep it. -/
theorem madeFor_draw {g g' : Generator} {key : SwitchKey}
    (hrange : ∀ g, ctx.PairDraw ((drawPair ctx).run g).1)
    (h : (SwitchKey.draw ctx sk target).run.run g = (.ok key, g')) :
    key.MadeFor ctx sk target := by
  unfold SwitchKey.draw at h
  cases hspecial : ctx.parameters.special? with
  | none =>
      rw [hspecial] at h
      cases h
  | some special =>
      rw [hspecial] at h
      have hlength := (@Drawing.getElem?_mapM _ _ (fun _ : Modulus => drawPair ctx)
        ctx.parameters.dataModuli g).1
      have hkey : key = ofDraws ctx sk special target
          ((ctx.parameters.dataModuli.mapM fun _ => drawPair ctx).run g).1 := by
        cases h
        rfl
      refine ⟨special, _, hspecial, hlength, fun x hx => ?_, hkey⟩
      obtain ⟨-, g', rfl⟩ := Drawing.mem_mapM hx
      exact hrange g'

end SwitchKey

variable {ctx : Context} {sk : SecretKey} {g g' : Generator}

namespace RelinearizationKey

/-- **A relinearization key of a secret**, made from draws in range. -/
structure MadeFor (ctx : Context) (sk : SecretKey) (rk : RelinearizationKey) : Prop where
  owner_eq : rk.owner = ctx.id
  key : rk.key.MadeFor ctx sk (target ctx sk)

/-- **A relinearization key that was drawn** is made from draws in range, when the samplers
keep it. -/
theorem madeFor_draw (hrange : ∀ g, ctx.PairDraw ((SwitchKey.drawPair ctx).run g).1)
    {rk : RelinearizationKey} (h : (draw ctx sk).run.run g = (.ok rk, g')) :
    rk.MadeFor ctx sk := by
  obtain ⟨key, g₁, hdraw, hreturn⟩ := run_bind_ok h
  cases hreturn
  exact ⟨rfl, SwitchKey.madeFor_draw hrange hdraw⟩

end RelinearizationKey

namespace GaloisKeys

variable {keys keys' : List (ℕ × SwitchKey)} {step : ℤ}

/-- **Galois keys of a secret**: the key of each element was made for the secret's image. -/
structure MadeFor (ctx : Context) (sk : SecretKey) (ks : GaloisKeys) : Prop where
  owner_eq : ks.owner = ctx.id
  key : ∀ g key, ks.find? g = some key → key.MadeFor ctx sk (target ctx sk g)

/-! ### Keys by elements -/

theorem lookup_cons_eq (e h : ℕ) (key : SwitchKey) (rest : List (ℕ × SwitchKey)) :
    ((e, key) :: rest).lookup h = if h = e then some key else rest.lookup h := by
  rw [List.lookup_cons]
  by_cases heq : h = e
  · rw [if_pos heq, beq_iff_eq.mpr heq]
  · rw [if_neg heq, beq_false_of_ne heq]

/-- **A new key is found under its element**, and the others as before. -/
theorem lookup_insert_of_none {e h : ℕ} {key : SwitchKey} :
    ∀ {keys : List (ℕ × SwitchKey)}, keys.lookup e = none →
      (insert e key keys).lookup h = if h = e then some key else keys.lookup h := by
  intro keys
  induction keys with
  | nil => exact fun _ => lookup_cons_eq e h key []
  | cons entry rest ih =>
      obtain ⟨e', key'⟩ := entry
      intro hnone
      rw [lookup_cons_eq] at hnone
      have hne : e ≠ e' := fun heq => by simp [heq] at hnone
      rw [if_neg hne] at hnone
      unfold insert
      split
      · exact lookup_cons_eq e h key _
      · rw [lookup_cons_eq, lookup_cons_eq, ih hnone]
        by_cases heq : h = e
        · rw [heq, if_neg hne, if_pos rfl, if_pos rfl]
        · rw [if_neg heq, if_neg heq]

/-! ### Single steps -/

/-- One more key, whatever is there already. -/
def addKey (ctx : Context) (sk : SecretKey) (keys : List (ℕ × SwitchKey)) (step : ℤ) :
    FallibleDrawing (List (ℕ × SwitchKey)) := do
  let g := Automorphism.element step ctx.degree
  return insert g (← SwitchKey.draw ctx sk (target ctx sk g)) keys

/-- A step that has no key yet and is no full turn. -/
def Needed (n : ℕ) (keys : List (ℕ × SwitchKey)) (step : ℤ) : Prop :=
  Automorphism.element step n ≠ 1 ∧ keys.lookup (Automorphism.element step n) = none

instance {n : ℕ} : DecidablePred (Needed n keys) := fun step =>
  decidable_of_iff (Automorphism.element step n ≠ 1 ∧
    (keys.lookup (Automorphism.element step n)).isNone) (by rw [Option.isNone_iff_eq_none, Needed])

theorem drawStep_of_needed (h : Needed ctx.degree keys step) :
    drawStep ctx sk keys step = addKey ctx sk keys step := by
  simp [drawStep, addKey, h.1, h.2]

/-- **A step that needs no key draws nothing.** -/
theorem drawStep_of_not_needed (h : ¬Needed ctx.degree keys step) :
    drawStep ctx sk keys step = pure keys := by
  have hskip : (Automorphism.element step ctx.degree == 1 ||
      (keys.lookup (Automorphism.element step ctx.degree)).isSome) = true := by
    rw [Bool.or_eq_true, beq_iff_eq, ← Option.ne_none_iff_isSome]
    exact or_iff_not_imp_left.mpr fun hone hnone => h ⟨hone, hnone⟩
  simp only [drawStep, hskip, if_true]

/-- One step keeps every key one that was made for its element. -/
theorem madeFor_drawStep (hrange : ∀ g, ctx.PairDraw ((SwitchKey.drawPair ctx).run g).1)
    (hkeys : ∀ e key, keys.lookup e = some key → key.MadeFor ctx sk (target ctx sk e))
    (h : (drawStep ctx sk keys step).run.run g = (.ok keys', g')) :
    ∀ e key, keys'.lookup e = some key → key.MadeFor ctx sk (target ctx sk e) := by
  by_cases hneeded : Needed ctx.degree keys step
  · rw [drawStep_of_needed hneeded, addKey] at h
    obtain ⟨key, g₁, hdraw, hinsert⟩ := run_bind_ok h
    cases hinsert
    intro e found hfound
    rw [lookup_insert_of_none hneeded.2] at hfound
    split at hfound
    · next heq =>
        cases hfound
        exact heq ▸ SwitchKey.madeFor_draw hrange hdraw
    · exact hkeys e found hfound
  · rw [drawStep_of_not_needed hneeded] at h
    cases h
    exact hkeys

/-! ### Lists of steps -/

/-- **Galois keys that were drawn** are made from draws in range, when the samplers keep it. -/
theorem madeFor_draw (hrange : ∀ g, ctx.PairDraw ((SwitchKey.drawPair ctx).run g).1)
    {steps : List ℤ} {ks : GaloisKeys} (h : (draw ctx sk steps).run.run g = (.ok ks, g')) :
    ks.MadeFor ctx sk := by
  obtain ⟨keys, g₁, hfold, hreturn⟩ := run_bind_ok h
  cases hreturn
  refine ⟨rfl, ?_⟩
  have hinvariant : ∀ (steps : List ℤ) (start : List (ℕ × SwitchKey)) (g g₁ : Generator)
      (keys : List (ℕ × SwitchKey)),
      (∀ e key, start.lookup e = some key → key.MadeFor ctx sk (target ctx sk e)) →
      (steps.foldlM (drawStep ctx sk) start).run.run g = (.ok keys, g₁) →
      ∀ e key, keys.lookup e = some key → key.MadeFor ctx sk (target ctx sk e) := by
    intro steps
    induction steps with
    | nil =>
        intro start g g₁ keys hstart hnil
        cases hnil
        exact hstart
    | cons step steps ih =>
        intro start g g₁ keys hstart hcons
        rw [List.foldlM_cons] at hcons
        obtain ⟨next, g₂, hstep, hrest⟩ := run_bind_ok hcons
        exact ih next g₂ g₁ keys (madeFor_drawStep hrange hstart hstep) hrest
  exact hinvariant steps [] g _ keys (fun e key hkey => by cases hkey) hfold

end GaloisKeys

/-! ### The small context -/

namespace Context

/-- Draws for the two pairs of a key of the small context. -/
def smallDraws : List (ResiduePoly × Array ℤ) :=
  [(⟨[#[1, 16, 3, 4], #[5, 40, 7, 8], #[112, 10, 11, 12]], 4⟩, #[19, -2, 0, 3]),
    (⟨[#[13, 14, 15, 0], #[17, 18, 19, 20], #[21, 22, 23, 24]], 4⟩, #[-19, 5, 1, -1])]

theorem ternary_small : small.Ternary #[1, 0, -1, 1] :=
  ⟨rfl, by decide⟩

theorem pairDraw_smallDraws : ∀ draw ∈ smallDraws, small.PairDraw draw := by
  intro draw hdraw
  have hcheck : ∀ draw ∈ smallDraws, draw.1.Canonical small.degree small.parameters.moduli ∧
      draw.2.size = small.degree ∧ ∀ x ∈ draw.2, |x| ≤ 19 := by decide +kernel
  obtain ⟨hcanonical, hsize, hmem⟩ := hcheck draw hdraw
  exact ⟨hcanonical, hsize, hmem⟩

/-- Every target has a key made from these draws. -/
theorem madeFor_smallDraws (sk : SecretKey) (target : ResiduePoly) :
    (SwitchKey.ofDraws small sk ⟨113⟩ target smallDraws).MadeFor small sk target :=
  ⟨⟨113⟩, smallDraws, rfl, rfl, pairDraw_smallDraws, rfl⟩

end Context

end EncryptedReals

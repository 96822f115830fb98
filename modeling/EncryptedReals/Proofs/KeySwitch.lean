import EncryptedReals.Proofs.Division
import EncryptedReals.Proofs.SwitchingKeys

/-!
# The two sums of key switching

Switching a polynomial `d` with the key of a target `t` gives `k₀, k₁` with
`k₀ + k₁ s = d t + E`, where `E` is one integer polynomial for all limbs.  The digits
`Dⱼ` of `d` are its limbs as integer polynomials.  Before the division the sum of the
products with the pairs has the phase

    ∑ⱼ Dⱼ eⱼ + P d t        in a data limb,
    ∑ⱼ Dⱼ eⱼ                in the limb of the special prime `P`,

since a pair holds the target in its own limb alone.  With the remainders `c₀, c₁` of the
division, `W = ∑ⱼ Dⱼ eⱼ - c₀ - c₁ s` vanishes modulo `P`, limb or no limb, and
`E = W / P`.

## Main Definitions

* `SwitchKey.digit` — a digit of a polynomial
* `SwitchKey.weighted` — the sum of the products of digits with the halves of the pairs
* `SwitchKey.noise` — the sum of the products of digits with the errors

## Main results

* `SwitchKey.apply_eq` — key switching divides two sums of products
* `SwitchKey.limb_quotient` — what the division does to a limb
* `SwitchKey.phase_weighted` — the phase of the sums of products
-/

namespace EncryptedReals

open Finset Negacyclic

/-! ### The special prime -/

namespace Context

variable {ctx : Context} {special : Modulus}

/-- **The special prime is the last modulus**, above every level, and odd. -/
theorem Made.special_spec (h : ctx.Made) (hspecial : ctx.parameters.special? = some special) :
    ctx.parameters.moduli[ctx.transforms.length - 1]? = some special ∧
      special.value % 2 = 1 ∧ ctx.maxLevel < ctx.transforms.length - 1 ∧
        ctx.parameters.dataModuli.length = ctx.maxLevel + 1 := by
  have hlength := h.length_transforms
  unfold Parameters.special? at hspecial
  split at hspecial
  · next hkeys =>
      have htwo : 2 ≤ ctx.parameters.moduli.length := of_decide_eq_true hkeys
      rw [List.getLast?_eq_getElem?] at hspecial
      have hdata : ctx.parameters.dataModuli.length = ctx.parameters.moduli.length - 1 := by
        rw [Parameters.dataModuli, if_pos hkeys, List.length_dropLast]
      rw [hlength]
      refine ⟨hspecial, h.modulus_odd (List.mem_of_getElem? hspecial), ?_, ?_⟩
      · rw [maxLevel, Parameters.maxLevel, hdata]
        omega
      · rw [maxLevel, Parameters.maxLevel, hdata]
        omega
  · cases hspecial

/-- The special prime has an inverse modulo every data modulus. -/
theorem Made.special_ne_zero (h : ctx.Made) (hspecial : ctx.parameters.special? = some special)
    {i : ℕ} {q : Modulus} (hi : i ≤ ctx.maxLevel) (hq : ctx.parameters.moduli[i]? = some q) :
    (special.value : ZMod q.value) ≠ 0 := by
  obtain ⟨hlast, -, hlt, -⟩ := h.special_spec hspecial
  exact h.modulus_ne_zero hq hlast (by omega)

/-- **The limb of the special prime.** -/
structure SpecialLimb (ctx : Context) (last : Transform) (psi : ZMod last.modulus.value) : Prop
    where
  special : ctx.parameters.special? = some last.modulus
  limb : ctx.Limb (ctx.transforms.length - 1) last psi

theorem Made.exists_specialLimb (h : ctx.Made)
    (hspecial : ctx.parameters.special? = some special) :
    ∃ (last : Transform) (psi : ZMod last.modulus.value),
      last.modulus = special ∧ ctx.SpecialLimb last psi := by
  obtain ⟨last, psi, rfl, hlimb⟩ := h.exists_limb (h.special_spec hspecial).1
  exact ⟨last, psi, rfl, hspecial, hlimb⟩

end Context

/-- Two lists over ranges, side by side. -/
theorem zip_map_range {α β : Type} (f : ℕ → α) (g : ℕ → β) {m n : ℕ} (h : m ≤ n) :
    ((List.range m).map f).zip ((List.range n).map g) = (List.range m).map fun j => (f j, g j) := by
  refine List.ext_getElem? fun j => ?_
  by_cases hj : j < m
  · rw [List.getElem?_map, List.getElem?_range hj]
    refine List.getElem?_zip_eq_some.mpr ⟨?_, ?_⟩
    · rw [List.getElem?_map, List.getElem?_range hj]
      rfl
    · rw [List.getElem?_map, List.getElem?_range (by omega)]
      rfl
  · rw [List.getElem?_eq_none, List.getElem?_eq_none]
    · rw [List.length_map, List.length_range]
      omega
    · rw [List.length_zip, List.length_map, List.length_map, List.length_range, List.length_range]
      omega

namespace SwitchKey

variable {ctx : Context} {sk : SecretKey} {special : Modulus} {d target : ResiduePoly}
  {level : ℕ}

/-! ### Sums of products -/

/-- **A sum of products of vectors**, entry by entry.  The products are canonical whatever the
vectors hold. -/
theorem sumProducts_spec {q : Modulus} {n : ℕ} (hpos : 0 < q.value) (hsmall : q.value < 2 ^ 63)
    {xs ys : ℕ → Array ℕ} :
    ∀ {r : ℕ}, (∀ j < r, (xs j).size = n) → (∀ j < r, (ys j).size = n) →
      q.IsVector n (sumProducts q n ((List.range r).map fun j => (xs j, ys j))) ∧
        ∀ k < n, q.view (sumProducts q n ((List.range r).map fun j => (xs j, ys j))) k =
          ∑ j ∈ range r, q.view (xs j) k * q.view (ys j) k := by
  intro r
  induction r with
  | zero =>
      intro _ _
      refine ⟨Modulus.IsVector.replicate_zero hpos, fun k hk => ?_⟩
      rw [range_zero, sum_empty]
      exact Modulus.view_replicate_zero hk
  | succ r ih =>
      intro hx hy
      obtain ⟨hvector, hview⟩ := ih (fun j hj => hx j (by omega)) (fun j hj => hy j (by omega))
      have hxr := hx r (by omega)
      have hyr := hy r (by omega)
      have hmul : q.IsVector n (ResiduePoly.mulEntries q (xs r) (ys r)) :=
        Modulus.IsVector.mul hpos hxr hyr
      have hstep : sumProducts q n ((List.range (r + 1)).map fun j => (xs j, ys j)) =
          Array.zipWith q.add (sumProducts q n ((List.range r).map fun j => (xs j, ys j)))
            (ResiduePoly.mulEntries q (xs r) (ys r)) := by
        rw [List.range_succ, List.map_append, sumProducts, List.foldl_append]
        exact overlayEntries_eq_zipWith _ (hvector.size_eq.trans hmul.size_eq.symm).le
      rw [hstep]
      refine ⟨hvector.add hsmall hmul, fun k hk => ?_⟩
      rw [Modulus.view_add hsmall hvector hmul hk, hview k hk, sum_range_succ,
        ResiduePoly.mulEntries, Modulus.view_mul hxr hyr hk]

/-! ### Digits -/

/-- **A digit of a polynomial**: the coefficients of one limb, as numbers. -/
def digit (ctx : Context) (d : ResiduePoly) (j : ℕ) : Array ℕ :=
  (d.inverse ctx.transforms).limb j

/-- A digit as an integer polynomial. -/
def digitInt (ctx : Context) (d : ResiduePoly) (j k : ℕ) : ℤ :=
  ((digit ctx d j).getD k 0 : ℕ)

/-- The digits are canonical under their own moduli. -/
theorem isVector_digit (h : ctx.Made) (hd : d.Canonical ctx.degree (ctx.moduliAt level)) {j : ℕ}
    {q : Modulus} (hq : (ctx.moduliAt level)[j]? = some q) :
    q.IsVector ctx.degree (digit ctx d j) :=
  (hd.inverse (h.coverAt level)).isVector j q hq

/-- A digit in its own limb is the limb. -/
theorem evalInt_digitInt (hd : d.Canonical ctx.degree (ctx.moduliAt level)) {i k : ℕ}
    {t : Transform} {psi : ZMod t.modulus.value} (hl : ctx.Limb i t psi) (hi : i ≤ level)
    (hk : k < ctx.degree) :
    evalInt ctx.degree (digitInt ctx d i) (t.point psi k) =
      d.value t.modulus i k := by
  rw [← hl.eval_inverse hi hd hk]
  exact eval_congr (fun m _ => Int.cast_natCast _) _

section Digits

variable (h : ctx.Made) (hlevel : level ≤ ctx.maxLevel)
  (hd : d.Canonical ctx.degree (ctx.moduliAt level))

include h hlevel hd

/-- **A lifted digit has the values of the digit** under every modulus of the chain. -/
theorem liftDigit_spec {i j : ℕ} {t : Transform} {psi : ZMod t.modulus.value} (hj : j ≤ level)
    (hl : ctx.Limb i t psi) :
    t.modulus.IsVector ctx.degree (liftDigit (i == j) (d.limb j) (digit ctx d j) t) ∧
      ∀ k < ctx.degree,
        t.modulus.view (liftDigit (i == j) (d.limb j) (digit ctx d j) t) k =
          evalInt ctx.degree (digitInt ctx d j)
            (t.point psi k) := by
  by_cases hij : i = j
  · subst hij
    rw [beq_self_eq_true, liftDigit, if_pos rfl]
    refine ⟨hd.isVector i _ (hl.modulusAt hj), fun k hk => ?_⟩
    rw [evalInt_digitInt hd hl hj hk, ResiduePoly.value]
  · obtain ⟨q, hqj⟩ := h.exists_modulusAt hlevel hj
    have hdigit := isVector_digit h hd hqj
    have hentry : ∀ m < ctx.degree,
        ((digit ctx d j).map fun x => x % t.modulus.value).getD m 0 =
          (digit ctx d j).getD m 0 % t.modulus.value :=
      fun m hm => getD_map _ (hdigit.size_eq.symm ▸ hm) 0 0
    have hreduced : t.modulus.IsVector t.size
        ((digit ctx d j).map fun x => x % t.modulus.value) := by
      refine ⟨by rw [Array.size_map, hdigit.size_eq, hl.size_eq], fun m hm => ?_⟩
      rw [hentry m (hl.size_eq ▸ hm)]
      exact Nat.mod_lt _ hl.lawful.pos
    have hforward := hl.lawful.isVector_forward hreduced
    have hview := fun k (hk : k < t.size) => hl.lawful.view_forward hreduced hk
    rw [beq_false_of_ne hij, liftDigit, if_neg (by simp)]
    rw [hl.size_eq] at hforward hview
    refine ⟨hforward, fun k hk => ?_⟩
    rw [hview k hk]
    refine eval_congr (fun m hm => ?_) _
    rw [Modulus.view, hentry m hm, ZMod.natCast_mod, digitInt, Int.cast_natCast]

end Digits

/-- The digits of a polynomial with a limb for each modulus of the level. -/
theorem digits_eq (h : ctx.Made) (hlevel : level ≤ ctx.maxLevel)
    (hlength : d.limbs.length = level + 1) :
    digits ctx d level = (List.range (level + 1)).map fun j => (j, d.limb j, digit ctx d j) := by
  refine List.ext_getElem? fun j => ?_
  rw [digits, List.getElem?_map, List.getElem?_zipIdx, List.getElem?_take, List.getElem?_map]
  by_cases hj : j < level + 1
  · obtain ⟨q, hq⟩ := h.exists_modulusAt hlevel (Nat.lt_succ_iff.mp hj)
    obtain ⟨t, ht, -⟩ := h.coverAt level j q hq
    have hlimb : j < d.limbs.length := by omega
    have hzip : (d.limbs.zip ctx.transforms)[j]? = some (d.limb j, t) :=
      List.getElem?_zip_eq_some.mpr ⟨ResiduePoly.getElem?_limbs hlimb, ht⟩
    rw [if_pos hj, hzip, List.getElem?_range hj]
    simp [digit, ResiduePoly.limb_inverse hlimb ht]
  · rw [if_neg hj, List.getElem?_eq_none (by rw [List.length_range]; omega)]
    rfl

/-! ### The products with a key -/

/-- **The sum of the products** of the digits with one polynomial for each, in limb `i`. -/
def weighted (ctx : Context) (G : ℕ → ResiduePoly) (d : ResiduePoly) (level i : ℕ)
    (t : Transform) : Array ℕ :=
  sumProducts t.modulus ctx.degree ((List.range (level + 1)).map fun j =>
    (liftDigit (i == j) (d.limb j) (digit ctx d j) t, (G j).limb i))

section Products

variable (h : ctx.Made) (hlevel : level ≤ ctx.maxLevel)
  (hd : d.Canonical ctx.degree (ctx.moduliAt level))

include h hlevel hd

/-- **The entries of a sum of products.** -/
theorem weighted_spec {G : ℕ → ResiduePoly} {i : ℕ} {t : Transform} {psi : ZMod t.modulus.value}
    (hG : ∀ j ≤ level, (G j).Canonical ctx.degree ctx.parameters.moduli) (hl : ctx.Limb i t psi) :
    t.modulus.IsVector ctx.degree (weighted ctx G d level i t) ∧
      ∀ k < ctx.degree, t.modulus.view (weighted ctx G d level i t) k =
        ∑ j ∈ range (level + 1),
          evalInt ctx.degree (digitInt ctx d j) (t.point psi k) *
            (G j).value t.modulus i k := by
  have hlift := fun j (hj : j < level + 1) =>
    liftDigit_spec h hlevel hd (Nat.lt_succ_iff.mp hj) hl
  obtain ⟨hvector, hview⟩ := sumProducts_spec hl.lawful.pos hl.lawful.small
    (fun j hj => (hlift j hj).1.size_eq)
    (fun j (hj : j < level + 1) => ((hG j (Nat.lt_succ_iff.mp hj)).isVector i _ hl.modulus).size_eq)
  refine ⟨hvector, fun k hk => ?_⟩
  rw [weighted, hview k hk]
  exact sum_congr rfl fun j hj => by rw [(hlift j (mem_range.mp hj)).2 k hk, ResiduePoly.value]

end Products

section Key

variable {B A : ℕ → ResiduePoly} {key : SwitchKey} {r : ℕ} (h : ctx.Made)
  (hlevel : level ≤ ctx.maxLevel) (hlength : d.limbs.length = level + 1) (hr : level < r)
  (hkey : key.parts = (List.range r).map fun j => (B j, A j))

include h hlevel hlength hr hkey

theorem accumulate_eq (i : ℕ) (t : Transform) :
    key.accumulate ctx (digits ctx d level) i t =
      (weighted ctx B d level i t, weighted ctx A d level i t) := by
  simp only [accumulate, digits_eq h hlevel hlength, hkey, List.map_map, Function.comp_def,
    zip_map_range _ _ (show level + 1 ≤ r from hr)]
  rfl

/-- One half of what key switching returns: the sums of products, divided by the special
prime. -/
def quotient (ctx : Context) (special : Transform) (G : ℕ → ResiduePoly) (d : ResiduePoly)
    (level : ℕ) : ResiduePoly :=
  ⟨divideByLast special (weighted ctx G d level (ctx.transforms.length - 1) special)
    ((ctx.transforms.take (level + 1)).zipIdx.map fun (t, i) => weighted ctx G d level i t)
    (ctx.transforms.take (level + 1)), ctx.degree⟩

theorem apply_eq {last : Transform} (hlast : ctx.transforms.getLast? = some last) :
    key.apply ctx d level = (quotient ctx last B d level, quotient ctx last A d level) := by
  simp only [apply, hlast, accumulate_eq h hlevel hlength hr hkey, List.map_map, Function.comp_def]
  rfl

end Key

/-! ### The halves of the result -/

/-- The remainder of the division of the sum of products with `G`. -/
def weightedRemainder (ctx : Context) (last : Transform) (G : ℕ → ResiduePoly) (d : ResiduePoly)
    (level : ℕ) : ℕ → ℤ :=
  remainder last (weighted ctx G d level (ctx.transforms.length - 1) last)

section Division

variable (h : ctx.Made) (hlevel : level ≤ ctx.maxLevel)
  (hd : d.Canonical ctx.degree (ctx.moduliAt level)) {G : ℕ → ResiduePoly}
  (hG : ∀ j ≤ level, (G j).Canonical ctx.degree ctx.parameters.moduli) {last : Transform}
  {lastPsi : ZMod last.modulus.value} (hlast : ctx.SpecialLimb last lastPsi)

include h hlevel hd hG hlast

/-- In the limb of the special prime a sum of products is its remainder. -/
theorem evalInt_weightedRemainder {k : ℕ} (hk : k < ctx.degree) :
    evalInt ctx.degree (weightedRemainder ctx last G d level)
        (last.point lastPsi k) =
      last.modulus.view (weighted ctx G d level (ctx.transforms.length - 1) last) k := by
  obtain ⟨hvector, -⟩ := weighted_spec h hlevel hd hG hlast.limb
  have hn := hlast.limb.size_eq
  rw [← hn] at hvector hk ⊢
  exact evalInt_remainder hlast.limb.lawful hvector hk

theorem two_mul_abs_weightedRemainder_le {k : ℕ} (hk : k < ctx.degree) :
    2 * |weightedRemainder ctx last G d level k| ≤ last.modulus.value - 1 := by
  obtain ⟨hvector, -⟩ := weighted_spec h hlevel hd hG hlast.limb
  have hn := hlast.limb.size_eq
  rw [← hn] at hvector hk
  exact two_mul_abs_remainder_le hlast.limb.lawful hvector (h.special_spec hlast.special).2.1 hk

/-- A limb of a half of the result. -/
theorem limb_quotient {i : ℕ} {t : Transform} {psi : ZMod t.modulus.value}
    (hl : ctx.Limb i t psi) (hi : i ≤ level) :
    t.modulus.IsVector ctx.degree ((quotient ctx last G d level).limb i) ∧
      ∀ k < ctx.degree,
        (quotient ctx last G d level).value t.modulus i k * last.modulus.value =
          t.modulus.view (weighted ctx G d level i t) k -
            evalInt ctx.degree (weightedRemainder ctx last G d level) (t.point psi k) := by
  obtain ⟨hdropped, -⟩ := weighted_spec h hlevel hd hG hlast.limb
  obtain ⟨hvector, -⟩ := weighted_spec h hlevel hd hG hl
  have hkept : (ctx.transforms.take (level + 1))[i]? = some t := by
    rw [List.getElem?_take_of_lt (by omega)]
    exact hl.transform
  have hsum : ((ctx.transforms.take (level + 1)).zipIdx.map fun (t, i) =>
      weighted ctx G d level i t)[i]? = some (weighted ctx G d level i t) := by
    rw [List.getElem?_map, List.getElem?_zipIdx, hkept]
    simp
  have hlastSize := hlast.limb.size_eq
  have hsize := hl.size_eq
  obtain ⟨b, hb, hbvector, hbview⟩ := getElem?_divideByLast hlast.limb.lawful
    (hlastSize ▸ hdropped) hl.lawful (hsize.trans hlastSize.symm) (hsize ▸ hvector)
    (h.special_ne_zero hlast.special (hi.trans hlevel) hl.modulus) hsum hkept
  have hquotient : (quotient ctx last G d level).limb i = b :=
    ResiduePoly.limb_eq_of_getElem? hb
  rw [hsize] at hbvector hbview
  refine ⟨hquotient ▸ hbvector, fun k hk => ?_⟩
  rw [ResiduePoly.value, hquotient, hbview k hk]
  rfl

/-- **A half of the result has canonical residues** at its level. -/
theorem canonical_quotient :
    (quotient ctx last G d level).Canonical ctx.degree (ctx.moduliAt level) := by
  obtain ⟨-, -, hlt, -⟩ := h.special_spec hlast.special
  refine ⟨rfl, ?_, fun i q hq => ?_⟩
  · rw [quotient, divideByLast, length_overlay, List.length_map, List.length_zipIdx,
      List.length_take, h.length_moduliAt hlevel]
    omega
  · obtain ⟨hi, t, psi, rfl, hl⟩ := h.exists_limbAt hq
    exact (limb_quotient h hlevel hd hG hlast hl hi).1

end Division

/-! ### The noise -/

/-- **The sum of the products of the digits with the errors.** -/
def noise (ctx : Context) (d : ResiduePoly) (errors : ℕ → ℕ → ℤ) (level k : ℕ) : ℤ :=
  ∑ j ∈ range (level + 1), mul ctx.degree (digitInt ctx d j) (errors j) k

theorem evalInt_noise {i : ℕ} {t : Transform} {psi : ZMod t.modulus.value}
    (hl : ctx.Limb i t psi) (errors : ℕ → ℕ → ℤ) (k : ℕ) :
    evalInt ctx.degree (noise ctx d errors level)
        (t.point psi k) =
      ∑ j ∈ range (level + 1),
        evalInt ctx.degree (digitInt ctx d j) (t.point psi k) *
          evalInt ctx.degree (errors j) (t.point psi k) := by
  refine (evalInt_sum _ _ _).trans ?_
  exact sum_congr rfl fun j _ => evalInt_mul (hl.point_pow k) _ _

/-! ### Keys made from draws -/

/-- The draws of one pair. -/
def drawAt (draws : List (ResiduePoly × Array ℤ)) (j : ℕ) : ResiduePoly × Array ℤ :=
  draws.getD j (⟨[], 0⟩, #[])

/-- The errors of the pairs. -/
def errorAt (draws : List (ResiduePoly × Array ℤ)) (j k : ℕ) : ℤ :=
  (drawAt draws j).2.getD k 0

/-- The first half of a pair. -/
def firstHalf (ctx : Context) (sk : SecretKey) (special : Modulus) (target : ResiduePoly)
    (draws : List (ResiduePoly × Array ℤ)) (j : ℕ) : ResiduePoly :=
  (pair ctx sk special target j (drawAt draws j).1 (drawAt draws j).2).1

/-- The second half of a pair. -/
def secondHalf (draws : List (ResiduePoly × Array ℤ)) (j : ℕ) : ResiduePoly :=
  (drawAt draws j).1

variable {draws : List (ResiduePoly × Array ℤ)}

theorem parts_ofDraws : (ofDraws ctx sk special target draws).parts =
    (List.range draws.length).map fun j =>
      (firstHalf ctx sk special target draws j, secondHalf draws j) := by
  refine List.ext_getElem? fun j => ?_
  rw [ofDraws, List.getElem?_map, List.getElem?_zipIdx, List.getElem?_map]
  by_cases hj : j < draws.length
  · have hdraw : drawAt draws j = draws[j] := List.getD_eq_getElem _ _ hj
    rw [List.getElem?_eq_getElem hj, List.getElem?_range hj]
    simp only [Option.map_some, firstHalf, secondHalf, hdraw, Nat.zero_add]
    rfl
  · rw [List.getElem?_eq_none (by omega), List.getElem?_eq_none (by rw [List.length_range]; omega)]
    rfl

theorem pairDraw_drawAt (hdraws : ∀ x ∈ draws, ctx.PairDraw x) {j : ℕ} (hj : j < draws.length) :
    ctx.PairDraw (drawAt draws j) := by
  rw [drawAt, List.getD_eq_getElem _ _ hj]
  exact hdraws _ (List.getElem_mem hj)

section Phase

variable (h : ctx.Made) (hsk : sk.BelongsTo ctx)
  (htarget : target.Canonical ctx.degree ctx.parameters.moduli)

include h hsk htarget

/-- **The halves of a pair** are canonical, and their phase is the error, plus `P` times the
target in the pair's own limb. -/
theorem halves_spec (special : Modulus) {j : ℕ} (hdraw : ctx.PairDraw (drawAt draws j)) :
    (firstHalf ctx sk special target draws j).Canonical ctx.degree ctx.parameters.moduli ∧
      (secondHalf draws j).Canonical ctx.degree ctx.parameters.moduli ∧
        ∀ {i k : ℕ} {t : Transform} {psi : ZMod t.modulus.value}, ctx.Limb i t psi →
          k < ctx.degree →
            (firstHalf ctx sk special target draws j).value t.modulus i k +
                (secondHalf draws j).value t.modulus i k * sk.poly.value t.modulus i k =
              evalInt ctx.degree (errorAt draws j)
                  (t.point psi k) +
                if j = i then special.value * target.value t.modulus i k else 0 := by
  obtain ⟨hcanonical, hphase⟩ := pair_spec h hsk hdraw htarget
  refine ⟨hcanonical, hdraw.canonical, fun hl hk => ?_⟩
  rw [firstHalf, secondHalf, hphase _ _ hl.modulus _ hk,
    Context.value_lift h hdraw.size_eq hl hk]
  rfl

variable (hlevel : level ≤ ctx.maxLevel) (hd : d.Canonical ctx.degree (ctx.moduliAt level))
  (hdraws : ∀ j ≤ level, ctx.PairDraw (drawAt draws j))

include hlevel hd hdraws

/-- **The phase of the sums of products**: the noise, and `P d t` in the data limbs.  Of all
the digits only the limb's own meets the target there. -/
theorem phase_weighted (special : Modulus) {i k : ℕ} {t : Transform} {psi : ZMod t.modulus.value}
    (hl : ctx.Limb i t psi) (hk : k < ctx.degree) :
    t.modulus.view (weighted ctx (firstHalf ctx sk special target draws) d level i t) k +
        t.modulus.view (weighted ctx (secondHalf draws) d level i t) k *
          sk.poly.value t.modulus i k =
      evalInt ctx.degree (noise ctx d (errorAt draws) level)
          (t.point psi k) +
        if i ≤ level then special.value * (d.value t.modulus i k * target.value t.modulus i k)
        else 0 := by
  have hhalves := fun j (hj : j ≤ level) => halves_spec h hsk htarget special (hdraws j hj)
  obtain ⟨-, hfirst⟩ := weighted_spec h hlevel hd (fun j hj => (hhalves j hj).1) hl
  obtain ⟨-, hsecond⟩ := weighted_spec h hlevel hd (fun j hj => (hhalves j hj).2.1) hl
  let x : ℕ → ZMod t.modulus.value := fun j =>
    evalInt ctx.degree (digitInt ctx d j) (t.point psi k)
  let e : ℕ → ZMod t.modulus.value := fun j =>
    evalInt ctx.degree (errorAt draws j) (t.point psi k)
  have hterm : ∀ j ∈ range (level + 1),
      x j * (firstHalf ctx sk special target draws j).value t.modulus i k +
          x j * (secondHalf draws j).value t.modulus i k * sk.poly.value t.modulus i k =
        x j * e j + if j = i then x j * (special.value * target.value t.modulus i k) else 0 := by
    intro j hj
    have hphase := (hhalves j (Nat.lt_succ_iff.mp (mem_range.mp hj))).2.2 hl hk
    calc x j * (firstHalf ctx sk special target draws j).value t.modulus i k +
          x j * (secondHalf draws j).value t.modulus i k * sk.poly.value t.modulus i k
        = x j * ((firstHalf ctx sk special target draws j).value t.modulus i k +
            (secondHalf draws j).value t.modulus i k * sk.poly.value t.modulus i k) := by ring
      _ = x j * (e j + if j = i then special.value * target.value t.modulus i k else 0) :=
          congrArg (x j * ·) hphase
      _ = x j * e j + if j = i then x j * (special.value * target.value t.modulus i k) else 0 := by
          rw [mul_add, mul_ite, mul_zero]
  rw [hfirst k hk, hsecond k hk, sum_mul, ← sum_add_distrib, sum_congr rfl hterm, sum_add_distrib,
    evalInt_noise hl, sum_ite_eq' (range (level + 1)) i]
  refine congrArg (_ + ·) ?_
  by_cases hi : i ≤ level
  · rw [if_pos (mem_range.mpr (Nat.lt_succ_iff.mpr hi)), if_pos hi, ← evalInt_digitInt hd hl hi hk]
    ring
  · rw [if_neg (fun hmem => hi (Nat.lt_succ_iff.mp (mem_range.mp hmem))), if_neg hi]

end Phase

end SwitchKey

end EncryptedReals

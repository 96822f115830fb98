import EncryptedReals.Proofs.KeySwitch
import EncryptedReals.Proofs.Ring.Safety

/-!
# Division and key switching stay in range

Both operations that divide by a modulus go back to coefficients and forth to values again, and key
switching reads a limb of every pair of the key under every modulus.  The conditions here say that
each of these reads finds an entry, and that the sums of key switching fit a word.  Whatever residues
go in, what comes out is canonical, since the last step of each limb is a product.

## Main Definitions

* `DivideSafe` — a division by a modulus stays in range
* `SwitchKey.Safe` — key switching stays in range

## Main results

* `divideSafe` — limbs of one length can be divided
* `SwitchKey.safe` — a polynomial of the right shape can be switched
-/

namespace EncryptedReals

variable {strict : Prop}

/-! ### Division -/

/-- **A division by a modulus is safe**: the dropped limb is transformed and centred, and every limb
that remains has a transform, and loses the values of the centred coefficients one by one. -/
structure DivideSafe (strict : Prop) (last : Transform) (dropped : Array ℕ)
    (limbs : List (Array ℕ)) (transforms : List Transform) : Prop where
  inverse : last.InverseSafe strict dropped
  center : ∀ k < (last.inverse dropped).size,
    last.modulus.ComplementFits strict ((last.inverse dropped).getD k 0)
  limbs : ∀ (i : ℕ) (a : Array ℕ), limbs[i]? = some a → ∃ t, transforms[i]? = some t ∧
    t.ForwardSafe strict
      (((last.inverse dropped).map last.modulus.center).map t.modulus.reduce) ∧
    Meet (t.modulus.DifferenceFits strict) a
      (t.forward (((last.inverse dropped).map last.modulus.center).map t.modulus.reduce))

section Division

variable {t last : Transform} {psi : ZMod t.modulus.value} {lastPsi : ZMod last.modulus.value}
  {a dropped : Array ℕ} {c : Array ℤ} {q : Modulus}

/-- A limb after division is canonical, whatever it was. -/
theorem isVector_divideLimb (hlawful : t.Lawful psi) (ha : a.size = t.size) (hc : c.size = t.size) :
    t.modulus.IsVector t.size (divideLimb q c a t) := by
  have hreduced : t.modulus.IsVector t.size (c.map t.modulus.reduce) :=
    hc ▸ Modulus.IsVector.reduce hlawful.pos c
  have hforward := (hlawful.isVector_forward hreduced).size_eq
  rw [divideLimb, overlayEntries_eq_zipWith _ (ha.trans hforward.symm).le]
  refine ⟨by rw [Array.size_zipWith, ha, hforward, Nat.min_self], fun k hk => ?_⟩
  rw [getD_zipWith _ (ha.symm ▸ hk) (hforward.symm ▸ hk) 0 0]
  exact Modulus.mul_lt hlawful.pos _ _

/-- **Limbs of one length can be divided**, and become canonical. -/
theorem divideSafe (limbs : List (Array ℕ)) (transforms : List Transform)
    (hlast : last.Lawful lastPsi)
    (hdropped : last.modulus.IsLimb strict last.size dropped)
    (hlimbs : ∀ (i : ℕ) (a : Array ℕ), limbs[i]? = some a → ∃ t, transforms[i]? = some t ∧
      t.size = last.size ∧ t.modulus.IsLimb strict t.size a ∧ ∃ psi, t.Lawful psi) :
    DivideSafe strict last dropped limbs transforms ∧
      ∀ (i : ℕ) (a : Array ℕ) (t : Transform), limbs[i]? = some a → transforms[i]? = some t →
        ∃ b, (divideByLast last dropped limbs transforms)[i]? = some b ∧
          t.modulus.IsVector t.size b := by
  obtain ⟨hinverse, hvector⟩ := hlast.inverseSafe hdropped
  have hcentered : ((last.inverse dropped).map last.modulus.center).size = last.size := by
    rw [Array.size_map, hvector.size_eq]
  refine ⟨⟨hinverse, fun k hk => hvector.isLimb.complementFits hk, fun i a ha => ?_⟩,
    fun i a t ha ht => ?_⟩
  · obtain ⟨t, ht, hsize, hlimb, psi, hlawful⟩ := hlimbs i a ha
    have hreduced : t.modulus.IsLimb strict t.size
        (((last.inverse dropped).map last.modulus.center).map t.modulus.reduce) := by
      rw [hsize, ← hcentered]
      exact (Modulus.IsVector.reduce hlawful.pos _).isLimb
    obtain ⟨hforward, hvalues⟩ := hlawful.forwardSafe hreduced
    exact ⟨t, ht, hforward, hlimb.meet_difference hlawful.small hvalues⟩
  · obtain ⟨t', ht', hsize, hlimb, psi, hlawful⟩ := hlimbs i a ha
    obtain rfl : t' = t := Option.some.inj (ht'.symm.trans ht)
    exact ⟨_, getElem?_overlay _ ha ht,
      isVector_divideLimb hlawful hlimb.size_eq (hcentered.trans hsize.symm)⟩

end Division

/-! ### Key switching -/

namespace SwitchKey

/-- **A sum of products is safe**: the vectors have the length of the sum, and every product can be
added to the products before it. -/
def SumProductsSafe (strict : Prop) (q : Modulus) (degree : ℕ)
    (pairs : List (Array ℕ × Array ℕ)) : Prop :=
  ∀ (m : ℕ) (x y : Array ℕ), pairs[m]? = some (x, y) → x.size = degree ∧
    Meet (fun _ _ => True) x y ∧
    Meet (Modulus.SumFits strict) (sumProducts q degree (pairs.take m))
      (ResiduePoly.mulEntries q x y)

/-- **Both sums under one modulus are safe**: the digits are reduced and transformed, the pairs of the
key have a limb for the modulus, and the sums of the products are safe. -/
structure AccumulateSafe (strict : Prop) (ctx : Context) (key : SwitchKey)
    (digits : List (ℕ × Array ℕ × Array ℕ)) (index : ℕ) (t : Transform) : Prop where
  lift : ∀ x ∈ digits, index ≠ x.1 →
    t.ForwardSafe strict (x.2.2.map fun y => y % t.modulus.value)
  limbs : ∀ (j : ℕ) (b a : ResiduePoly), j < digits.length → key.parts[j]? = some (b, a) →
    index < b.limbs.length ∧ index < a.limbs.length
  first : SumProductsSafe strict t.modulus ctx.degree
    ((digits.map fun x => liftDigit (index == x.1) x.2.1 x.2.2 t).zip
      (key.parts.map fun x => x.1.limb index))
  second : SumProductsSafe strict t.modulus ctx.degree
    ((digits.map fun x => liftDigit (index == x.1) x.2.1 x.2.2 t).zip
      (key.parts.map fun x => x.2.limb index))

/-- **Key switching is safe**: there is a limb for each digit, a digit has its transform and its pair,
both sums are safe under every modulus of the level and under the special prime, and so are both
divisions. -/
structure Safe (strict : Prop) (ctx : Context) (key : SwitchKey) (d : ResiduePoly) (level : ℕ) :
    Prop where
  length_eq : d.limbs.length = level + 1
  digits : ∀ j ≤ level, j < key.parts.length ∧
    ∃ t, ctx.transforms[j]? = some t ∧ t.InverseSafe strict (d.limb j)
  moduli : ctx.transforms.length ≤ ctx.parameters.moduli.length
  sums : ∀ i, i ≤ level ∨ i = ctx.transforms.length - 1 → ∃ t, ctx.transforms[i]? = some t ∧
    key.AccumulateSafe strict ctx (SwitchKey.digits ctx d level) i t
  divisions : ∀ last, ctx.transforms[ctx.transforms.length - 1]? = some last →
    let digits := SwitchKey.digits ctx d level
    let kept := ctx.transforms.take (level + 1)
    let sums := kept.zipIdx.map fun (t, i) => key.accumulate ctx digits i t
    let dropped := key.accumulate ctx digits (ctx.transforms.length - 1) last
    DivideSafe strict last dropped.1 (sums.map Prod.fst) kept ∧
      DivideSafe strict last dropped.2 (sums.map Prod.snd) kept

variable {ctx : Context} {d : ResiduePoly} {level r : ℕ} {B A G : ℕ → ResiduePoly}
  {key : SwitchKey} {last : Transform} {lastPsi : ZMod last.modulus.value}

/-- **A switching key of the context**: there is a special prime, and every data modulus has a pair,
with canonical residues for the whole chain. -/
structure BelongsTo (key : SwitchKey) (ctx : Context) : Prop where
  special : ∃ special, ctx.parameters.special? = some special
  length_le : ctx.maxLevel < key.parts.length
  canonical : ∀ x ∈ key.parts, x.1.Canonical ctx.degree ctx.parameters.moduli ∧
    x.2.Canonical ctx.degree ctx.parameters.moduli

/-- **Every key that is made from draws** is a key of its context. -/
theorem MadeFor.belongsTo {sk : SecretKey} {target : ResiduePoly} (h : ctx.Made)
    (hsk : sk.BelongsTo ctx) (htarget : target.Canonical ctx.degree ctx.parameters.moduli)
    (hkey : key.MadeFor ctx sk target) : key.BelongsTo ctx := by
  obtain ⟨special, draws, hspecial, hlength, hrange, rfl⟩ := hkey
  have hdata := (h.special_spec hspecial).2.2.2
  refine ⟨⟨special, hspecial⟩, ?_, fun x hx => ?_⟩
  · rw [parts_ofDraws, List.length_map, List.length_range]
    omega
  · rw [parts_ofDraws] at hx
    obtain ⟨j, hj, rfl⟩ := List.mem_map.mp hx
    obtain ⟨hfirst, hsecond, -⟩ := halves_spec h hsk htarget special
      (pairDraw_drawAt hrange (List.mem_range.mp hj))
    exact ⟨hfirst, hsecond⟩

/-- Vectors of one length have a safe sum of products. -/
theorem sumProductsSafe {q : Modulus} {n : ℕ} (hpos : 0 < q.value) (hsmall : q.value < 2 ^ 63)
    {xs ys : ℕ → Array ℕ} (hx : ∀ j < r, (xs j).size = n) (hy : ∀ j < r, (ys j).size = n) :
    SumProductsSafe strict q n ((List.range r).map fun j => (xs j, ys j)) := by
  intro m x y hpair
  obtain ⟨hlt, hget⟩ := List.getElem?_eq_some_iff.mp hpair
  have hm : m < r := by simpa using hlt
  simp only [List.getElem_map, List.getElem_range, Prod.mk.injEq] at hget
  obtain ⟨rfl, rfl⟩ := hget
  have htake : ((List.range r).map fun j => (xs j, ys j)).take m =
      (List.range m).map fun j => (xs j, ys j) := by
    rw [← List.map_take, List.take_range, Nat.min_eq_left hm.le]
  have hsum := (sumProducts_spec hpos hsmall (fun j hj => hx j (hj.trans hm))
    (fun j hj => hy j (hj.trans hm))).1
  have hproduct : q.IsVector n (ResiduePoly.mulEntries q (xs m) (ys m)) :=
    Modulus.IsVector.mul hpos (hx m hm) (hy m hm)
  refine ⟨hx m hm, ⟨(hx m hm).trans (hy m hm).symm, fun _ _ => trivial⟩, ?_⟩
  rw [htake]
  exact hsum.isLimb.meet_sum hsmall hproduct.isLimb

section Digits

variable (h : ctx.Made) (hlevel : level ≤ ctx.maxLevel)
  (hd : d.Shaped strict ctx.degree (ctx.moduliAt level)) {i : ℕ} {t : Transform}
  {psi : ZMod t.modulus.value} (hl : ctx.Limb i t psi)

include h hlevel hd hl

/-- **A digit can be lifted** to every modulus of the chain, and keeps its length. -/
theorem liftSafe {j : ℕ} (hj : j ≤ level) :
    (i ≠ j → t.ForwardSafe strict ((digit ctx d j).map fun y => y % t.modulus.value)) ∧
      (liftDigit (i == j) (d.limb j) (digit ctx d j) t).size = ctx.degree := by
  obtain ⟨q, hq⟩ := h.exists_modulusAt hlevel hj
  have hdigit : q.IsVector ctx.degree (digit ctx d j) :=
    (hd.inverse (h.coverAt level)).2.isVector j q hq
  have hreduced : t.modulus.IsVector t.size
      ((digit ctx d j).map fun y => y % t.modulus.value) := by
    refine ⟨by rw [Array.size_map, hdigit.size_eq, hl.size_eq], fun m hm => ?_⟩
    rw [getD_map _ (by rw [hdigit.size_eq, ← hl.size_eq]; exact hm) 0]
    exact Nat.mod_lt _ hl.lawful.pos
  refine ⟨fun _ => (hl.lawful.forwardSafe hreduced.isLimb).1, ?_⟩
  rw [liftDigit]
  split
  · exact (hd.isLimb hq).size_eq
  · rw [(hl.lawful.isVector_forward hreduced).size_eq, hl.size_eq]

/-- A sum of products with canonical polynomials is canonical. -/
theorem isVector_weighted
    (hG : ∀ j ≤ level, (G j).Canonical ctx.degree ctx.parameters.moduli) :
    t.modulus.IsVector ctx.degree (weighted ctx G d level i t) :=
  (sumProducts_spec hl.lawful.pos hl.lawful.small
    (fun _ hj => (liftSafe h hlevel hd hl (Nat.lt_succ_iff.mp hj)).2)
    (fun j hj => ((hG j (Nat.lt_succ_iff.mp hj)).isVector i _ hl.modulus).size_eq)).1

end Digits

section Key

variable (h : ctx.Made) (hlevel : level ≤ ctx.maxLevel)
  (hd : d.Shaped strict ctx.degree (ctx.moduliAt level))

include h hlevel hd

/-- **The division of a sum of products is safe**, and its result is canonical. -/
theorem divideSafe_weighted (hlast : ctx.SpecialLimb last lastPsi)
    (hG : ∀ j ≤ level, (G j).Canonical ctx.degree ctx.parameters.moduli) :
    DivideSafe strict last (weighted ctx G d level (ctx.transforms.length - 1) last)
        ((ctx.transforms.take (level + 1)).zipIdx.map fun (t, i) => weighted ctx G d level i t)
        (ctx.transforms.take (level + 1)) ∧
      (quotient ctx last G d level).Canonical ctx.degree (ctx.moduliAt level) := by
  have hlt := (h.special_spec hlast.special).2.2.1
  have hlimb : ∀ i ≤ level, ∃ (t : Transform) (psi : ZMod t.modulus.value), ctx.Limb i t psi ∧
      (ctx.transforms.take (level + 1))[i]? = some t ∧
      ((ctx.transforms.take (level + 1)).zipIdx.map fun (t, i) =>
        weighted ctx G d level i t)[i]? = some (weighted ctx G d level i t) := by
    intro i hi
    obtain ⟨q, hq⟩ := h.exists_modulusAt hlevel hi
    obtain ⟨-, t, psi, -, hl⟩ := h.exists_limbAt hq
    have hkept : (ctx.transforms.take (level + 1))[i]? = some t := by
      rw [List.getElem?_take_of_lt (by omega)]
      exact hl.transform
    refine ⟨t, psi, hl, hkept, ?_⟩
    rw [List.getElem?_map, List.getElem?_zipIdx, hkept]
    simp
  have hvector : ∀ {i : ℕ} {t : Transform} {psi : ZMod t.modulus.value}, ctx.Limb i t psi →
      t.modulus.IsLimb strict t.size (weighted ctx G d level i t) := fun hl =>
    hl.size_eq.symm ▸ (isVector_weighted h hlevel hd hl hG).isLimb
  obtain ⟨hsafe, hresult⟩ := divideSafe ((ctx.transforms.take (level + 1)).zipIdx.map
    fun (t, i) => weighted ctx G d level i t) (ctx.transforms.take (level + 1))
    hlast.limb.lawful (hvector hlast.limb) fun i a ha => by
      have hi : i ≤ level := by
        have hlength := (List.getElem?_eq_some_iff.mp ha).1
        simp only [List.length_map, List.length_zipIdx, List.length_take] at hlength
        omega
      obtain ⟨t, psi, hl, hkept, hsum⟩ := hlimb i hi
      obtain rfl : weighted ctx G d level i t = a := Option.some.inj (hsum.symm.trans ha)
      exact ⟨t, hkept, hl.size_eq.trans hlast.limb.size_eq.symm, hvector hl, psi, hl.lawful⟩
  refine ⟨hsafe, rfl, ?_, fun i q hq => ?_⟩
  · rw [quotient, divideByLast, length_overlay, List.length_map, List.length_zipIdx,
      List.length_take, h.length_moduliAt hlevel]
    omega
  · obtain ⟨hi, hmodulus⟩ := Parameters.getElem?_moduliAt.mp hq
    obtain ⟨t, psi, hl, hkept, hsum⟩ := hlimb i hi
    obtain rfl : t.modulus = q := Option.some.inj (hl.modulus.symm.trans hmodulus)
    obtain ⟨b, hb, hvector⟩ := hresult i _ t hsum hkept
    have hquotient : (quotient ctx last G d level).limb i = b :=
      ResiduePoly.limb_eq_of_getElem? hb
    rw [hquotient, ← hl.size_eq]
    exact hvector

/-- Both sums under one modulus are safe. -/
theorem accumulateSafe (hr : level < r) (hkey : key.parts = (List.range r).map fun j => (B j, A j))
    (hB : ∀ j ≤ level, (B j).Canonical ctx.degree ctx.parameters.moduli)
    (hA : ∀ j ≤ level, (A j).Canonical ctx.degree ctx.parameters.moduli) {i : ℕ} {t : Transform}
    {psi : ZMod t.modulus.value} (hl : ctx.Limb i t psi) :
    key.AccumulateSafe strict ctx (digits ctx d level) i t := by
  have hlength : d.limbs.length = level + 1 :=
    hd.sized.length_eq.trans (h.length_moduliAt hlevel)
  have hlift := fun j (hj : j < level + 1) =>
    liftSafe h hlevel hd hl (Nat.lt_succ_iff.mp hj)
  have hproducts : ∀ G : ℕ → ResiduePoly,
      (∀ j ≤ level, (G j).Canonical ctx.degree ctx.parameters.moduli) →
        SumProductsSafe strict t.modulus ctx.degree ((List.range (level + 1)).map fun j =>
          (liftDigit (i == j) (d.limb j) (digit ctx d j) t, (G j).limb i)) :=
    fun G hG => sumProductsSafe hl.lawful.pos hl.lawful.small (fun j hj => (hlift j hj).2)
      fun j hj => ((hG j (Nat.lt_succ_iff.mp hj)).isVector i _ hl.modulus).size_eq
  rw [digits_eq h hlevel hlength]
  refine ⟨fun x hx hne => ?_, fun j b a hj hpart => ?_, ?_, ?_⟩
  · obtain ⟨j, hj, rfl⟩ := List.mem_map.mp hx
    exact (hlift j (List.mem_range.mp hj)).1 hne
  · have hj' : j < level + 1 := by simpa using hj
    rw [hkey, List.getElem?_map, List.getElem?_range (by omega), Option.map_some,
      Option.some.injEq, Prod.mk.injEq] at hpart
    obtain ⟨rfl, rfl⟩ := hpart
    exact ⟨(hB j (Nat.lt_succ_iff.mp hj')).length_lt hl.modulus,
      (hA j (Nat.lt_succ_iff.mp hj')).length_lt hl.modulus⟩
  · simp only [hkey, List.map_map, Function.comp_def, zip_map_range _ _ (show level + 1 ≤ r from hr)]
    exact hproducts B hB
  · simp only [hkey, List.map_map, Function.comp_def, zip_map_range _ _ (show level + 1 ≤ r from hr)]
    exact hproducts A hA

/-- **Key switching is safe** for a polynomial of the right shape and a canonical key, and both halves
of its result are canonical. -/
theorem safe (hkey : key.BelongsTo ctx) :
    key.Safe strict ctx d level ∧
      (key.apply ctx d level).1.Canonical ctx.degree (ctx.moduliAt level) ∧
        (key.apply ctx d level).2.Canonical ctx.degree (ctx.moduliAt level) := by
  obtain ⟨special, hspecial⟩ := hkey.special
  obtain ⟨last, lastPsi, -, hlast⟩ := h.exists_specialLimb hspecial
  have hr : level < key.parts.length := hlevel.trans_lt hkey.length_le
  let half : (ResiduePoly × ResiduePoly → ResiduePoly) → ℕ → ResiduePoly :=
    fun f j => (key.parts[j]?.map f).getD ⟨[], 0⟩
  have hparts : key.parts =
      (List.range key.parts.length).map fun j => (half Prod.fst j, half Prod.snd j) := by
    refine List.ext_getElem (by rw [List.length_map, List.length_range]) fun j hj _ => ?_
    simp [half, hj]
  have hpart : ∀ j ≤ level, (half Prod.fst j).Canonical ctx.degree ctx.parameters.moduli ∧
      (half Prod.snd j).Canonical ctx.degree ctx.parameters.moduli := by
    intro j hj
    have hlt : j < key.parts.length := by omega
    simpa [half, hlt] using hkey.canonical _ (List.getElem_mem hlt)
  have hB := fun j hj => (hpart j hj).1
  have hA := fun j hj => (hpart j hj).2
  have hlength : d.limbs.length = level + 1 :=
    hd.sized.length_eq.trans (h.length_moduliAt hlevel)
  obtain ⟨hsafeB, hcanonicalB⟩ := divideSafe_weighted h hlevel hd hlast hB
  obtain ⟨hsafeA, hcanonicalA⟩ := divideSafe_weighted h hlevel hd hlast hA
  have hgetLast : ctx.transforms.getLast? = some last := by
    rw [List.getLast?_eq_getElem?]
    exact hlast.limb.transform
  refine ⟨⟨hlength, fun j hj => ⟨?_, ?_⟩, h.length_transforms.le, fun i hi => ?_,
    fun last' hlast' => ?_⟩, ?_⟩
  · omega
  · exact (hd.inverse (h.coverAt level)).1 j (by omega)
  · rcases hi with hi | rfl
    · obtain ⟨q, hq⟩ := h.exists_modulusAt hlevel hi
      obtain ⟨-, t, psi, -, hl⟩ := h.exists_limbAt hq
      exact ⟨t, hl.transform, accumulateSafe h hlevel hd hr hparts hB hA hl⟩
    · exact ⟨last, hlast.limb.transform, accumulateSafe h hlevel hd hr hparts hB hA hlast.limb⟩
  · obtain rfl : last = last' := Option.some.inj (hlast.limb.transform.symm.trans hlast')
    simp only [accumulate_eq h hlevel hlength hr hparts, List.map_map, Function.comp_def]
    exact ⟨hsafeB, hsafeA⟩
  · rw [apply_eq h hlevel hlength hr hparts hgetLast]
    exact ⟨hcanonicalB, hcanonicalA⟩

end Key

end SwitchKey

end EncryptedReals

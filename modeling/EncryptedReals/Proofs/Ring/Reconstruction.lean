import EncryptedReals.Proofs.Ring.ResiduePoly
import EncryptedReals.Ring.Reconstruction

/-!
# Reconstruction finds the centred integer

Over distinct primes with product `Q`, the integers congruent to `c` modulo `Q`
have exactly one member in `(-Q/2, Q/2]`, and reconstruction returns it from the
residues of `c`.

Two facts carry this.  Modulo one of the primes every term of the weighted sum but
that prime's own vanishes, because the other cofactors contain the prime
(`cast_weightedSum`); and an integer that all the primes divide is divisible by
their product (`modEq_prod_of_forall`).

Every row of canonical residues is the row of some integer (`exists_row_eq`), so this says what
reconstruction returns for any row.

## Main Definitions

* `DistinctPrimes` — what the moduli have to be
* `Reconstruction.IsCentered` — the representative in the centred range
* `Reconstruction.Represents` — the integer of the centred range with the given residues

## Main results

* `isCentered_compose` — reconstruction from the residues of an integer
* `isCentered_composePoly` — the same for every coefficient of a polynomial
* `compose_represents` — reconstruction from any row of canonical residues
-/

namespace EncryptedReals

/-- **Pairwise distinct primes** that leave a bit of their word free. -/
structure DistinctPrimes (moduli : List Modulus) : Prop where
  nodup : moduli.Nodup
  prime : ∀ q ∈ moduli, q.value.Prime
  small : ∀ q ∈ moduli, q.value < 2 ^ 63

namespace Reconstruction

/-- `z` is the representative of `c` modulo `Q` in `(-Q/2, Q/2]`. -/
def IsCentered (Q : ℕ) (c z : ℤ) : Prop :=
  -(Q : ℤ) < 2 * z ∧ 2 * z ≤ Q ∧ z ≡ c [ZMOD Q]

/-- **There is one representative** in the centred range. -/
theorem IsCentered.unique {Q : ℕ} {c z z' : ℤ} (h : IsCentered Q c z) (h' : IsCentered Q c z') :
    z = z' := by
  obtain ⟨hlow, hhigh, hmod⟩ := h
  obtain ⟨hlow', hhigh', hmod'⟩ := h'
  obtain ⟨m, hm⟩ := (hmod.trans hmod'.symm).dvd
  have hQ : (0 : ℤ) < Q := by omega
  have hm0 : m = 0 := by
    by_contra hne
    rcases lt_or_gt_of_ne hne with hneg | hpos
    · nlinarith
    · nlinarith
  rw [hm0, mul_zero] at hm
  omega

/-- An integer in the centred range is its own representative. -/
theorem isCentered_self {Q : ℕ} {c : ℤ} (hlow : -(Q : ℤ) < 2 * c) (hhigh : 2 * c ≤ Q) :
    IsCentered Q c c :=
  ⟨hlow, hhigh, Int.ModEq.refl c⟩

/-- The product of the moduli. -/
def modulusProduct (moduli : List Modulus) : ℕ :=
  (moduli.map Modulus.value).prod

end Reconstruction

open Reconstruction

namespace DistinctPrimes

variable {moduli : List Modulus} {q : Modulus}

theorem sublist (h : DistinctPrimes moduli) {moduli' : List Modulus} (hsub : moduli'.Sublist moduli) :
    DistinctPrimes moduli' where
  nodup := h.nodup.sublist hsub
  prime q hq := h.prime q (hsub.subset hq)
  small q hq := h.small q (hsub.subset hq)

/-- The first primes of a list of distinct primes. -/
theorem take (h : DistinctPrimes moduli) (l : ℕ) : DistinctPrimes (moduli.take l) :=
  h.sublist (List.take_sublist l moduli)

theorem fitWords (h : DistinctPrimes moduli) : FitWords moduli :=
  fun q hq => ⟨(h.prime q hq).pos, h.small q hq⟩

theorem coprime (h : DistinctPrimes moduli) {q r : Modulus} (hq : q ∈ moduli) (hr : r ∈ moduli)
    (hne : q ≠ r) : Nat.Coprime q.value r.value := by
  refine (Nat.coprime_primes (h.prime q hq) (h.prime r hr)).mpr fun heq => hne ?_
  cases q
  cases r
  cases heq
  rfl

theorem modulusProduct_pos (h : DistinctPrimes moduli) : 0 < modulusProduct moduli := by
  refine List.prod_pos fun x hx => ?_
  obtain ⟨q, hq, rfl⟩ := List.mem_map.mp hx
  exact (h.prime q hq).pos

/-- **Congruence modulo every prime** is congruence modulo the product. -/
theorem modEq_prod_of_forall (h : DistinctPrimes moduli) {a b : ℤ}
    (hab : ∀ q ∈ moduli, (a : ZMod q.value) = b) : a ≡ b [ZMOD modulusProduct moduli] := by
  have hco : moduli.Pairwise (Function.onFun Nat.Coprime Modulus.value) :=
    h.nodup.imp_of_mem fun hq hr hne => h.coprime hq hr hne
  have hdvd : (b - a).natAbs ≡ 0 [MOD modulusProduct moduli] := by
    refine (Nat.modEq_list_map_prod_iff hco).mpr fun q hq => ?_
    have hzmod := (ZMod.intCast_eq_intCast_iff_dvd_sub a b q.value).mp (hab q hq)
    exact Nat.modEq_zero_iff_dvd.mpr (Int.natCast_dvd.mp hzmod)
  exact Int.modEq_iff_dvd.mpr (Int.natCast_dvd.mpr (Nat.modEq_zero_iff_dvd.mp hdvd))

theorem eq_mul_erase (hq : q ∈ moduli) :
    modulusProduct moduli = q.value * modulusProduct (moduli.erase q) :=
  (List.prod_map_erase Modulus.value hq).symm

/-- The cofactor of a prime is the product of the other primes. -/
theorem cofactor_eq (h : DistinctPrimes moduli) (hq : q ∈ moduli) :
    modulusProduct moduli / q.value = modulusProduct (moduli.erase q) := by
  rw [eq_mul_erase hq, Nat.mul_div_cancel_left _ (h.prime q hq).pos]

/-- A prime divides the cofactors of the others. -/
theorem cast_cofactor_of_ne (h : DistinctPrimes moduli) {r : Modulus} (hq : q ∈ moduli)
    (hr : r ∈ moduli) (hne : r ≠ q) :
    ((modulusProduct moduli / r.value : ℕ) : ZMod q.value) = 0 := by
  have hmem : q ∈ moduli.erase r := (List.mem_erase_of_ne hne.symm).mpr hq
  rw [h.cofactor_eq hr, ZMod.natCast_eq_zero_iff]
  exact List.dvd_prod (List.mem_map_of_mem hmem)

/-- A prime does not divide its own cofactor. -/
theorem cast_cofactor_ne_zero (h : DistinctPrimes moduli) (hq : q ∈ moduli) :
    ((modulusProduct moduli / q.value : ℕ) : ZMod q.value) ≠ 0 := by
  rw [h.cofactor_eq hq, Ne, ZMod.natCast_eq_zero_iff]
  intro hdvd
  obtain ⟨x, hx, hdvdx⟩ := (h.prime q hq).prime.dvd_prod_iff.mp hdvd
  obtain ⟨r, hr, rfl⟩ := List.mem_map.mp hx
  have hne : r ≠ q := fun heq => List.Nodup.not_mem_erase h.nodup (heq ▸ hr)
  have hco := h.coprime hq (List.mem_of_mem_erase hr) hne.symm
  exact (h.prime q hq).ne_one (Nat.eq_one_of_dvd_coprimes hco dvd_rfl hdvdx)

end DistinctPrimes

namespace Reconstruction

variable {moduli : List Modulus} {q : Modulus}

/-! ### The weighted sum -/

/-- The term of a modulus in the sum over the residues of `c`. -/
def termOf (moduli : List Modulus) (c : ℤ) (q : Modulus) : ℕ :=
  term (q.reduce c) q (modulusProduct moduli / q.value)
    (q.inv (modulusProduct moduli / q.value % q.value))

theorem weightedSum_ofModuli (moduli : List Modulus) (c : ℤ) :
    (ofModuli moduli).weightedSum (moduli.map fun q => q.reduce c) =
      (moduli.map (termOf moduli c)).sum := by
  have hinverses : (ofModuli moduli).inverses = moduli.map fun q =>
      q.inv (modulusProduct moduli / q.value % q.value) := by
    simp [ofModuli, modulusProduct, List.zipWith_map_left]
  have hlists : ((moduli.map fun q => q.reduce c).zip moduli).zip
        ((ofModuli moduli).cofactors.zip (ofModuli moduli).inverses) =
      moduli.map fun q => ((q.reduce c, q), modulusProduct moduli / q.value,
        q.inv (modulusProduct moduli / q.value % q.value)) := by
    rw [hinverses]
    simp [ofModuli, modulusProduct, List.zip, List.zipWith_map_left,
      List.zipWith_map_right]
  rw [weightedSum, show (ofModuli moduli).moduli = moduli from rfl, hlists, List.foldl_map,
    List.sum_eq_foldl, List.foldl_map]
  rfl

/-- **Modulo one of the primes** the weighted sum is the integer the residues come from. -/
theorem cast_weightedSum (h : DistinctPrimes moduli) (c : ℤ) (hq : q ∈ moduli) :
    (((ofModuli moduli).weightedSum (moduli.map fun q => q.reduce c) : ℕ) : ZMod q.value) = c := by
  have hother : ∀ r, r ≠ q → r ∈ moduli → ((termOf moduli c r : ℕ) : ZMod q.value) = 0 := by
    intro r hne hr
    rw [termOf, term, Nat.cast_mul, h.cast_cofactor_of_ne hq hr hne, zero_mul]
  have hown : ((termOf moduli c q : ℕ) : ZMod q.value) = c := by
    have : Fact q.value.Prime := ⟨h.prime q hq⟩
    have hcofactor := h.cast_cofactor_ne_zero hq
    have hsmall := h.small q hq
    rw [termOf, term, Nat.cast_mul, q.cast_mul, q.cast_reduce (h.prime q hq).pos,
      q.cast_inv (by omega) (by rwa [ZMod.natCast_mod]), ZMod.natCast_mod]
    field_simp
  rw [weightedSum_ofModuli, Nat.cast_list_sum, List.map_map,
    List.sum_map_eq_nsmul_single q (Nat.cast ∘ termOf moduli c) hother,
    List.count_eq_one_of_mem h.nodup hq, one_nsmul]
  exact hown

/-! ### The centred integer -/

theorem centered_isCentered (r : Reconstruction) {x : ℕ} (hx : x < r.product) :
    IsCentered r.product x (r.centered x) := by
  unfold centered
  split
  · refine ⟨by omega, by omega, ?_⟩
    exact Int.modEq_iff_dvd.mpr ⟨1, by ring⟩
  · exact ⟨by omega, by omega, Int.ModEq.refl _⟩

/-- The weighted sum of the residues of an integer gives its centred representative. -/
theorem isCentered_weightedSum (h : DistinctPrimes moduli) (c : ℤ) :
    IsCentered (modulusProduct moduli) c
      ((ofModuli moduli).centered
        ((ofModuli moduli).weightedSum (moduli.map fun q => q.reduce c) %
          modulusProduct moduli)) := by
  obtain ⟨hlow, hhigh, hmod⟩ :=
    (ofModuli moduli).centered_isCentered (Nat.mod_lt _ h.modulusProduct_pos)
  refine ⟨hlow, hhigh, hmod.trans ?_⟩
  rw [Int.natCast_mod]
  refine Int.mod_modEq _ _ |>.trans (h.modEq_prod_of_forall fun q hq => ?_)
  rw [Int.cast_natCast, cast_weightedSum h c hq]

/-- **Reconstruction from the residues of an integer** gives its centred representative. -/
theorem isCentered_compose (h : DistinctPrimes moduli) (c : ℤ) :
    IsCentered (modulusProduct moduli) c
      ((ofModuli moduli).compose (moduli.map fun q => q.reduce c)) := by
  unfold compose
  split
  · next q hsingle =>
      -- the list has one member, whose product is the member itself
      have hmoduli : moduli = [q] := hsingle
      subst hmoduli
      have hmem : q ∈ [q] := List.mem_singleton.mpr rfl
      have hcanonical := q.reduce_lt (h.prime q hmem).pos c
      have hsmall := h.small q hmem
      have hproduct : modulusProduct [q] = q.value := by simp [modulusProduct]
      rw [hproduct]
      refine ⟨q.lt_two_mul_center hsmall hcanonical, q.two_mul_center_le hsmall hcanonical, ?_⟩
      refine (ZMod.intCast_eq_intCast_iff _ _ _).mp ?_
      exact (q.cast_center hsmall hcanonical).trans (q.cast_reduce (h.prime q hmem).pos c)
  · exact isCentered_weightedSum h c

/-! ### Rows of residues -/

/-- **`z` has the given residues** and lies in `(-Q/2, Q/2]`. -/
structure Represents (moduli : List Modulus) (row : List ℕ) (z : ℤ) : Prop where
  lt_two_mul : -(modulusProduct moduli : ℤ) < 2 * z
  two_mul_le : 2 * z ≤ modulusProduct moduli
  residues : List.Forall₂ (fun (x : ℕ) (q : Modulus) => z ≡ x [ZMOD q.value]) row moduli

/-- A row of canonical residues. -/
def CanonicalRow (moduli : List Modulus) (row : List ℕ) : Prop :=
  List.Forall₂ (fun x q => x < q.value) row moduli

/-- The centred representative of an integer is what its residues determine. -/
theorem represents_map_iff (h : DistinctPrimes moduli) {c z : ℤ} :
    Represents moduli (moduli.map fun q => q.reduce c) z ↔ IsCentered (modulusProduct moduli) c z := by
  have hresidues : List.Forall₂ (fun (x : ℕ) (q : Modulus) => z ≡ x [ZMOD q.value])
      (moduli.map fun q => q.reduce c) moduli ↔ ∀ q ∈ moduli, (z : ZMod q.value) = c := by
    rw [List.forall₂_map_left_iff, List.forall₂_same]
    refine forall₂_congr fun q hq => ?_
    rw [← ZMod.intCast_eq_intCast_iff, Int.cast_natCast, q.cast_reduce (h.prime q hq).pos]
  constructor
  · rintro ⟨hlow, hhigh, hrow⟩
    exact ⟨hlow, hhigh, h.modEq_prod_of_forall (hresidues.mp hrow)⟩
  · rintro ⟨hlow, hhigh, hmod⟩
    refine ⟨hlow, hhigh, hresidues.mpr fun q hq => (ZMod.intCast_eq_intCast_iff _ _ _).mpr ?_⟩
    exact hmod.of_dvd (Int.natCast_dvd_natCast.mpr (List.dvd_prod (List.mem_map_of_mem hq)))

/-- Congruent integers have the same residue. -/
theorem reduce_eq_of_modEq {c d : ℕ} (h : c ≡ d [MOD q.value]) : q.reduce c = q.reduce d :=
  congrArg Int.toNat (Int.natCast_modEq_iff.mpr h)

/-- **Every row of canonical residues** is the row of an integer: the induction adds one prime, which
the product of the others does not contain. -/
theorem exists_row_eq {row : List ℕ} (h : DistinctPrimes moduli) (hrow : CanonicalRow moduli row) :
    ∃ c : ℕ, row = moduli.map fun q => q.reduce c := by
  induction hrow with
  | nil => exact ⟨0, rfl⟩
  | @cons x q row moduli hx _ ih =>
      obtain ⟨c, rfl⟩ := ih (h.sublist (List.sublist_cons_self q moduli))
      have hcoprime : Nat.Coprime q.value (modulusProduct moduli) := by
        refine Nat.coprime_list_prod_right_iff.mpr fun y hy => ?_
        obtain ⟨r, hr, rfl⟩ := List.mem_map.mp hy
        have hne : q ≠ r := fun heq => (List.nodup_cons.mp h.nodup).1 (heq ▸ hr)
        exact h.coprime List.mem_cons_self (List.mem_cons_of_mem q hr) hne
      -- the new integer has the residue `x` and agrees with the old one modulo the other primes
      obtain ⟨d, hdq, hdc⟩ := Nat.chineseRemainder hcoprime x c
      refine ⟨d, ?_⟩
      rw [List.map_cons, reduce_eq_of_modEq hdq, q.reduce_natCast hx]
      refine congrArg (x :: ·) (List.map_congr_left fun r hr => reduce_eq_of_modEq ?_)
      exact (hdc.of_dvd (List.dvd_prod (List.mem_map_of_mem hr))).symm

/-- **What reconstruction returns** over distinct primes: from a row of canonical residues the one
integer of the centred range that has them, by the shortcut for a single prime as by the weighted sum,
and from the residues of an integer of that range the integer. -/
theorem compose_represents (moduli : List Modulus) (h : DistinctPrimes moduli) :
    (∀ row, CanonicalRow moduli row →
      Represents moduli row ((ofModuli moduli).compose row) ∧
      (∀ z, Represents moduli row z → z = (ofModuli moduli).compose row) ∧
      (ofModuli moduli).compose row = (ofModuli moduli).centered
        ((ofModuli moduli).weightedSum row % (ofModuli moduli).product)) ∧
    ∀ v : ℤ, -(modulusProduct moduli : ℤ) < 2 * v → 2 * v ≤ modulusProduct moduli →
      (ofModuli moduli).compose (moduli.map fun q => q.reduce v) = v := by
  refine ⟨fun row hrow => ?_, fun v hlow hhigh => ?_⟩
  · -- the row is that of an integer, whose centred representative both paths return
    obtain ⟨c, rfl⟩ := exists_row_eq h hrow
    have hcompose := isCentered_compose h c
    refine ⟨(represents_map_iff h).mpr hcompose, fun z hz => ?_, ?_⟩
    · exact ((represents_map_iff h).mp hz).unique hcompose
    · exact hcompose.unique (isCentered_weightedSum h c)
  · exact (isCentered_compose h v).unique (isCentered_self hlow hhigh)

/-- The residues 2, 0 and 10 modulo 5, 7 and 11 are those of -133, and a single prime has its shortcut. -/
theorem compose_represents_three :
    (ofModuli [⟨5⟩, ⟨7⟩, ⟨11⟩]).compose [2, 0, 10] = -133 ∧
      (ofModuli [⟨7⟩]).compose [4] = -3 := by
  have hthree : DistinctPrimes [⟨5⟩, ⟨7⟩, ⟨11⟩] := ⟨by decide, by decide +kernel, by decide⟩
  have hone : DistinctPrimes [⟨7⟩] := ⟨by decide, by decide +kernel, by decide⟩
  have hrow : CanonicalRow [⟨7⟩] [4] := .cons (by decide) .nil
  have hresidues : [2, 0, 10] = [⟨5⟩, ⟨7⟩, ⟨11⟩].map fun q : Modulus => q.reduce (-133) := by decide
  have hsingle : Represents [⟨7⟩] [4] (-3) := ⟨by decide, by decide, .cons (by decide) .nil⟩
  refine ⟨?_, (((compose_represents _ hone).1 _ hrow).2.1 _ hsingle).symm⟩
  rw [hresidues]
  exact (compose_represents _ hthree).2 (-133) (by decide) (by decide)

/-! ### Polynomials -/

variable {n k : ℕ} {p : ResiduePoly}

/-- The residues of a coefficient, when they are those of one integer. -/
theorem row_eq (hp : p.Canonical n moduli) (hw : FitWords moduli) {c : ℤ} (hk : k < n)
    (hc : ∀ (i : ℕ) (q : Modulus), moduli[i]? = some q → p.value q i k = c) :
    row p k = moduli.map fun q => q.reduce c := by
  refine List.ext_getElem? fun i => ?_
  rw [row, List.getElem?_map, List.getElem?_map]
  cases hq : moduli[i]? with
  | none =>
      have hle := List.getElem?_eq_none_iff.mp hq
      rw [List.getElem?_eq_none (hp.length_eq ▸ hle)]
      rfl
  | some q =>
      have hpos := (hw q (List.mem_of_getElem? hq)).1
      have hentry : (p.limb i).getD k 0 = q.reduce c :=
        q.eq_of_cast_eq ((hp.isVector i q hq).lt k hk) (q.reduce_lt hpos c)
          ((hc i q hq).trans (q.cast_reduce hpos c).symm)
      rw [hp.getElem? hq, Option.map_some, Option.map_some, hentry]

/-- **Reconstruction of a polynomial** gives the centred representative of every coefficient. -/
theorem isCentered_composePoly (h : DistinctPrimes moduli) (hp : p.Canonical n moduli)
    {c : ℕ → ℤ} (hk : k < n)
    (hc : ∀ (i : ℕ) (q : Modulus), moduli[i]? = some q → p.value q i k = c k) :
    IsCentered (modulusProduct moduli) (c k) (((ofModuli moduli).composePoly p).getD k 0) := by
  have hk' : k < p.degree := hp.degree_eq ▸ hk
  rw [composePoly, getD_ofFn _ hk', row_eq hp h.fitWords hk hc]
  exact isCentered_compose h (c k)

end Reconstruction

end EncryptedReals

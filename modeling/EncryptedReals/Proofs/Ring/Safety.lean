import EncryptedReals.Proofs.Ring.Automorphism

/-!
# Reads in range and sums in a word

The operations on vectors are total here: an entry that is not there reads as 0, a vector that is too
short is combined as far as it goes, and sums wrap around.  This file says when none of that happens.
Each operation gets a condition that follows its recursion and collects what the operation asks of
every entry it reads and of every two entries it adds or subtracts, and one lemma: operands of the
right shape meet the condition, and the result has the right shape again.

## Main Definitions

* `Meet` — two vectors are combined entry by entry, with nothing left over
* `Modulus.SumFits`, `Modulus.DifferenceFits`, `Modulus.ComplementFits` — no step leaves a word
* `Transform.ForwardSafe`, `Transform.InverseSafe` — the transforms stay within their tables and their
  vectors
* `ResiduePoly.Shaped` — limbs of the right number and length

## Main results

* `Transform.Lawful.forwardSafe`, `Transform.Lawful.inverseSafe` — transforms are safe
* `ResiduePoly.Sized.add`, `ResiduePoly.Sized.mul_iff` — the shapes of sums and products with anything
* `ResiduePoly.Shaped.add`, `ResiduePoly.Shaped.forward`, … — operations on polynomials are safe

## Design Notes

Lengths decide which entries are read, and sums fit where residues are canonical.  The two are proved
together, under the proposition `strict`: where it holds, residues are assumed canonical and every sum
has to fit.  With `False` for it only lengths are assumed, and only reads are asked about.
-/

namespace EncryptedReals

/-- **Two vectors are combined entry by entry**: they have one length, so that no entry is left over,
and the relation holds of the entries that meet. -/
structure Meet (R : ℕ → ℕ → Prop) (a b : Array ℕ) : Prop where
  size_eq : a.size = b.size
  entries : ∀ i < a.size, R (a.getD i 0) (b.getD i 0)

namespace Modulus

variable {strict : Prop} {q : Modulus} {n : ℕ} {a b : Array ℕ}

/-! ### Words -/

/-- The sum of two entries is a word. -/
def SumFits (strict : Prop) (x y : ℕ) : Prop :=
  strict → x + y < 2 ^ 64

/-- The difference of two entries is not negative, or it is a word after the modulus is added. -/
def DifferenceFits (strict : Prop) (q : Modulus) (x y : ℕ) : Prop :=
  strict → y ≤ x ∨ y ≤ q.value ∧ q.value - y + x < 2 ^ 64

/-- An entry can be taken off the modulus. -/
def ComplementFits (strict : Prop) (q : Modulus) (x : ℕ) : Prop :=
  strict → x ≤ q.value

/-- **A limb of `n` entries**, which are canonical where residues are assumed to be. -/
structure IsLimb (strict : Prop) (q : Modulus) (n : ℕ) (a : Array ℕ) : Prop where
  size_eq : a.size = n
  isVector : strict → q.IsVector n a

theorem IsVector.isLimb (ha : q.IsVector n a) : q.IsLimb strict n a :=
  ⟨ha.size_eq, fun _ => ha⟩

namespace IsLimb

theorem add (hq : q.value < 2 ^ 63) (ha : q.IsLimb strict n a) (hb : q.IsLimb strict n b) :
    q.IsLimb strict n (Array.zipWith q.add a b) :=
  ⟨by simp [ha.size_eq, hb.size_eq], fun hs => (ha.isVector hs).add hq (hb.isVector hs)⟩

theorem sub (hq : q.value < 2 ^ 63) (ha : q.IsLimb strict n a) (hb : q.IsLimb strict n b) :
    q.IsLimb strict n (Array.zipWith q.sub a b) :=
  ⟨by simp [ha.size_eq, hb.size_eq], fun hs => (ha.isVector hs).sub hq (hb.isVector hs)⟩

theorem lower (ha : q.IsLimb strict (2 * n) a) : q.IsLimb strict n (a.extract 0 n) := by
  refine ⟨?_, fun hs => (ha.isVector hs).lower⟩
  rw [Array.size_extract, ha.size_eq]
  omega

theorem upper (ha : q.IsLimb strict (2 * n) a) : q.IsLimb strict n (a.extract n (2 * n)) := by
  refine ⟨?_, fun hs => (ha.isVector hs).upper⟩
  rw [Array.size_extract, ha.size_eq]
  omega

theorem append {m : ℕ} (ha : q.IsLimb strict n a) (hb : q.IsLimb strict m b) :
    q.IsLimb strict (n + m) (a ++ b) :=
  ⟨by rw [Array.size_append, ha.size_eq, hb.size_eq],
    fun hs => (ha.isVector hs).append (hb.isVector hs)⟩

/-- **Canonical entries can be added.** -/
theorem meet_sum (hq : q.value < 2 ^ 63) (ha : q.IsLimb strict n a) (hb : q.IsLimb strict n b) :
    Meet (SumFits strict) a b := by
  refine ⟨ha.size_eq.trans hb.size_eq.symm, fun i hi hs => ?_⟩
  rw [ha.size_eq] at hi
  have hai := (ha.isVector hs).lt i hi
  have hbi := (hb.isVector hs).lt i hi
  omega

/-- **Canonical entries can be subtracted.** -/
theorem meet_difference (hq : q.value < 2 ^ 63) (ha : q.IsLimb strict n a)
    (hb : q.IsLimb strict n b) : Meet (DifferenceFits strict q) a b := by
  refine ⟨ha.size_eq.trans hb.size_eq.symm, fun i hi hs => .inr ?_⟩
  rw [ha.size_eq] at hi
  have hai := (ha.isVector hs).lt i hi
  have hbi := (hb.isVector hs).lt i hi
  omega

/-- Canonical entries are below the modulus. -/
theorem complementFits (ha : q.IsLimb strict n a) {i : ℕ} (hi : i < a.size) :
    ComplementFits strict q (a.getD i 0) :=
  fun hs => ((ha.isVector hs).lt i (ha.size_eq ▸ hi)).le

end IsLimb

end Modulus

/-! ### Transforms -/

namespace Transform

/-- **The forward recursion stays in range**: a node that splits has its entry in the table and a
vector of two halves, whose entries can be added and subtracted. -/
def SplitSafe (strict : Prop) (q : Modulus) (roots : Array ℕ) :
    (depth node : ℕ) → Array ℕ → Prop
  | 0, _, _ => True
  | depth + 1, node, a =>
    let half := 2 ^ depth
    let low := a.extract 0 half
    let high := (a.extract half (2 * half)).map fun x => q.mul x (roots.getD node 0)
    node < roots.size ∧ 2 * half ≤ a.size ∧ Meet (Modulus.SumFits strict) low high ∧
      Meet (q.DifferenceFits strict) low high ∧
      SplitSafe strict q roots depth (2 * node) (Array.zipWith q.add low high) ∧
      SplitSafe strict q roots depth (2 * node + 1) (Array.zipWith q.sub low high)

/-- **The inverse recursion stays in range.** -/
def MergeSafe (strict : Prop) (q : Modulus) (inverseRoots : Array ℕ) :
    (depth node : ℕ) → Array ℕ → Prop
  | 0, _, _ => True
  | depth + 1, node, a =>
    let half := 2 ^ depth
    let low := merge q inverseRoots depth (2 * node) (a.extract 0 half)
    let high := merge q inverseRoots depth (2 * node + 1) (a.extract half (2 * half))
    node < inverseRoots.size ∧ 2 * half ≤ a.size ∧
      MergeSafe strict q inverseRoots depth (2 * node) (a.extract 0 half) ∧
      MergeSafe strict q inverseRoots depth (2 * node + 1) (a.extract half (2 * half)) ∧
      Meet (Modulus.SumFits strict) low high ∧ Meet (q.DifferenceFits strict) low high

/-- The forward transform is given a vector of its length, and stays in range. -/
def ForwardSafe (strict : Prop) (t : Transform) (a : Array ℕ) : Prop :=
  a.size = t.size ∧ SplitSafe strict t.modulus t.roots t.logSize 1 a

/-- The inverse transform is given a vector of its length, and stays in range. -/
def InverseSafe (strict : Prop) (t : Transform) (a : Array ℕ) : Prop :=
  a.size = t.size ∧ MergeSafe strict t.modulus t.inverseRoots t.logSize 1 a

namespace Lawful

variable {strict : Prop} {t : Transform} {psi : ZMod t.modulus.value} {m : ℕ} {a : Array ℕ}

/-- The table of a lawful transform is long enough: a power of the root is not 0. -/
theorem lt_size_roots (h : t.Lawful psi) (hm : m < t.size) : m < t.roots.size := by
  have : Fact t.modulus.value.Prime := ⟨h.prime⟩
  by_contra hle
  have hzero : psi ^ bitReverse t.logSize m = 0 := by
    rw [← h.roots m hm, Modulus.view, Array.getD_eq_getD_getElem?,
      Array.getElem?_eq_none (not_lt.mp hle), Option.getD_none, Nat.cast_zero]
  have hpow := h.inverseRoots m hm
  rw [hzero, mul_zero] at hpow
  exact zero_ne_one hpow

theorem lt_size_inverseRoots (h : t.Lawful psi) (hm : m < t.size) : m < t.inverseRoots.size := by
  have : Fact t.modulus.value.Prime := ⟨h.prime⟩
  by_contra hle
  have hpow := h.inverseRoots m hm
  rw [Modulus.view, Array.getD_eq_getD_getElem?, Array.getElem?_eq_none (not_lt.mp hle),
    Option.getD_none, Nat.cast_zero, zero_mul] at hpow
  exact zero_ne_one hpow

/-- **The forward recursion is safe** below every node of the tree. -/
theorem splitSafe (h : t.Lawful psi) :
    ∀ {d m : ℕ} {a : Array ℕ}, (m + 1) * 2 ^ d ≤ 2 ^ (t.logSize + 1) →
      t.modulus.IsLimb strict (2 ^ d) a →
        SplitSafe strict t.modulus t.roots d m a ∧
          t.modulus.IsLimb strict (2 ^ d) (split t.modulus t.roots d m a) := by
  intro d
  induction d with
  | zero => exact fun _ ha => ⟨trivial, ha⟩
  | succ d ih =>
      intro m a hm ha
      have hleft : (2 * m + 1) * 2 ^ d ≤ 2 ^ (t.logSize + 1) := child_le (Nat.zero_le 1) hm
      have hright : (2 * m + 1 + 1) * 2 ^ d ≤ 2 ^ (t.logSize + 1) := child_le le_rfl hm
      rw [pow_succ'] at ha ⊢
      have hhigh : t.modulus.IsLimb strict (2 ^ d) ((a.extract (2 ^ d) (2 * 2 ^ d)).map
          fun x => t.modulus.mul x (t.roots.getD m 0)) :=
        (Modulus.IsVector.scale h.pos ha.upper.size_eq (t.roots.getD m 0)).isLimb
      obtain ⟨hsafe, hsum⟩ := ih hleft (ha.lower.add h.small hhigh)
      obtain ⟨hsafe', hdifference⟩ := ih hright (ha.lower.sub h.small hhigh)
      refine ⟨⟨h.lt_size_roots (h.lt_size hm), ha.size_eq.ge, ha.lower.meet_sum h.small hhigh,
        ha.lower.meet_difference h.small hhigh, hsafe, hsafe'⟩, ?_⟩
      rw [two_mul (2 ^ d)]
      exact hsum.append hdifference

/-- **The inverse recursion is safe** below every node of the tree. -/
theorem mergeSafe (h : t.Lawful psi) :
    ∀ {d m : ℕ} {a : Array ℕ}, (m + 1) * 2 ^ d ≤ 2 ^ (t.logSize + 1) →
      t.modulus.IsLimb strict (2 ^ d) a →
        MergeSafe strict t.modulus t.inverseRoots d m a ∧
          t.modulus.IsLimb strict (2 ^ d) (merge t.modulus t.inverseRoots d m a) := by
  intro d
  induction d with
  | zero => exact fun _ ha => ⟨trivial, ha⟩
  | succ d ih =>
      intro m a hm ha
      have hleft : (2 * m + 1) * 2 ^ d ≤ 2 ^ (t.logSize + 1) := child_le (Nat.zero_le 1) hm
      have hright : (2 * m + 1 + 1) * 2 ^ d ≤ 2 ^ (t.logSize + 1) := child_le le_rfl hm
      rw [pow_succ'] at ha ⊢
      obtain ⟨hsafe, hlow⟩ := ih hleft ha.lower
      obtain ⟨hsafe', hhigh⟩ := ih hright ha.upper
      refine ⟨⟨h.lt_size_inverseRoots (h.lt_size hm), ha.size_eq.ge, hsafe, hsafe',
        hlow.meet_sum h.small hhigh, hlow.meet_difference h.small hhigh⟩, ?_⟩
      have hscaled := Modulus.IsVector.scale h.pos (hlow.sub h.small hhigh).size_eq
        (t.inverseRoots.getD m 0)
      rw [Array.map_zipWith] at hscaled
      rw [two_mul (2 ^ d)]
      exact (hlow.add h.small hhigh).append hscaled.isLimb

/-- **The forward transform is safe** on a limb of its length, and gives a limb. -/
theorem forwardSafe (h : t.Lawful psi) (ha : t.modulus.IsLimb strict t.size a) :
    t.ForwardSafe strict a ∧ t.modulus.IsLimb strict t.size (t.forward a) := by
  rw [ForwardSafe, forward_eq ha.size_eq]
  refine ⟨⟨ha.size_eq, ?_⟩, ?_⟩ <;> rw [h.size_eq] at ha
  · exact (h.splitSafe (by rw [pow_succ]; omega) ha).1
  · rw [h.size_eq]
    exact (h.splitSafe (by rw [pow_succ]; omega) ha).2

/-- **The inverse transform is safe** on a limb of its length, and gives canonical residues. -/
theorem inverseSafe (h : t.Lawful psi) (ha : t.modulus.IsLimb strict t.size a) :
    t.InverseSafe strict a ∧ t.modulus.IsVector t.size (t.inverse a) := by
  rw [InverseSafe, inverse_eq ha.size_eq]
  refine ⟨⟨ha.size_eq, ?_⟩, ?_⟩ <;> rw [h.size_eq] at ha
  · exact (h.mergeSafe (by rw [pow_succ]; omega) ha).1
  · rw [h.size_eq]
    exact Modulus.IsVector.scale h.pos (h.mergeSafe (by rw [pow_succ]; omega) ha).2.size_eq _

end Lawful

end Transform

/-! ### Polynomials -/

namespace ResiduePoly

/-- **The declared shape is the actual one**: as many limbs as given, all of the declared length. -/
structure Sized (n l : ℕ) (p : ResiduePoly) : Prop where
  degree_eq : p.degree = n
  length_eq : p.limbs.length = l
  size_eq : ∀ a ∈ p.limbs, a.size = n

/-- **A polynomial of the right shape**, with canonical residues where they are assumed to be. -/
structure Shaped (strict : Prop) (n : ℕ) (moduli : List Modulus) (p : ResiduePoly) : Prop where
  sized : p.Sized n moduli.length
  canonical : strict → p.Canonical n moduli

/-- **Two polynomials are combined limb by limb**: both have a limb for each modulus, and the two limbs
are combined entry by entry. -/
structure MeetLimbs (R : Modulus → ℕ → ℕ → Prop) (moduli : List Modulus) (p r : ResiduePoly) :
    Prop where
  left : p.limbs.length = moduli.length
  right : r.limbs.length = moduli.length
  limbs : ∀ (i : ℕ) (q : Modulus), moduli[i]? = some q → Meet (R q) (p.limb i) (r.limb i)

/-- A sum is safe. -/
def AddSafe (strict : Prop) (moduli : List Modulus) (p r : ResiduePoly) : Prop :=
  MeetLimbs (fun _ => Modulus.SumFits strict) moduli p r

/-- A product is safe: its limbs are paired without a rest, and products are taken in wide words. -/
def MulSafe (moduli : List Modulus) (p r : ResiduePoly) : Prop :=
  MeetLimbs (fun _ _ _ => True) moduli p r

/-- Adding a product to an accumulator is safe. -/
def AddMulSafe (strict : Prop) (moduli : List Modulus) (acc p r : ResiduePoly) : Prop :=
  MulSafe moduli p r ∧ AddSafe strict moduli acc (p.mul moduli r)

/-- The negation is safe. -/
def NegSafe (strict : Prop) (moduli : List Modulus) (p : ResiduePoly) : Prop :=
  p.limbs.length = moduli.length ∧ ∀ (i : ℕ) (q : Modulus), moduli[i]? = some q →
    ∀ k < (p.limb i).size, q.ComplementFits strict ((p.limb i).getD k 0)

/-- The forward transform of every limb is safe, and every limb has one. -/
def ForwardSafe (strict : Prop) (transforms : List Transform) (p : ResiduePoly) : Prop :=
  ∀ i < p.limbs.length, ∃ t, transforms[i]? = some t ∧ t.ForwardSafe strict (p.limb i)

/-- The inverse transform of every limb is safe, and every limb has one. -/
def InverseSafe (strict : Prop) (transforms : List Transform) (p : ResiduePoly) : Prop :=
  ∀ i < p.limbs.length, ∃ t, transforms[i]? = some t ∧ t.InverseSafe strict (p.limb i)

variable {strict : Prop} {n l i : ℕ} {q : Modulus} {moduli : List Modulus} {p r : ResiduePoly}
  {transforms : List Transform}

/-! ### Shapes -/

theorem length_limbs_mul (moduli : List Modulus) (p r : ResiduePoly) :
    (p.mul moduli r).limbs.length = min p.limbs.length (min r.limbs.length moduli.length) := by
  rw [mul, List.length_map, List.length_zip, List.length_zip]

/-- A limb of a product is as long as the shorter operand's. -/
theorem size_limb_mul (p r : ResiduePoly) (hi : i < moduli.length) :
    ((p.mul moduli r).limb i).size = min (p.limb i).size (r.limb i).size := by
  rw [limb, limb, limb, List.getD_eq_getElem?_getD, List.getD_eq_getElem?_getD,
    List.getD_eq_getElem?_getD, mul, List.getElem?_map, getElem?_zip, getElem?_zip,
    List.getElem?_eq_getElem hi]
  cases p.limbs[i]? <;> cases r.limbs[i]? <;> simp [mulEntries]

namespace Sized

theorem size_limb (hp : p.Sized n l) (hi : i < l) : (p.limb i).size = n := by
  rw [← hp.length_eq] at hi
  exact hp.size_eq _ (List.mem_of_getElem? (getElem?_limbs hi))

/-- The shape can be read off the limbs by their indices. -/
theorem of_limb (hdegree : p.degree = n) (hlength : p.limbs.length = l)
    (h : ∀ i < l, (p.limb i).size = n) : p.Sized n l := by
  refine ⟨hdegree, hlength, fun a ha => ?_⟩
  obtain ⟨i, hi⟩ := List.mem_iff_getElem?.mp ha
  rw [← limb_eq_of_getElem? hi]
  exact h i (hlength ▸ (List.getElem?_eq_some_iff.mp hi).1)

/-- Limbs that something is laid over keep their number and their length. -/
theorem overlay_limbs {β : Type} (hp : p.Sized n l) {f : Array ℕ → β → Array ℕ}
    (hf : ∀ a x, (f a x).size = a.size) (xs : List β) :
    Sized n l { p with limbs := overlay f p.limbs xs } := by
  refine ⟨hp.degree_eq, (length_overlay _ _ _).trans hp.length_eq, ?_⟩
  exact forall_mem_overlay (Q := fun _ => True) (fun a x ha _ => (hf a x).trans ha) hp.size_eq
    fun _ _ => trivial

/-- A sum has the shape of its left operand, whatever the right one is. -/
theorem add (hp : p.Sized n l) (moduli : List Modulus) (r : ResiduePoly) :
    (p.add moduli r).Sized n l :=
  hp.overlay_limbs (fun _ _ => Array.size_mapIdx) _

/-- So has a sum with a product. -/
theorem addMul (hp : p.Sized n l) (moduli : List Modulus) (r s : ResiduePoly) :
    (p.addMul moduli r s).Sized n l :=
  hp.overlay_limbs (fun _ _ => Array.size_mapIdx) _

/-- **A product is full exactly when both operands reach far enough.** -/
theorem mul_iff (hp : p.Sized n moduli.length) : (p.mul moduli r).Sized n moduli.length ↔
    moduli.length ≤ r.limbs.length ∧ ∀ i < moduli.length, n ≤ (r.limb i).size := by
  have hlength := length_limbs_mul moduli p r
  rw [hp.length_eq] at hlength
  have hsize : ∀ i < moduli.length, ((p.mul moduli r).limb i).size = min n (r.limb i).size :=
    fun i hi => by rw [size_limb_mul p r hi, hp.size_limb hi]
  constructor
  · intro hmul
    have heq := hmul.length_eq
    refine ⟨by omega, fun i hi => ?_⟩
    have hlimb := hmul.size_limb hi
    have hmin := hsize i hi
    omega
  · rintro ⟨hlimbs, hentries⟩
    refine .of_limb hp.degree_eq (by omega) fun i hi => ?_
    rw [hsize i hi, Nat.min_eq_left (hentries i hi)]

end Sized

theorem Canonical.sized (hp : p.Canonical n moduli) : p.Sized n moduli.length :=
  .of_limb hp.degree_eq hp.length_eq fun i hi =>
    (hp.isVector i _ (List.getElem?_eq_getElem hi)).size_eq

theorem Canonical.shaped (hp : p.Canonical n moduli) : p.Shaped strict n moduli :=
  ⟨hp.sized, fun _ => hp⟩

namespace Shaped

theorem isLimb (hp : p.Shaped strict n moduli) (hq : moduli[i]? = some q) :
    q.IsLimb strict n (p.limb i) :=
  ⟨hp.sized.size_limb (List.getElem?_eq_some_iff.mp hq).1,
    fun hs => (hp.canonical hs).isVector i q hq⟩

/-! ### Sums and products -/

/-- **Sums are safe.** -/
theorem add (hw : FitWords moduli) (hp : p.Shaped strict n moduli)
    (hr : r.Shaped strict n moduli) :
    AddSafe strict moduli p r ∧ (p.add moduli r).Shaped strict n moduli := by
  refine ⟨⟨hp.sized.length_eq, hr.sized.length_eq, fun i q hq => ?_⟩, hp.sized.add moduli r,
    fun hs => (hp.canonical hs).add hw (hr.canonical hs)⟩
  exact (hp.isLimb hq).meet_sum (hw q (List.mem_of_getElem? hq)).2 (hr.isLimb hq)

/-- **Products are safe.** -/
theorem mul (hw : FitWords moduli) (hp : p.Shaped strict n moduli)
    (hr : r.Shaped strict n moduli) :
    MulSafe moduli p r ∧ (p.mul moduli r).Shaped strict n moduli := by
  refine ⟨⟨hp.sized.length_eq, hr.sized.length_eq, fun i q hq => ⟨?_, fun _ _ => trivial⟩⟩,
    hp.sized.mul_iff.mpr ⟨hr.sized.length_eq.ge, fun i hi => (hr.sized.size_limb hi).ge⟩,
    fun hs => (hp.canonical hs).mul hw (hr.canonical hs)⟩
  rw [(hp.isLimb hq).size_eq, (hr.isLimb hq).size_eq]

/-- **Adding a product is safe.** -/
theorem addMul {acc : ResiduePoly} (hw : FitWords moduli) (hacc : acc.Shaped strict n moduli)
    (hp : p.Shaped strict n moduli) (hr : r.Shaped strict n moduli) :
    AddMulSafe strict moduli acc p r ∧ (acc.addMul moduli p r).Shaped strict n moduli := by
  obtain ⟨hsafe, hmul⟩ := hp.mul hw hr
  refine ⟨⟨hsafe, (hacc.add hw hmul).1⟩, hacc.sized.addMul moduli p r, fun hs => ?_⟩
  rw [addMul_eq (hacc.canonical hs) (hp.canonical hs) (hr.canonical hs)]
  exact (hacc.canonical hs).add hw (hmul.canonical hs)

/-- **Negation is safe.** -/
theorem neg (hw : FitWords moduli) (hp : p.Shaped strict n moduli) :
    NegSafe strict moduli p ∧ (p.neg moduli).Shaped strict n moduli := by
  refine ⟨⟨hp.sized.length_eq, fun i q hq k hk => (hp.isLimb hq).complementFits hk⟩,
    ⟨hp.sized.degree_eq, ?_, ?_⟩, fun hs => (hp.canonical hs).neg hw⟩
  · simp [ResiduePoly.neg, hp.sized.length_eq]
  · refine List.forall_mem_map.mpr fun x hx => ?_
    rw [Array.size_map, hp.sized.size_eq _ (List.of_mem_zip hx).1]

/-- The zero polynomial has the right shape. -/
theorem zero (hw : FitWords moduli) : (ResiduePoly.zero n moduli.length).Shaped strict n moduli :=
  (canonical_zero hw).shaped

theorem truncate (hp : p.Shaped strict n moduli) (l : ℕ) :
    (p.truncate l).Shaped strict n (moduli.take l) := by
  refine ⟨⟨hp.sized.degree_eq, ?_, fun a ha => ?_⟩, fun hs => (hp.canonical hs).truncate l⟩
  · simp [ResiduePoly.truncate, hp.sized.length_eq]
  · exact hp.sized.size_eq a (List.mem_of_mem_take ha)

/-! ### Transforms of limbs -/

/-- **Forward transforms are safe.** -/
theorem forward (hp : p.Shaped strict n moduli) (hcover : Transform.Cover n moduli transforms) :
    p.ForwardSafe strict transforms ∧ (p.forward transforms).Shaped strict n moduli := by
  have hlimbs : ∀ i < moduli.length, ∃ t, transforms[i]? = some t ∧
      t.ForwardSafe strict (p.limb i) ∧ ((p.forward transforms).limb i).size = n := by
    intro i hi
    obtain ⟨t, ht, hmodulus, hn, psi, hlawful⟩ := hcover i _ (List.getElem?_eq_getElem hi)
    have hlimb := hp.isLimb (hmodulus ▸ List.getElem?_eq_getElem hi)
    obtain ⟨hsafe, hforward⟩ := hlawful.forwardSafe (hn.symm ▸ hlimb)
    refine ⟨t, ht, hsafe, ?_⟩
    rw [limb_forward (hp.sized.length_eq ▸ hi) ht, hforward.size_eq, hn]
  refine ⟨fun i hi => ?_, .of_limb hp.sized.degree_eq ?_ fun i hi => ?_,
    fun hs => (hp.canonical hs).forward hcover⟩
  · obtain ⟨t, ht, hsafe, -⟩ := hlimbs i (hp.sized.length_eq ▸ hi)
    exact ⟨t, ht, hsafe⟩
  · rw [ResiduePoly.forward, length_overlay, hp.sized.length_eq]
  · obtain ⟨t, -, -, hsize⟩ := hlimbs i hi
    exact hsize

/-- **Inverse transforms are safe**, and give canonical residues. -/
theorem inverse (hp : p.Shaped strict n moduli) (hcover : Transform.Cover n moduli transforms) :
    p.InverseSafe strict transforms ∧ (p.inverse transforms).Canonical n moduli := by
  have hlimbs : ∀ (i : ℕ) (q : Modulus), moduli[i]? = some q → ∃ t, transforms[i]? = some t ∧
      t.InverseSafe strict (p.limb i) ∧ q.IsVector n ((p.inverse transforms).limb i) := by
    intro i q hq
    obtain ⟨t, ht, rfl, rfl, psi, hlawful⟩ := hcover i q hq
    obtain ⟨hsafe, hinverse⟩ := hlawful.inverseSafe (hp.isLimb hq)
    refine ⟨t, ht, hsafe, ?_⟩
    rw [limb_inverse (hp.sized.length_eq ▸ (List.getElem?_eq_some_iff.mp hq).1) ht]
    exact hinverse
  refine ⟨fun i hi => ?_, hp.sized.degree_eq, ?_, fun i q hq => ?_⟩
  · rw [hp.sized.length_eq] at hi
    obtain ⟨t, ht, hsafe, -⟩ := hlimbs i _ (List.getElem?_eq_getElem hi)
    exact ⟨t, ht, hsafe⟩
  · rw [ResiduePoly.inverse, length_overlay, hp.sized.length_eq]
  · obtain ⟨t, -, -, hvector⟩ := hlimbs i q hq
    exact hvector

end Shaped

end ResiduePoly

/-! ### Automorphisms -/

namespace Automorphism

/-- **The automorphism of a limb is safe**: there is one coefficient for each entry of the result, and
each of them can be negated. -/
def PermuteSafe (strict : Prop) (q : Modulus) (degree : ℕ) (a : Array ℕ) : Prop :=
  a.size = degree ∧ ∀ k < degree, q.DifferenceFits strict 0 (a.getD k 0)

/-- The automorphism of every limb is safe, and every limb has a modulus. -/
def ApplySafe (strict : Prop) (moduli : List Modulus) (p : ResiduePoly) : Prop :=
  p.limbs.length = moduli.length ∧ ∀ (i : ℕ) (q : Modulus), moduli[i]? = some q →
    PermuteSafe strict q p.degree (p.limb i)

/-- **Automorphisms are safe** on canonical residues. -/
theorem applySafe {strict : Prop} {n : ℕ} {moduli : List Modulus} {p : ResiduePoly}
    (hw : FitWords moduli) (hp : p.Canonical n moduli) : ApplySafe strict moduli p := by
  refine ⟨hp.length_eq, fun i q hq => ?_⟩
  have hvector := hp.isVector i q hq
  rw [hp.degree_eq]
  refine ⟨hvector.size_eq, fun k hk _ => .inr ?_⟩
  have hlt := hvector.lt k hk
  have hsmall := (hw q (List.mem_of_getElem? hq)).2
  omega

end Automorphism

end EncryptedReals

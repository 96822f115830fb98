import EncryptedReals.Proofs.Ring.Negacyclic
import EncryptedReals.Proofs.Ring.Roots
import EncryptedReals.Proofs.Ring.Vectors
import EncryptedReals.Ring.Transform

/-!
# The transform evaluates

A transform whose tables hold the powers of a root `psi` with `psi ^ n = -1`
(`Transform.Lawful`) takes coefficients to values: entry `j` of the forward
transform is the value at the odd power `2 * bitReverse j + 1` of `psi`
(`point`), and the inverse transform takes values back to coefficients.

Both recursions walk the same tree.  Node `m` stands for the polynomials modulo
`X ^ (2 ^ depth) - x`, where `x` is `node m`, a power of `psi` whose exponent is the
bit reversal of `m` with one bit more than an index has.  In that width the root
is node 1 with `x = -1`, the leaves are the nodes from `n` on, and the two
children of a node carry the two square roots of its `x`.

## Main Definitions

* `Transform.Lawful` — the tables hold what the transform needs
* `Transform.point` — the points that the transform evaluates at

## Main results

* `view_forward` — the forward transform evaluates
* `view_inverse_of_eval` — the inverse transform interpolates
* `inverse_forward`, `forward_inverse` — they are inverse to each other
* `eq_of_eval_point_eq` — values at the points determine the coefficients
* `make_eq_ofRoot`, `exists_make`, `lawful_of_make` — transforms are made, and are lawful
-/

namespace EncryptedReals.Transform

open Negacyclic

/-! ### The tree -/

section Tree

variable {q : Modulus} {psi : ZMod q.value} {k : ℕ}

/-- The power of `X` that polynomials are taken modulo at a node, as a value. -/
def node (k : ℕ) (psi : ZMod q.value) (m : ℕ) : ZMod q.value :=
  psi ^ bitReverse (k + 1) m

theorem node_two_mul (m : ℕ) : node k psi (2 * m) = psi ^ bitReverse k m := by
  rw [node, bitReverse_two_mul]

theorem node_two_mul_add_one (hpsi : psi ^ 2 ^ k = -1) (m : ℕ) :
    node k psi (2 * m + 1) = -psi ^ bitReverse k m := by
  rw [node, bitReverse_two_mul_add_one, pow_add, hpsi, neg_one_mul]

/-- The table entry of a node is a square root of its value. -/
theorem sq_pow_bitReverse {m : ℕ} (hm : m < 2 ^ k) :
    (psi ^ bitReverse k m) ^ 2 = node k psi m := by
  rw [node, bitReverse_succ hm, ← pow_mul, mul_comm]

/-- The points below a node are roots of the polynomial that the node stands for. -/
theorem node_pow (hpsi : psi ^ 2 ^ k = -1) :
    ∀ {d m j : ℕ}, (m + 1) * 2 ^ d ≤ 2 ^ (k + 1) → j < 2 ^ d →
      node k psi (m * 2 ^ d + j) ^ 2 ^ d = node k psi m := by
  intro d
  induction d with
  | zero =>
      intro m j _ hj
      have hzero : j = 0 := by simpa using hj
      rw [hzero, pow_zero, mul_one, add_zero, pow_one]
  | succ d ih =>
      intro m j hm hj
      have hhalf : (m + 1) * 2 ^ d ≤ 2 ^ k := by
        rw [pow_succ, pow_succ, ← mul_assoc] at hm
        omega
      have hmk : m < 2 ^ k := by
        have hpos : 0 < 2 ^ d := by positivity
        nlinarith
      rw [pow_succ 2 d] at hj
      rw [pow_succ 2 d, pow_mul]
      rcases Nat.lt_or_ge j (2 ^ d) with hlow | hhigh
      · have hchild := ih (m := 2 * m) (j := j) (by rw [pow_succ]; nlinarith) hlow
        rw [show m * (2 ^ d * 2) + j = 2 * m * 2 ^ d + j by ring, hchild, node_two_mul,
          sq_pow_bitReverse hmk]
      · have hchild := ih (m := 2 * m + 1) (j := j - 2 ^ d) (by rw [pow_succ]; nlinarith) (by omega)
        have hindex : m * (2 ^ d * 2) + j = (2 * m + 1) * 2 ^ d + (j - 2 ^ d) := by
          zify [hhigh]
          ring
        rw [hindex, hchild, node_two_mul_add_one hpsi, neg_sq, sq_pow_bitReverse hmk]

/-- The value of a polynomial through its lower and its upper half. -/
theorem eval_halves {R : Type*} [CommRing R] (h : ℕ) (c : ℕ → R) (x : R) :
    eval (2 * h) c x = eval h c x + x ^ h * eval h (fun i => c (h + i)) x := by
  simp only [eval, two_mul, Finset.sum_range_add, Finset.mul_sum, pow_add]
  congr 1
  exact Finset.sum_congr rfl fun i _ => by ring

/-- Where `X ^ h` takes the value `w`, a polynomial is its lower half plus `w`
times its upper half. -/
theorem eval_halves_of_pow {R : Type*} [CommRing R] {h : ℕ} {x w : R} (hw : x ^ h = w)
    (c : ℕ → R) : eval (2 * h) c x = eval h (fun i => c i + w * c (h + i)) x := by
  rw [eval_halves, hw, eval_add, eval_const_mul]

end Tree

/-! ### Lawful tables -/

/-- **The tables of a transform hold the powers of a root of `X ^ n + 1`**, modulo a
prime that leaves room in a word. -/
structure Lawful (t : Transform) (psi : ZMod t.modulus.value) : Prop where
  prime : t.modulus.value.Prime
  small : t.modulus.value < 2 ^ 63
  size_eq : t.size = 2 ^ t.logSize
  psi_pow : psi ^ t.size = -1
  roots : ∀ m < t.size, t.modulus.view t.roots m = psi ^ bitReverse t.logSize m
  inverseRoots : ∀ m < t.size,
    t.modulus.view t.inverseRoots m * psi ^ bitReverse t.logSize m = 1
  sizeInverse : (t.sizeInverse : ZMod t.modulus.value) * t.size = 1

/-- **The points that the transform evaluates at**, in the order of the entries. -/
def point (t : Transform) (psi : ZMod t.modulus.value) (j : ℕ) : ZMod t.modulus.value :=
  psi ^ (2 * bitReverse t.logSize j + 1)

namespace Lawful

variable {t : Transform} {psi : ZMod t.modulus.value} {d m : ℕ} {a : Array ℕ}

theorem pos (h : t.Lawful psi) : 0 < t.modulus.value :=
  h.prime.pos

theorem psi_pow_two_pow (h : t.Lawful psi) : psi ^ 2 ^ t.logSize = -1 := by
  rw [← h.size_eq, h.psi_pow]

/-- Every point is a root of `X ^ n + 1`. -/
theorem point_pow (h : t.Lawful psi) (j : ℕ) : t.point psi j ^ t.size = -1 := by
  rw [point, ← pow_mul, mul_comm, pow_mul, h.psi_pow, pow_succ, pow_mul, neg_one_sq, one_pow,
    one_mul]

/-- The leaves of the tree are the points. -/
theorem node_leaf (h : t.Lawful psi) {j : ℕ} (hj : j < t.size) :
    node t.logSize psi (1 * 2 ^ t.logSize + j) = t.point psi j := by
  rw [one_mul, node, bitReverse_two_pow_add (h.size_eq ▸ hj), point]

/-- A node that has children has an entry in the tables. -/
theorem lt_size (h : t.Lawful psi) (hm : (m + 1) * 2 ^ (d + 1) ≤ 2 ^ (t.logSize + 1)) :
    m < t.size := by
  have hhalf : (m + 1) * 2 ^ d ≤ 2 ^ t.logSize := by
    rw [pow_succ, pow_succ, ← mul_assoc] at hm
    omega
  have hpos : 0 < 2 ^ d := by positivity
  rw [h.size_eq]
  nlinarith

/-- What lies below a node below a child: the width that is left for it. -/
theorem child_le {b : ℕ} (hb : b ≤ 1) (hm : (m + 1) * 2 ^ (d + 1) ≤ 2 ^ (t.logSize + 1)) :
    (2 * m + b + 1) * 2 ^ d ≤ 2 ^ (t.logSize + 1) := by
  refine le_trans ?_ hm
  rw [pow_succ]
  nlinarith [Nat.mul_le_mul_right (2 ^ d) hb]

/-! ### The forward recursion -/

/-- **One step down the tree**: the residues modulo the two factors of a node. -/
theorem isVector_split (h : t.Lawful psi) :
    ∀ {d m : ℕ} {a : Array ℕ}, t.modulus.IsVector (2 ^ d) a →
      t.modulus.IsVector (2 ^ d) (split t.modulus t.roots d m a) := by
  intro d
  induction d with
  | zero => exact fun ha => ha
  | succ d ih =>
      intro m a ha
      rw [pow_succ'] at ha ⊢
      have hhigh := Modulus.IsVector.scale h.pos ha.upper.size_eq (t.roots.getD m 0)
      have happend := (ih (m := 2 * m) (ha.lower.add h.small hhigh)).append
        (ih (m := 2 * m + 1) (ha.lower.sub h.small hhigh))
      rwa [← two_mul] at happend

/-- **The forward recursion evaluates** at the leaves below a node. -/
theorem view_split (h : t.Lawful psi) :
    ∀ {d m j : ℕ} {a : Array ℕ}, (m + 1) * 2 ^ d ≤ 2 ^ (t.logSize + 1) →
      t.modulus.IsVector (2 ^ d) a → j < 2 ^ d →
        t.modulus.view (split t.modulus t.roots d m a) j =
          eval (2 ^ d) (t.modulus.view a) (node t.logSize psi (m * 2 ^ d + j)) := by
  intro d
  induction d with
  | zero =>
      intro m j a _ _ hj
      have hzero : j = 0 := by simpa using hj
      simp [split, eval, hzero]
  | succ d ih =>
      intro m j a hm ha hj
      have hroot := h.roots m (h.lt_size hm)
      have hleft : (2 * m + 1) * 2 ^ d ≤ 2 ^ (t.logSize + 1) := child_le (Nat.zero_le 1) hm
      have hright : (2 * m + 1 + 1) * 2 ^ d ≤ 2 ^ (t.logSize + 1) := child_le le_rfl hm
      rw [pow_succ'] at ha hj ⊢
      have hhigh := Modulus.IsVector.scale h.pos ha.upper.size_eq (t.roots.getD m 0)
      have hview : ∀ i < 2 ^ d, t.modulus.view ((a.extract (2 ^ d) (2 * 2 ^ d)).map
          fun x => t.modulus.mul x (t.roots.getD m 0)) i =
            psi ^ bitReverse t.logSize m * t.modulus.view a (2 ^ d + i) := by
        intro i hi
        rw [Modulus.view_scale ha.upper.size_eq _ hi, Modulus.view_upper ha.size_eq hi, ← hroot,
          mul_comm, Modulus.view, Modulus.view]
      rw [split, Modulus.view_append,
        (h.isVector_split (ha.lower.add h.small hhigh)).size_eq]
      split
      · next hlow =>
          have hindex : m * (2 * 2 ^ d) + j = 2 * m * 2 ^ d + j := by ring
          have hpow := node_pow h.psi_pow_two_pow hleft hlow
          rw [ih hleft (ha.lower.add h.small hhigh) hlow, hindex,
            eval_halves_of_pow (hpow.trans (node_two_mul m))]
          refine eval_congr (fun i hi => ?_) _
          rw [Modulus.view_add h.small ha.lower hhigh hi, Modulus.view_lower ha.size_eq hi,
            hview i hi]
      · next hlow =>
          obtain ⟨i, rfl⟩ := Nat.exists_eq_add_of_le (not_lt.mp hlow)
          have hi : i < 2 ^ d := by omega
          have hindex : m * (2 * 2 ^ d) + (2 ^ d + i) = (2 * m + 1) * 2 ^ d + i := by ring
          have hpow := node_pow h.psi_pow_two_pow hright hi
          rw [Nat.add_sub_cancel_left, ih hright (ha.lower.sub h.small hhigh) hi, hindex,
            eval_halves_of_pow (hpow.trans (node_two_mul_add_one h.psi_pow_two_pow m))]
          refine eval_congr (fun i hi => ?_) _
          rw [Modulus.view_sub h.small ha.lower hhigh hi, Modulus.view_lower ha.size_eq hi,
            hview i hi]
          ring

/-! ### The inverse recursion -/

theorem isVector_merge (h : t.Lawful psi) :
    ∀ {d m : ℕ} {b : Array ℕ}, t.modulus.IsVector (2 ^ d) b →
      t.modulus.IsVector (2 ^ d) (merge t.modulus t.inverseRoots d m b) := by
  intro d
  induction d with
  | zero => exact fun hb => hb
  | succ d ih =>
      intro m b hb
      rw [pow_succ'] at hb ⊢
      have hlow := ih (m := 2 * m) hb.lower
      have hhigh := ih (m := 2 * m + 1) hb.upper
      have hdiff := Modulus.IsVector.scale h.pos (hlow.sub h.small hhigh).size_eq
        (t.inverseRoots.getD m 0)
      rw [Array.map_zipWith] at hdiff
      have happend := (hlow.add h.small hhigh).append hdiff
      rwa [← two_mul] at happend

/-- The two halves that one step up the tree makes: the sum of what comes from
the children, and their difference over the table entry of the node. -/
theorem view_merge_succ (h : t.Lawful psi) {b : Array ℕ}
    (hb : t.modulus.IsVector (2 * 2 ^ d) b) {i : ℕ} (hi : i < 2 ^ d) :
    let low := t.modulus.view (merge t.modulus t.inverseRoots d (2 * m) (b.extract 0 (2 ^ d))) i
    let high := t.modulus.view
      (merge t.modulus t.inverseRoots d (2 * m + 1) (b.extract (2 ^ d) (2 * 2 ^ d))) i
    let merged := merge t.modulus t.inverseRoots (d + 1) m b
    t.modulus.view merged i = low + high ∧
      t.modulus.view merged (2 ^ d + i) = (low - high) * t.modulus.view t.inverseRoots m := by
  have hlow := h.isVector_merge (m := 2 * m) hb.lower
  have hhigh := h.isVector_merge (m := 2 * m + 1) hb.upper
  have hdiff := hlow.sub h.small hhigh
  intro low high merged
  have hmerged : merged = Array.zipWith t.modulus.add
        (merge t.modulus t.inverseRoots d (2 * m) (b.extract 0 (2 ^ d)))
        (merge t.modulus t.inverseRoots d (2 * m + 1) (b.extract (2 ^ d) (2 * 2 ^ d))) ++
      (Array.zipWith t.modulus.sub
        (merge t.modulus t.inverseRoots d (2 * m) (b.extract 0 (2 ^ d)))
        (merge t.modulus t.inverseRoots d (2 * m + 1) (b.extract (2 ^ d) (2 * 2 ^ d)))).map
          fun x => t.modulus.mul x (t.inverseRoots.getD m 0) := by
    rw [Array.map_zipWith]
    rfl
  rw [hmerged, Modulus.view_append, Modulus.view_append, (hlow.add h.small hhigh).size_eq,
    if_pos hi, if_neg (by omega), Nat.add_sub_cancel_left, Modulus.view_add h.small hlow hhigh hi,
    Modulus.view_scale hdiff.size_eq _ hi, Modulus.view_sub h.small hlow hhigh hi]
  exact ⟨rfl, rfl⟩

/-- **The inverse recursion interpolates**, up to a factor of two for each level. -/
theorem view_merge_of_eval (h : t.Lawful psi) :
    ∀ {d m i : ℕ} {b : Array ℕ} {c : ℕ → ZMod t.modulus.value},
      (m + 1) * 2 ^ d ≤ 2 ^ (t.logSize + 1) → t.modulus.IsVector (2 ^ d) b →
        (∀ j < 2 ^ d, t.modulus.view b j =
          eval (2 ^ d) c (node t.logSize psi (m * 2 ^ d + j))) → i < 2 ^ d →
        t.modulus.view (merge t.modulus t.inverseRoots d m b) i = 2 ^ d * c i := by
  intro d
  induction d with
  | zero =>
      intro m i b c _ _ hc hi
      have hzero : i = 0 := by simpa using hi
      simpa [merge, eval, hzero] using hc 0 (by simp)
  | succ d ih =>
      intro m i b c hm hb hc hi
      have hroot := h.inverseRoots m (h.lt_size hm)
      have hleft : (2 * m + 1) * 2 ^ d ≤ 2 ^ (t.logSize + 1) := child_le (Nat.zero_le 1) hm
      have hright : (2 * m + 1 + 1) * 2 ^ d ≤ 2 ^ (t.logSize + 1) := child_le le_rfl hm
      rw [pow_succ'] at hb hc hi
      -- the children hold the values of the residues modulo the two factors
      have hlow : ∀ j < 2 ^ d, t.modulus.view (b.extract 0 (2 ^ d)) j =
          eval (2 ^ d) (fun i => c i + psi ^ bitReverse t.logSize m * c (2 ^ d + i))
            (node t.logSize psi (2 * m * 2 ^ d + j)) := by
        intro j hj
        have hindex : m * (2 * 2 ^ d) + j = 2 * m * 2 ^ d + j := by ring
        rw [Modulus.view_lower hb.size_eq hj, hc j (by omega), hindex, eval_halves_of_pow
          ((node_pow h.psi_pow_two_pow hleft hj).trans (node_two_mul m))]
      have hhigh : ∀ j < 2 ^ d, t.modulus.view (b.extract (2 ^ d) (2 * 2 ^ d)) j =
          eval (2 ^ d) (fun i => c i + -psi ^ bitReverse t.logSize m * c (2 ^ d + i))
            (node t.logSize psi ((2 * m + 1) * 2 ^ d + j)) := by
        intro j hj
        have hindex : m * (2 * 2 ^ d) + (2 ^ d + j) = (2 * m + 1) * 2 ^ d + j := by ring
        rw [Modulus.view_upper hb.size_eq hj, hc _ (by omega), hindex, eval_halves_of_pow
          ((node_pow h.psi_pow_two_pow hright hj).trans
            (node_two_mul_add_one h.psi_pow_two_pow m))]
      rcases Nat.lt_or_ge i (2 ^ d) with hi' | hge
      · rw [(h.view_merge_succ hb hi').1, ih hleft hb.lower hlow hi', ih hright hb.upper hhigh hi',
          pow_succ]
        ring
      · obtain ⟨i, rfl⟩ := Nat.exists_eq_add_of_le hge
        have hi' : i < 2 ^ d := by omega
        rw [(h.view_merge_succ hb hi').2, ih hleft hb.lower hlow hi', ih hright hb.upper hhigh hi',
          pow_succ]
        linear_combination 2 ^ d * 2 * c (2 ^ d + i) * hroot

/-- The values of what the inverse recursion returns, at the leaves below a node. -/
theorem eval_merge (h : t.Lawful psi) :
    ∀ {d m j : ℕ} {b : Array ℕ}, (m + 1) * 2 ^ d ≤ 2 ^ (t.logSize + 1) →
      t.modulus.IsVector (2 ^ d) b → j < 2 ^ d →
        eval (2 ^ d) (t.modulus.view (merge t.modulus t.inverseRoots d m b))
          (node t.logSize psi (m * 2 ^ d + j)) = 2 ^ d * t.modulus.view b j := by
  intro d
  induction d with
  | zero =>
      intro m j b _ _ hj
      have hzero : j = 0 := by simpa using hj
      simp [merge, eval, hzero]
  | succ d ih =>
      intro m j b hm hb hj
      have hroot := h.inverseRoots m (h.lt_size hm)
      have hleft : (2 * m + 1) * 2 ^ d ≤ 2 ^ (t.logSize + 1) := child_le (Nat.zero_le 1) hm
      have hright : (2 * m + 1 + 1) * 2 ^ d ≤ 2 ^ (t.logSize + 1) := child_le le_rfl hm
      rw [pow_succ'] at hb hj ⊢
      rcases Nat.lt_or_ge j (2 ^ d) with hj' | hge
      · have hindex : m * (2 * 2 ^ d) + j = 2 * m * 2 ^ d + j := by ring
        have hpow := (node_pow h.psi_pow_two_pow hleft hj').trans (node_two_mul m)
        rw [hindex, eval_halves_of_pow hpow, ← Modulus.view_lower hb.size_eq hj',
          pow_succ', mul_assoc (2 : ZMod t.modulus.value), ← ih hleft hb.lower hj',
          ← eval_const_mul]
        refine eval_congr (fun i hi => ?_) _
        rw [(h.view_merge_succ hb hi).1, (h.view_merge_succ hb hi).2]
        linear_combination (t.modulus.view (merge t.modulus t.inverseRoots d (2 * m)
          (b.extract 0 (2 ^ d))) i - t.modulus.view (merge t.modulus t.inverseRoots d (2 * m + 1)
          (b.extract (2 ^ d) (2 * 2 ^ d))) i) * hroot
      · obtain ⟨j, rfl⟩ := Nat.exists_eq_add_of_le hge
        have hj' : j < 2 ^ d := by omega
        have hindex : m * (2 * 2 ^ d) + (2 ^ d + j) = (2 * m + 1) * 2 ^ d + j := by ring
        have hpow := (node_pow h.psi_pow_two_pow hright hj').trans
          (node_two_mul_add_one h.psi_pow_two_pow m)
        rw [hindex, eval_halves_of_pow hpow, ← Modulus.view_upper hb.size_eq hj',
          pow_succ', mul_assoc (2 : ZMod t.modulus.value), ← ih hright hb.upper hj',
          ← eval_const_mul]
        refine eval_congr (fun i hi => ?_) _
        rw [(h.view_merge_succ hb hi).1, (h.view_merge_succ hb hi).2]
        linear_combination (t.modulus.view (merge t.modulus t.inverseRoots d (2 * m + 1)
          (b.extract (2 ^ d) (2 * 2 ^ d))) i - t.modulus.view (merge t.modulus t.inverseRoots d
          (2 * m) (b.extract 0 (2 ^ d))) i) * hroot

/-! ### The transforms -/

variable {b : Array ℕ}

theorem forward_eq (h : a.size = t.size) :
    t.forward a = split t.modulus t.roots t.logSize 1 a := by
  rw [forward, ← h, Array.extract_size]
  simp

theorem inverse_eq (h : b.size = t.size) :
    t.inverse b = (merge t.modulus t.inverseRoots t.logSize 1 b).map
      fun x => t.modulus.mul x t.sizeInverse := by
  rw [inverse, ← h, Array.extract_size]
  simp

theorem isVector_forward (h : t.Lawful psi) (ha : t.modulus.IsVector t.size a) :
    t.modulus.IsVector t.size (t.forward a) := by
  rw [forward_eq ha.size_eq]
  rw [h.size_eq] at ha ⊢
  exact h.isVector_split ha

theorem isVector_inverse (h : t.Lawful psi) (hb : t.modulus.IsVector t.size b) :
    t.modulus.IsVector t.size (t.inverse b) := by
  rw [inverse_eq hb.size_eq]
  rw [h.size_eq] at hb ⊢
  exact Modulus.IsVector.scale h.pos (h.isVector_merge hb).size_eq _

/-- **The forward transform evaluates** at the points. -/
theorem view_forward (h : t.Lawful psi) (ha : t.modulus.IsVector t.size a) {j : ℕ}
    (hj : j < t.size) :
    t.modulus.view (t.forward a) j = eval t.size (t.modulus.view a) (t.point psi j) := by
  rw [forward_eq ha.size_eq, ← h.node_leaf hj]
  rw [h.size_eq] at ha hj ⊢
  exact h.view_split (by rw [pow_succ]; omega) ha hj

/-- **The inverse transform interpolates**: from the values at the points it gets
the coefficients. -/
theorem view_inverse_of_eval (h : t.Lawful psi) (hb : t.modulus.IsVector t.size b)
    {c : ℕ → ZMod t.modulus.value}
    (hc : ∀ j < t.size, t.modulus.view b j = eval t.size c (t.point psi j)) {i : ℕ}
    (hi : i < t.size) : t.modulus.view (t.inverse b) i = c i := by
  have hleaf : ∀ j < 2 ^ t.logSize, t.modulus.view b j =
      eval (2 ^ t.logSize) c (node t.logSize psi (1 * 2 ^ t.logSize + j)) := by
    intro j hj
    rw [h.node_leaf (h.size_eq ▸ hj), hc j (h.size_eq ▸ hj), h.size_eq]
  have hunit := h.sizeInverse
  rw [inverse_eq hb.size_eq]
  rw [h.size_eq] at hb hi hunit
  rw [Modulus.view_scale (h.isVector_merge hb).size_eq _ hi,
    h.view_merge_of_eval (by rw [pow_succ]; omega) hb hleaf hi]
  push_cast at hunit
  linear_combination c i * hunit

/-- The coefficients that the inverse transform returns have the given values. -/
theorem eval_inverse (h : t.Lawful psi) (hb : t.modulus.IsVector t.size b) {j : ℕ}
    (hj : j < t.size) :
    eval t.size (t.modulus.view (t.inverse b)) (t.point psi j) = t.modulus.view b j := by
  have hunit := h.sizeInverse
  rw [inverse_eq hb.size_eq, ← h.node_leaf hj]
  rw [h.size_eq] at hb hj hunit ⊢
  have hscale : ∀ i < 2 ^ t.logSize, t.modulus.view
      ((merge t.modulus t.inverseRoots t.logSize 1 b).map
        fun x => t.modulus.mul x t.sizeInverse) i =
      t.sizeInverse * t.modulus.view (merge t.modulus t.inverseRoots t.logSize 1 b) i := by
    intro i hi
    rw [Modulus.view_scale (h.isVector_merge hb).size_eq _ hi, mul_comm]
  rw [eval_congr hscale, eval_const_mul, h.eval_merge (by rw [pow_succ]; omega) hb hj]
  push_cast at hunit
  linear_combination t.modulus.view b j * hunit

/-- **Back from the values.** -/
theorem inverse_forward (h : t.Lawful psi) (ha : t.modulus.IsVector t.size a) :
    t.inverse (t.forward a) = a :=
  (h.isVector_inverse (h.isVector_forward ha)).ext ha fun _ hi =>
    h.view_inverse_of_eval (h.isVector_forward ha) (fun _ hj => h.view_forward ha hj) hi

/-- **Back from the coefficients.** -/
theorem forward_inverse (h : t.Lawful psi) (hb : t.modulus.IsVector t.size b) :
    t.forward (t.inverse b) = b :=
  (h.isVector_forward (h.isVector_inverse hb)).ext hb fun _ hj => by
    rw [h.view_forward (h.isVector_inverse hb) hj, h.eval_inverse hb hj]

/-- **The values at the points determine the coefficients.** -/
theorem eq_of_eval_point_eq (h : t.Lawful psi) {c d : ℕ → ZMod t.modulus.value}
    (hcd : ∀ j < t.size, eval t.size c (t.point psi j) = eval t.size d (t.point psi j)) {i : ℕ}
    (hi : i < t.size) : c i = d i := by
  have : NeZero t.modulus.value := ⟨h.pos.ne'⟩
  let b : Array ℕ := Array.ofFn fun j : Fin t.size => (eval t.size c (t.point psi j)).val
  have hentry : ∀ j < t.size, b.getD j 0 = (eval t.size c (t.point psi j)).val :=
    fun j hj => getD_ofFn _ hj 0
  have hb : t.modulus.IsVector t.size b := by
    refine ⟨Array.size_ofFn, fun j hj => ?_⟩
    rw [hentry j hj]
    exact ZMod.val_lt _
  have hview : ∀ j < t.size, t.modulus.view b j = eval t.size c (t.point psi j) := by
    intro j hj
    rw [Modulus.view, hentry j hj, ZMod.natCast_zmod_val]
  rw [← h.view_inverse_of_eval hb hview hi]
  exact h.view_inverse_of_eval hb (fun j hj => (hview j hj).trans (hcd j hj)) hi

end Lawful

/-! ### Made transforms -/

/-- A number passes the test of its length exactly if it is a power of two. -/
theorem eq_two_pow_of_isPowerOfTwo {n : ℕ} (h : PrimeChain.isPowerOfTwo n = true) :
    n = 2 ^ n.log2 := by
  simp only [PrimeChain.isPowerOfTwo, Bool.and_eq_true, beq_iff_eq] at h
  exact h.2.symm

theorem isPowerOfTwo_two_pow (k : ℕ) : PrimeChain.isPowerOfTwo (2 ^ k) = true := by
  simp [PrimeChain.isPowerOfTwo, Nat.log2_two_pow]

/-- The table of a root holds its powers in bit-reversed order. -/
theorem view_rootTable (q : Modulus) {logSize m : ℕ} (root : ℕ) (hm : m < 2 ^ logSize) :
    q.view (rootTable q logSize root) m = (root : ZMod q.value) ^ bitReverse logSize m := by
  rw [Modulus.view, rootTable, getD_ofFn _ hm, Modulus.cast_pow]

/-- Tables built from a root of `X ^ n + 1` are lawful. -/
theorem lawful_ofRoot {q : Modulus} {k root : ℕ} (hprime : q.value.Prime) (hq : q.value < 2 ^ 63)
    (hsize : 2 ^ k < q.value) (hroot : (root : ZMod q.value) ^ 2 ^ k = -1) :
    (ofRoot q (2 ^ k) k root).Lawful (root : ZMod q.value) := by
  have : Fact q.value.Prime := ⟨hprime⟩
  have hne : (root : ZMod q.value) ≠ 0 := by
    intro hzero
    rw [hzero, zero_pow (by positivity), eq_comm, neg_eq_zero] at hroot
    exact one_ne_zero hroot
  have hunit : ((2 ^ k : ℕ) : ZMod q.value) ≠ 0 := by
    rw [Ne, ZMod.natCast_eq_zero_iff]
    exact Nat.not_dvd_of_pos_of_lt (by positivity) hsize
  refine ⟨hprime, hq, rfl, hroot, fun m hm => view_rootTable q root hm, fun m hm => ?_, ?_⟩
  · change q.view (rootTable q k (q.inv root)) m * _ = 1
    rw [view_rootTable q _ hm, Modulus.cast_inv (by omega) hne, inv_pow]
    exact inv_mul_cancel₀ (pow_ne_zero _ hne)
  · change ((q.inv (2 ^ k) : ℕ) : ZMod q.value) * ((2 ^ k : ℕ) : ZMod q.value) = 1
    rw [Modulus.cast_inv (by omega) hunit]
    exact inv_mul_cancel₀ hunit

/-- The tables that are made come from the root that the search finds. -/
theorem make_eq_ofRoot {q : Modulus} {k : ℕ} (hprime : q.value.Prime) (hq : q.value < 2 ^ 63)
    (hmod : q.value % (2 * 2 ^ k) = 1) :
    ∃ root, q.primitiveRoot? (2 ^ k) = some root ∧ make (2 ^ k) q = .ok (ofRoot q (2 ^ k) k root) ∧
      (ofRoot q (2 ^ k) k root).Lawful (root : ZMod q.value) := by
  have : Fact q.value.Prime := ⟨hprime⟩
  have htwo := hprime.two_le
  have hsize : 2 ^ k < q.value := by
    have hpos : 0 < 2 ^ k := by positivity
    by_contra hle
    rw [Nat.mod_eq_of_lt (by omega)] at hmod
    omega
  obtain ⟨root, hsome, -, hroot⟩ := Modulus.exists_primitiveRoot? hmod
  refine ⟨root, hsome, ?_, lawful_ofRoot hprime hq hsize hroot⟩
  rw [make, isPowerOfTwo_two_pow, hsome, Nat.log2_two_pow]
  rfl

/-- **A transform is made** for every length that is a power of two and every prime
that is 1 modulo twice the length, and it is lawful. -/
theorem exists_make {q : Modulus} {k : ℕ} (hprime : q.value.Prime) (hq : q.value < 2 ^ 63)
    (hmod : q.value % (2 * 2 ^ k) = 1) :
    ∃ t psi, make (2 ^ k) q = .ok t ∧ t.modulus = q ∧ t.size = 2 ^ k ∧ t.Lawful psi := by
  obtain ⟨root, -, hmake, hlawful⟩ := make_eq_ofRoot hprime hq hmod
  exact ⟨_, _, hmake, rfl, rfl, hlawful⟩

/-- **What is made is lawful**, modulo a prime that is 1 modulo twice the length. -/
theorem lawful_of_make {q : Modulus} {t : Transform} {k : ℕ} (hprime : q.value.Prime)
    (hq : q.value < 2 ^ 63) (hmod : q.value % (2 * 2 ^ k) = 1) (h : make (2 ^ k) q = .ok t) :
    t.modulus = q ∧ t.size = 2 ^ k ∧ ∃ psi, t.Lawful psi := by
  obtain ⟨t', psi, hmake, hmodulus, hsize, hlawful⟩ := exists_make hprime hq hmod
  cases h.symm.trans hmake
  exact ⟨hmodulus, hsize, psi, hlawful⟩

end EncryptedReals.Transform

import EncryptedReals.Proofs.Ring.Residues
import EncryptedReals.Ring.ResiduePoly

/-!
# Vectors of residues

A limb is an array of natural numbers.  `Modulus.view` reads it as a function
into `ZMod q.value`, and `Modulus.IsVector` says that it has a given length and
canonical entries, so that the view determines it (`IsVector.ext`).  Each
operation on arrays gets one lemma for the shape and one for the view.
-/

namespace EncryptedReals

/-! ### Entries of arrays -/

section Entries

variable {α β γ : Type} {i : ℕ}

theorem getD_map (f : α → β) {a : Array α} (h : i < a.size) (d : α) (e : β) :
    (a.map f).getD i e = f (a.getD i d) := by
  simp [h]

theorem getD_zipWith (f : α → β → γ) {a : Array α} {b : Array β} (ha : i < a.size)
    (hb : i < b.size) (c : α) (d : β) (e : γ) :
    (Array.zipWith f a b).getD i e = f (a.getD i c) (b.getD i d) := by
  simp [ha, hb]

theorem getD_append (a b : Array α) (d : α) :
    (a ++ b).getD i d = if i < a.size then a.getD i d else b.getD (i - a.size) d := by
  simp only [Array.getD_eq_getD_getElem?, Array.getElem?_append]
  split <;> rfl

theorem getD_extract {a : Array α} {start stop : ℕ} (hi : i < stop - start) (hstop : stop ≤ a.size)
    (d : α) : (a.extract start stop).getD i d = a.getD (start + i) d := by
  rw [Array.getD_eq_getD_getElem?, Array.getElem?_extract, if_pos (by omega),
    Array.getD_eq_getD_getElem?]

theorem getD_ofFn {n : ℕ} (f : Fin n → α) (hi : i < n) (d : α) :
    (Array.ofFn f).getD i d = f ⟨i, hi⟩ := by
  simp [hi]

theorem getD_replicate {n : ℕ} (hi : i < n) (x d : α) : (Array.replicate n x).getD i d = x := by
  simp [hi]

theorem getD_setIfInBounds_ne {a : Array α} {j : ℕ} (h : i ≠ j) (x d : α) :
    (a.setIfInBounds i x).getD j d = a.getD j d := by
  rw [Array.getD_eq_getD_getElem?, Array.getD_eq_getD_getElem?, Array.getElem?_setIfInBounds_ne h]

theorem getD_setIfInBounds_self {a : Array α} (h : i < a.size) (x d : α) :
    (a.setIfInBounds i x).getD i d = x := by
  rw [Array.getD_eq_getD_getElem?, Array.getElem?_setIfInBounds_self_of_lt h, Option.getD_some]

/-- Arrays of one length with equal entries are equal. -/
theorem array_ext_getD {a b : Array α} (hsize : a.size = b.size) (d : α)
    (h : ∀ i < a.size, a.getD i d = b.getD i d) : a = b := by
  refine Array.ext hsize fun i hi hi' => ?_
  simpa [hi, hi'] using h i hi

end Entries

/-- Where no entry of the left vector remains, combining is entry by entry. -/
theorem overlayEntries_eq_zipWith (f : ℕ → ℕ → ℕ) {a b : Array ℕ} (h : a.size ≤ b.size) :
    overlayEntries f a b = Array.zipWith f a b := by
  refine array_ext_getD (by simp [overlayEntries, h]) 0 fun i hi => ?_
  have ha : i < a.size := by simpa [overlayEntries] using hi
  have hb : i < b.size := ha.trans_le h
  simp [overlayEntries, ha, hb]

namespace Modulus

variable {q : Modulus} {n : ℕ} {a b : Array ℕ}

/-- The entries of a vector as elements of the ring. -/
def view (q : Modulus) (a : Array ℕ) (i : ℕ) : ZMod q.value :=
  (a.getD i 0 : ℕ)

/-- **A vector of `n` canonical residues.** -/
structure IsVector (q : Modulus) (n : ℕ) (a : Array ℕ) : Prop where
  size_eq : a.size = n
  lt : ∀ i < n, a.getD i 0 < q.value

namespace IsVector

/-- **The view determines a vector.** -/
theorem ext (ha : q.IsVector n a) (hb : q.IsVector n b)
    (h : ∀ i < n, q.view a i = q.view b i) : a = b := by
  refine array_ext_getD (ha.size_eq.trans hb.size_eq.symm) 0 fun i hi => ?_
  rw [ha.size_eq] at hi
  exact eq_of_cast_eq (ha.lt i hi) (hb.lt i hi) (h i hi)

theorem add (hq : q.value < 2 ^ 63) (ha : q.IsVector n a) (hb : q.IsVector n b) :
    q.IsVector n (Array.zipWith q.add a b) := by
  refine ⟨by simp [ha.size_eq, hb.size_eq], fun i hi => ?_⟩
  rw [getD_zipWith _ (ha.size_eq.symm ▸ hi) (hb.size_eq.symm ▸ hi) 0 0]
  exact add_lt hq (ha.lt i hi) (hb.lt i hi)

theorem sub (hq : q.value < 2 ^ 63) (ha : q.IsVector n a) (hb : q.IsVector n b) :
    q.IsVector n (Array.zipWith q.sub a b) := by
  refine ⟨by simp [ha.size_eq, hb.size_eq], fun i hi => ?_⟩
  rw [getD_zipWith _ (ha.size_eq.symm ▸ hi) (hb.size_eq.symm ▸ hi) 0 0]
  exact sub_lt (hq.trans (by norm_num)) (ha.lt i hi) (hb.lt i hi)

theorem neg (hq : q.value < 2 ^ 63) (ha : q.IsVector n a) : q.IsVector n (a.map q.neg) := by
  refine ⟨by simp [ha.size_eq], fun i hi => ?_⟩
  rw [getD_map _ (ha.size_eq.symm ▸ hi) 0]
  exact neg_lt hq (ha.lt i hi)

/-- Products are canonical whatever the factors are. -/
theorem mul (hq : 0 < q.value) (ha : a.size = n) (hb : b.size = n) :
    q.IsVector n (Array.zipWith q.mul a b) := by
  refine ⟨by simp [ha, hb], fun i hi => ?_⟩
  rw [getD_zipWith _ (ha.symm ▸ hi) (hb.symm ▸ hi) 0 0]
  exact mul_lt hq _ _

theorem scale (hq : 0 < q.value) (ha : a.size = n) (r : ℕ) :
    q.IsVector n (a.map fun x => q.mul x r) := by
  refine ⟨by simp [ha], fun i hi => ?_⟩
  rw [getD_map _ (ha.symm ▸ hi) 0]
  exact mul_lt hq _ _

theorem reduce (hq : 0 < q.value) (c : Array ℤ) : q.IsVector c.size (c.map q.reduce) := by
  refine ⟨by simp, fun i hi => ?_⟩
  rw [getD_map _ hi 0]
  exact reduce_lt hq _

theorem replicate_zero (hq : 0 < q.value) : q.IsVector n (Array.replicate n 0) := by
  refine ⟨by simp, fun i hi => ?_⟩
  rw [getD_replicate hi]
  exact hq

/-- The lower half of a vector. -/
theorem lower (ha : q.IsVector (2 * n) a) : q.IsVector n (a.extract 0 n) := by
  have hsize : n ≤ a.size := by rw [ha.size_eq]; omega
  refine ⟨by rw [Array.size_extract, Nat.min_eq_left hsize, Nat.sub_zero], fun i hi => ?_⟩
  rw [getD_extract (by omega) hsize]
  exact ha.lt _ (by omega)

/-- The upper half of a vector. -/
theorem upper (ha : q.IsVector (2 * n) a) : q.IsVector n (a.extract n (2 * n)) := by
  have hsize : 2 * n ≤ a.size := ha.size_eq.ge
  refine ⟨by rw [Array.size_extract, Nat.min_eq_left hsize]; omega, fun i hi => ?_⟩
  rw [getD_extract (by omega) hsize]
  exact ha.lt _ (by omega)

theorem append {m : ℕ} (ha : q.IsVector n a) (hb : q.IsVector m b) :
    q.IsVector (n + m) (a ++ b) := by
  refine ⟨by rw [Array.size_append, ha.size_eq, hb.size_eq], fun i hi => ?_⟩
  rw [getD_append, ha.size_eq]
  split
  · exact ha.lt i ‹_›
  · exact hb.lt _ (by omega)

end IsVector

/-! ### Views -/

variable {i : ℕ}

theorem view_add (hq : q.value < 2 ^ 63) (ha : q.IsVector n a) (hb : q.IsVector n b)
    (hi : i < n) : q.view (Array.zipWith q.add a b) i = q.view a i + q.view b i := by
  rw [view, getD_zipWith _ (ha.size_eq.symm ▸ hi) (hb.size_eq.symm ▸ hi) 0 0,
    cast_add hq (ha.lt i hi) (hb.lt i hi), view, view]

theorem view_sub (hq : q.value < 2 ^ 63) (ha : q.IsVector n a) (hb : q.IsVector n b)
    (hi : i < n) : q.view (Array.zipWith q.sub a b) i = q.view a i - q.view b i := by
  rw [view, getD_zipWith _ (ha.size_eq.symm ▸ hi) (hb.size_eq.symm ▸ hi) 0 0,
    cast_sub (hq.trans (by norm_num)) (ha.lt i hi) (hb.lt i hi), view, view]

theorem view_neg (hq : q.value < 2 ^ 63) (ha : q.IsVector n a) (hi : i < n) :
    q.view (a.map q.neg) i = -q.view a i := by
  rw [view, getD_map _ (ha.size_eq.symm ▸ hi) 0, cast_neg hq (ha.lt i hi), view]

theorem view_mul (ha : a.size = n) (hb : b.size = n) (hi : i < n) :
    q.view (Array.zipWith q.mul a b) i = q.view a i * q.view b i := by
  rw [view, getD_zipWith _ (ha.symm ▸ hi) (hb.symm ▸ hi) 0 0, cast_mul, view, view]

theorem view_scale (ha : a.size = n) (r : ℕ) (hi : i < n) :
    q.view (a.map fun x => q.mul x r) i = q.view a i * r := by
  rw [view, getD_map _ (ha.symm ▸ hi) 0, cast_mul, view]

theorem view_reduce (hq : 0 < q.value) {c : Array ℤ} (hi : i < c.size) :
    q.view (c.map q.reduce) i = (c.getD i 0 : ℤ) := by
  rw [view, getD_map _ hi 0, cast_reduce hq]

theorem view_replicate_zero (hi : i < n) : q.view (Array.replicate n 0) i = 0 := by
  rw [view, getD_replicate hi, Nat.cast_zero]

theorem view_append (a b : Array ℕ) :
    q.view (a ++ b) i = if i < a.size then q.view a i else q.view b (i - a.size) := by
  rw [view, getD_append]
  exact apply_ite _ _ _ _

theorem view_lower (ha : a.size = 2 * n) (hi : i < n) :
    q.view (a.extract 0 n) i = q.view a i := by
  rw [view, getD_extract (by omega) (by omega), Nat.zero_add, view]

theorem view_upper (ha : a.size = 2 * n) (hi : i < n) :
    q.view (a.extract n (2 * n)) i = q.view a (n + i) := by
  rw [view, getD_extract (by omega) (by omega), view]

end Modulus

end EncryptedReals

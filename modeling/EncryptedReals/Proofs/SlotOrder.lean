import EncryptedReals.Proofs.Plaintexts
import EncryptedReals.Proofs.Ring.Automorphism

/-!
# The order of the slots

The encoder binds slot `j` to the odd power `5 ^ j` of `ζ` and to its conjugate, by the position
`(5 ^ j mod 2 * n - 1) / 2` and the mirrored one.  The key generator moves the slots by other
powers of 5.  Both count the slots in the same order, modulo `n / 2`.

Two facts about 5 modulo `2 * n` carry this: its order is exactly `n / 2`, so that no position
comes twice, and its powers are 1 modulo 4, so that none is the negative of another and no
position is the mirror of one.  That every position comes is then a matter of counting.

## Main Definitions

* `Embedding.Apart` — two slots that share no position
* `Embedding.place` — one value at its position and at the mirrored one

## Main results

* `Embedding.getD_slotIndex` — the position of a slot by a power of 5
* `Embedding.perm_slotIndex_mirrors` — the positions and their mirrors are all positions, once
* `Embedding.getD_foldl_place` — values placed apart do not overwrite each other
* `Embedding.slot_order` — the encoder fills every position and agrees with the rotations
-/

namespace EncryptedReals

/-- As many different numbers below `n` as there are: all of them. -/
theorem perm_range_of_nodup {l : List ℕ} {n : ℕ} (hnodup : l.Nodup) (hlt : ∀ k ∈ l, k < n)
    (hlength : l.length = n) : l.Perm (List.range n) := by
  have hsub : l ⊆ List.range n := fun k hk => List.mem_range.mpr (hlt k hk)
  refine (List.subperm_of_subset hnodup hsub).perm_of_length_le ?_
  rw [List.length_range, hlength]

namespace Embedding

variable {n i j k : ℕ}

/-! ### Positions -/

/-- The positions from a power of 5 on are those of the powers that follow. -/
theorem slotPositions_eq (order : ℕ) :
    ∀ count i : ℕ, slotPositions order count (5 ^ i % order) =
      (List.range' i count).map fun j => (5 ^ j % order - 1) / 2 := by
  intro count
  induction count with
  | zero => exact fun i => rfl
  | succ count ih =>
      intro i
      rw [slotPositions, Nat.mod_mul_mod, ← pow_succ, ih, List.range'_succ, List.map_cons]

theorem slotIndex_eq (hn : 0 < n) :
    (make n).slotIndex =
      ((List.range (n / 2)).map fun j => (5 ^ j % (2 * n) - 1) / 2).toArray := by
  have hone : 5 ^ 0 % (2 * n) = 1 := by
    rw [pow_zero]
    exact Nat.mod_eq_of_lt (by omega)
  show (slotPositions (2 * n) (n / 2) 1).toArray = _
  rw [List.range_eq_range', ← slotPositions_eq, hone]

theorem size_slotIndex (hn : 0 < n) : (make n).slotIndex.size = n / 2 := by
  rw [slotIndex_eq hn, List.size_toArray, List.length_map, List.length_range]

/-- **A slot sits at the power of 5 with its number**: position `k` belongs to `2 * k + 1`. -/
theorem getD_slotIndex (hn : 0 < n) (hj : j < n / 2) :
    2 * (make n).slotIndex.getD j 0 + 1 = 5 ^ j % (2 * n) := by
  have hodd : 5 ^ j % (2 * n) % 2 = 1 := by
    rw [Nat.mod_mul_right_mod]
    exact Nat.odd_iff.mp (Odd.pow (by decide))
  have hentry : (make n).slotIndex.getD j 0 = (5 ^ j % (2 * n) - 1) / 2 := by
    simp [slotIndex_eq hn, hj]
  rw [hentry]
  omega

theorem slotIndex_lt (hn : 0 < n) (hj : j < n / 2) : (make n).slotIndex.getD j 0 < n := by
  have hentry := getD_slotIndex hn hj
  have hlt := Nat.mod_lt (5 ^ j) (by omega : 0 < 2 * n)
  omega

/-! ### Distinct positions -/

/-- **Two slots that share no position**, neither their own nor a mirrored one. -/
def Apart (n k m : ℕ) : Prop :=
  k ≠ m ∧ k + m + 1 ≠ n

theorem Apart.symm {m : ℕ} (h : Apart n k m) : Apart n m k := by
  obtain ⟨hne, hmirror⟩ := h
  exact ⟨hne.symm, by omega⟩

/-- **Different slots have different powers of 5**, since 5 has the order `n / 2`. -/
theorem slotIndex_inj (hn : ∃ k, 1 ≤ k ∧ n = 2 ^ k) (hi : i < n / 2) (hj : j < n / 2)
    (h : (make n).slotIndex.getD i 0 = (make n).slotIndex.getD j 0) : i = j := by
  have hpower : 5 ^ i ≡ 5 ^ j [MOD 2 * n] := by
    rw [Nat.ModEq, ← getD_slotIndex (by omega) hi, ← getD_slotIndex (by omega) hj, h]
  have hindex := (Automorphism.five_pow_modEq_iff hn).mp hpower
  rwa [Nat.ModEq, Nat.mod_eq_of_lt hi, Nat.mod_eq_of_lt hj] at hindex

/-- **No slot sits in the mirror of one**: powers of 5 are 1 modulo 4, and so no two of them add up
to a multiple of 4. -/
theorem slotIndex_add_ne (hn : ∃ k, 1 ≤ k ∧ n = 2 ^ k) (hi : i < n / 2) (hj : j < n / 2) :
    (make n).slotIndex.getD i 0 + (make n).slotIndex.getD j 0 + 1 ≠ n := by
  have hfour : 4 ∣ 2 * n := by
    obtain ⟨k, hk, rfl⟩ := hn
    rw [← pow_succ']
    exact pow_dvd_pow 2 (by omega : 2 ≤ k + 1)
  have hpower : ∀ m, 5 ^ m % (2 * n) % 4 = 1 := fun m => by
    rw [Nat.mod_mod_of_dvd _ hfour, Nat.pow_mod, Nat.one_pow]
  have hi' := getD_slotIndex (by omega) hi
  have hj' := getD_slotIndex (by omega) hj
  have hfour_i := hpower i
  have hfour_j := hpower j
  omega

/-- The positions as a list over the slots. -/
theorem toList_slotIndex (hn : 0 < n) :
    (make n).slotIndex.toList = (List.range (n / 2)).map ((make n).slotIndex.getD · 0) := by
  rw [slotIndex_eq hn]
  refine List.map_congr_left fun j hj => ?_
  simp [List.mem_range.mp hj]

theorem mem_slotIndex (hn : 0 < n) :
    k ∈ (make n).slotIndex.toList ↔ ∃ j < n / 2, (make n).slotIndex.getD j 0 = k := by
  rw [toList_slotIndex hn, List.mem_map]
  simp only [List.mem_range]

theorem lt_of_mem_slotIndex (hn : 0 < n) : ∀ k ∈ (make n).slotIndex.toList, k < n := by
  intro k hk
  obtain ⟨j, hj, rfl⟩ := (mem_slotIndex hn).mp hk
  exact slotIndex_lt hn hj

theorem pairwise_apart_slotIndex (hn : ∃ k, 1 ≤ k ∧ n = 2 ^ k) :
    (make n).slotIndex.toList.Pairwise (Apart n) := by
  have hslots := Automorphism.half_pos hn
  rw [toList_slotIndex (by omega), List.pairwise_map]
  refine List.nodup_range.imp_of_mem fun hi hj hne => ?_
  have hi := List.mem_range.mp hi
  have hj := List.mem_range.mp hj
  exact ⟨fun h => hne (slotIndex_inj hn hi hj h), slotIndex_add_ne hn hi hj⟩

/-- **The positions and their mirrors are all positions, each once.** -/
theorem perm_slotIndex_mirrors (hn : ∃ k, 1 ≤ k ∧ n = 2 ^ k) :
    ((make n).slotIndex.toList ++ (make n).slotIndex.toList.map (n - 1 - ·)).Perm
      (List.range n) := by
  have hslots := Automorphism.half_pos hn
  have hlt := lt_of_mem_slotIndex (n := n) (by omega)
  have hnodup : (make n).slotIndex.toList.Nodup := (pairwise_apart_slotIndex hn).imp And.left
  refine perm_range_of_nodup (List.nodup_append'.mpr ⟨hnodup, ?_, ?_⟩) ?_ ?_
  · refine hnodup.map_on fun k hk m hm hkm => ?_
    have hk := hlt k hk
    have hm := hlt m hm
    omega
  · -- a position that is also a mirror
    intro k hk hmirror
    obtain ⟨m, hm, rfl⟩ := List.mem_map.mp hmirror
    have hlt := hlt m hm
    obtain ⟨i, hi, hik⟩ := (mem_slotIndex (by omega)).mp hk
    obtain ⟨j, hj, rfl⟩ := (mem_slotIndex (by omega)).mp hm
    have hne := slotIndex_add_ne hn hi hj
    omega
  · intro k hk
    rcases List.mem_append.mp hk with hk | hk
    · exact hlt k hk
    · obtain ⟨m, -, rfl⟩ := List.mem_map.mp hk
      omega
  · rw [List.length_append, List.length_map, Array.length_toList, size_slotIndex (by omega)]
    obtain ⟨k, hk, rfl⟩ := hn
    have heven : 2 ∣ 2 ^ k := dvd_pow_self 2 (by omega)
    omega

/-! ### Values at their positions -/

/-- **One value at its position and at the mirrored one.** -/
def place (n : ℕ) (z : Array Phasor) (entry : ℕ × Float) : Array Phasor :=
  (z.setIfInBounds entry.1 ⟨entry.2, 0⟩).setIfInBounds (n - 1 - entry.1) ⟨entry.2, 0⟩

theorem size_place (n : ℕ) (z : Array Phasor) (entry : ℕ × Float) :
    (place n z entry).size = z.size := by
  rw [place, Array.size_setIfInBounds, Array.size_setIfInBounds]

theorem getD_place_self {z : Array Phasor} {v : Float} {x : ℕ} (hz : z.size = n) (hk : k < n)
    (hx : x = k ∨ x = n - 1 - k) : (place n z (k, v)).getD x .zero = ⟨v, 0⟩ := by
  rw [place]
  rcases eq_or_ne (n - 1 - k) x with hmirror | hmirror
  · rw [hmirror, getD_setIfInBounds_self (by rw [Array.size_setIfInBounds]; omega)]
  · obtain rfl : x = k := hx.resolve_right hmirror.symm
    rw [getD_setIfInBounds_ne hmirror, getD_setIfInBounds_self (by omega)]

theorem getD_place_of_apart {z : Array Phasor} {v : Float} {m x : ℕ} (hk : k < n) (hm : m < n)
    (happart : Apart n m k) (hx : x = k ∨ x = n - 1 - k) :
    (place n z (m, v)).getD x .zero = z.getD x .zero := by
  obtain ⟨hne, hmirror⟩ := happart
  rw [place, getD_setIfInBounds_ne (by omega), getD_setIfInBounds_ne (by omega)]

/-- Values placed apart from a slot leave its positions alone. -/
theorem getD_foldl_place_of_apart {x : ℕ} (hk : k < n) (hx : x = k ∨ x = n - 1 - k)
    {entries : List (ℕ × Float)} (hentries : ∀ e ∈ entries, e.1 < n ∧ Apart n e.1 k)
    (z : Array Phasor) : (entries.foldl (place n) z).getD x .zero = z.getD x .zero := by
  induction entries generalizing z with
  | nil => rfl
  | cons entry entries ih =>
      obtain ⟨⟨hlt, happart⟩, hentries⟩ := List.forall_mem_cons.mp hentries
      rw [List.foldl_cons, ih hentries, getD_place_of_apart hk hlt happart hx]

/-- **Values placed apart do not overwrite each other.**  The positions of a slot that has a value
hold this value, and those of another what they held. -/
theorem getD_foldl_place {x : ℕ} (hx : x = k ∨ x = n - 1 - k) {positions : List ℕ}
    (hlt : ∀ m ∈ positions, m < n) (hpairs : positions.Pairwise (Apart n)) {values : List Float}
    {z : Array Phasor} (hz : z.size = n) {j : ℕ} (hj : positions[j]? = some k) :
    ((positions.zip values).foldl (place n) z).getD x .zero =
      if j < values.length then ⟨values.getD j 0, 0⟩ else z.getD x .zero := by
  have hk := hlt k (List.mem_of_getElem? hj)
  induction positions generalizing values z j with
  | nil => simp at hj
  | cons m positions ih =>
      obtain ⟨hm, hpairs⟩ := List.pairwise_cons.mp hpairs
      obtain ⟨hmlt, hlt⟩ := List.forall_mem_cons.mp hlt
      cases values with
      | nil => rfl
      | cons v values =>
          rw [List.zip_cons_cons, List.foldl_cons]
          cases j with
          | zero =>
              obtain rfl : m = k := by simpa using hj
              have hrest : ∀ e ∈ positions.zip values, e.1 < n ∧ Apart n e.1 m := fun e he => by
                have he := (List.of_mem_zip he).1
                exact ⟨hlt e.1 he, (hm e.1 he).symm⟩
              rw [getD_foldl_place_of_apart hk hx hrest, getD_place_self hz hk hx,
                if_pos (by simp)]
              rfl
          | succ j =>
              have happart := hm k (List.mem_of_getElem? hj)
              rw [ih hlt hpairs ((size_place n z (m, v)).trans hz) hj,
                getD_place_of_apart hk hmlt happart hx]
              simp

/-- **The encoder puts each value where its slot is**, at the position and at the mirrored one, and
zero where there is no value. -/
theorem getD_spread (hn : ∃ k, 1 ≤ k ∧ n = 2 ^ k) (values : List Float) (hj : j < n / 2) {x : ℕ}
    (hx : x = (make n).slotIndex.getD j 0 ∨ x = n - 1 - (make n).slotIndex.getD j 0) :
    ((make n).spread values).getD x .zero = ⟨values.getD j 0, 0⟩ := by
  have hpos : 0 < n := by omega
  have hentry : (make n).slotIndex.toList[j]? = some ((make n).slotIndex.getD j 0) := by
    rw [toList_slotIndex hpos]
    simp [hj]
  show (((make n).slotIndex.toList.zip values).foldl (place n)
    (Array.replicate n Phasor.zero)).getD x .zero = _
  rw [getD_foldl_place hx (lt_of_mem_slotIndex hpos) (pairwise_apart_slotIndex hn)
    Array.size_replicate hentry]
  split
  · rfl
  · next hnone =>
      have hvalue : values.getD j 0 = 0 := by
        rw [List.getD_eq_getElem?_getD, List.getElem?_eq_none (by omega), Option.getD_none]
      have hlt := slotIndex_lt hpos hj
      rw [hvalue, getD_replicate (by omega)]
      rfl

/-- **The order of the slots**, for every ring dimension.  The position of slot `j` belongs to the
power of 5 with its number.  The positions and their mirrors are pairwise distinct and all there
are, and the encoder puts the value of each slot there and nowhere else.  The element that the key
generator takes for a step moves the root of each slot to that of the slot `step` places on. -/
theorem slot_order (hn : ∃ k, 1 ≤ k ∧ n = 2 ^ k) :
    (make n).slotIndex.size = n / 2 ∧
      (∀ j < n / 2, 2 * (make n).slotIndex.getD j 0 + 1 = 5 ^ j % (2 * n)) ∧
      ((make n).slotIndex.toList ++ (make n).slotIndex.toList.map (n - 1 - ·)).Perm
        (List.range n) ∧
      (∀ values : List Float, ((make n).spread values).size = n ∧
        ∀ j < n / 2, ∀ x,
          x = (make n).slotIndex.getD j 0 ∨ x = n - 1 - (make n).slotIndex.getD j 0 →
            ((make n).spread values).getD x .zero = ⟨values.getD j 0, 0⟩) ∧
      ∀ (step : ℤ), ∀ j < n / 2,
        (2 * (make n).slotIndex.getD j 0 + 1) * Automorphism.element step n ≡
          2 * (make n).slotIndex.getD ((j + step) % (n / 2 : ℕ)).toNat 0 + 1 [MOD 2 * n] := by
  have hslots := Automorphism.half_pos hn
  have hpos : 0 < n := by omega
  refine ⟨size_slotIndex hpos, fun j hj => getD_slotIndex hpos hj, perm_slotIndex_mirrors hn,
    fun values => ⟨size_spread _ values, fun j hj x hx => getD_spread hn values hj hx⟩,
    fun step j hj => ?_⟩
  have hnonneg : 0 ≤ (j + step) % (n / 2 : ℕ) := Int.emod_nonneg _ (by omega)
  have hlt : (j + step) % (n / 2 : ℕ) < (n / 2 : ℕ) := Int.emod_lt_of_pos _ (by omega)
  have hm : ((((j + step) % (n / 2 : ℕ)).toNat : ℕ) : ℤ) ≡ j + step [ZMOD (n / 2 : ℕ)] := by
    rw [Int.toNat_of_nonneg hnonneg]
    exact Int.mod_modEq _ _
  rw [getD_slotIndex hpos hj, getD_slotIndex hpos (by omega)]
  calc 5 ^ j % (2 * n) * Automorphism.element step n
      ≡ 5 ^ j * Automorphism.element step n [MOD 2 * n] := (Nat.mod_modEq _ _).mul_right _
    _ ≡ 5 ^ ((j + step) % (n / 2 : ℕ)).toNat [MOD 2 * n] :=
      Automorphism.five_pow_mul_element_modEq hn hm
    _ ≡ 5 ^ ((j + step) % (n / 2 : ℕ)).toNat % (2 * n) [MOD 2 * n] := (Nat.mod_modEq _ _).symm

/-- The eight slots of a ring of dimension 16, and a step of three places back. -/
theorem slot_order_sixteen :
    (∃ k, 1 ≤ k ∧ 16 = 2 ^ k) ∧ (make 16).slotIndex = #[0, 2, 12, 14, 8, 10, 4, 6] ∧
      [0, 2, 12, 14, 8, 10, 4, 6, 15, 13, 3, 1, 7, 5, 11, 9].Perm (List.range 16) ∧
      ((make 16).spread [1.5, 2.5]).getD 13 .zero = ⟨2.5, 0⟩ ∧
      (2 * 2 + 1) * Automorphism.element (-3) 16 ≡ 2 * 4 + 1 [MOD 32] := by
  have hn : ∃ k, 1 ≤ k ∧ 16 = 2 ^ k := ⟨4, by decide, by decide⟩
  obtain ⟨-, -, hperm, hspread, hstep⟩ := slot_order hn
  exact ⟨hn, rfl, hperm, (hspread [1.5, 2.5]).2 1 (by decide) 13 (.inr rfl),
    hstep (-3) 1 (by decide)⟩

end Embedding

end EncryptedReals

import EncryptedReals.Aggregate
import Mathlib.Data.List.Chain

/-!
# Ranges of indices

The indices of samples are cut into ranges that lead from the first index to the last one: none is empty
and each starts where the one before it ended.  Ranges like these hold every index between their ends
exactly once, so no sample is lost and none is taken twice.

## Main Definitions

* `Samples.Leads` — ranges that lead from one index to another
* `Samples.evenRanges` — ranges of one length

## Main results

* `Samples.Leads.flatMap_range'`, `Samples.Leads.countP_eq` — the indices that ranges hold
* `Samples.chunks_eq` — the ranges have one length, and the last takes the remainder
* `Samples.leads_chunks`, `Samples.flatMap_chunks` — they lead from 0 to the count
* `Samples.chunks_partition` — the ranges and the indices in them
-/

namespace EncryptedReals

namespace Samples

variable {a b c count last length workers : ℕ} {ranges later : List (ℕ × ℕ)}

/-- Indices that follow each other are cut at an index between them. -/
theorem range'_append_range' (hab : a ≤ b) (hbc : b ≤ c) :
    List.range' a (b - a) ++ List.range' b (c - b) = List.range' a (c - a) := by
  have hsplit := @List.range'_append_1 a (b - a) (c - b)
  rwa [Nat.add_sub_cancel' hab, Nat.add_comm, Nat.sub_add_sub_cancel hbc hab] at hsplit

/-! ### Ranges that follow each other -/

/-- **Ranges that lead from one index to another**: none is empty, and each starts where the one before
it ended. -/
inductive Leads : ℕ → List (ℕ × ℕ) → ℕ → Prop
  | nil (a : ℕ) : Leads a [] a
  | cons {a b c : ℕ} {ranges : List (ℕ × ℕ)} (hab : a < b) (h : Leads b ranges c) :
      Leads a ((a, b) :: ranges) c

namespace Leads

theorem append (h : Leads a ranges b) (hlater : Leads b later c) : Leads a (ranges ++ later) c := by
  induction h with
  | nil a => exact hlater
  | cons hab _ ih => exact cons hab (ih hlater)

theorem le (h : Leads a ranges b) : a ≤ b := by
  induction h with
  | nil a => exact le_refl a
  | cons hab _ ih => exact hab.le.trans ih

/-- No range is empty, and none goes beyond the ends. -/
theorem bounds_of_mem (h : Leads a ranges b) : ∀ r ∈ ranges, a ≤ r.1 ∧ r.1 < r.2 ∧ r.2 ≤ b := by
  induction h with
  | nil a => simp
  | cons hab hrest ih =>
      intro r hr
      rcases List.mem_cons.mp hr with rfl | hr
      · exact ⟨le_refl _, hab, hrest.le⟩
      · obtain ⟨hstart, hstop⟩ := ih r hr
        exact ⟨hab.le.trans hstart, hstop⟩

theorem head?_eq (h : Leads a ranges b) (hab : a < b) : ranges.head?.map Prod.fst = some a := by
  cases h with
  | nil => exact absurd hab (lt_irrefl _)
  | cons => rfl

/-- Each range starts where the one before it ended. -/
theorem isChain (h : Leads a ranges b) : ranges.IsChain fun r next => r.2 = next.1 := by
  induction h with
  | nil a => exact List.isChain_nil
  | cons hab hrest ih =>
      cases hrest with
      | nil => exact List.isChain_singleton _
      | cons => exact List.isChain_cons_cons.mpr ⟨rfl, ih⟩

/-- **The indices of the ranges**, one range after the other, are those between the ends. -/
theorem flatMap_range' (h : Leads a ranges b) :
    ranges.flatMap (fun r => List.range' r.1 (r.2 - r.1)) = List.range' a (b - a) := by
  induction h with
  | nil a => rw [Nat.sub_self]; rfl
  | cons hab hrest ih => rw [List.flatMap_cons, ih, range'_append_range' hab.le hrest.le]

/-- **Every index between the ends lies in one range**, and no other index in any. -/
theorem countP_eq (h : Leads a ranges b) (i : ℕ) :
    ranges.countP (fun r => r.1 ≤ i ∧ i < r.2) = if a ≤ i ∧ i < b then 1 else 0 := by
  induction h with
  | nil a => rw [List.countP_nil, if_neg (by omega)]
  | @cons a b c ranges hab hrest ih =>
      have hbc := hrest.le
      simp only [List.countP_cons, ih, decide_eq_true_eq]
      -- below the boundary the index is in the first range, from it on in the others
      rcases Nat.lt_or_ge i b with hi | hi
      · rw [if_neg (show ¬(b ≤ i ∧ i < c) by omega), Nat.zero_add]
        exact if_congr (by omega) rfl rfl
      · rw [if_neg (show ¬(a ≤ i ∧ i < b) by omega), Nat.add_zero]
        exact if_congr (by omega) rfl rfl

end Leads

/-! ### Cutting the indices -/

/-- **Ranges of one length**, from 0 on. -/
def evenRanges (length pieces : ℕ) : List (ℕ × ℕ) :=
  (List.range pieces).map fun i => (i * length, i * length + length)

theorem leads_evenRanges (hlength : 0 < length) :
    ∀ pieces : ℕ, Leads 0 (evenRanges length pieces) (pieces * length) := by
  intro pieces
  induction pieces with
  | zero =>
      rw [Nat.zero_mul]
      exact .nil 0
  | succ pieces ih =>
      rw [evenRanges, List.range_succ, List.map_append, Nat.succ_mul]
      exact ih.append (.cons (Nat.lt_add_of_pos_right hlength) (.nil _))

/-- At least one index is cut into at least one range. -/
theorem exists_pieces (hcount : 0 < count) (workers : ℕ) :
    ∃ last, min (max workers 1) count = last + 1 ∧ last + 1 ≤ count :=
  ⟨min (max workers 1) count - 1, by omega, by omega⟩

/-- **All ranges but the last have one length**, and the last one ends at the count. -/
theorem chunks_eq (hcount : 0 < count) (hpieces : min (max workers 1) count = last + 1) :
    chunks count workers =
      evenRanges (count / (last + 1)) last ++ [(last * (count / (last + 1)), count)] := by
  have hfull : (List.range last).map (fun i => (i * (count / (last + 1)),
        if i + 1 = last + 1 then count else i * (count / (last + 1)) + count / (last + 1))) =
      evenRanges (count / (last + 1)) last := by
    refine List.map_congr_left fun i hi => ?_
    rw [if_neg (by have := List.mem_range.mp hi; omega)]
  simp only [chunks, if_neg hcount.ne', hpieces]
  rw [List.range_succ, List.map_append, hfull, List.map_singleton, if_pos rfl]

theorem sub_of_mem_evenRanges {r : ℕ × ℕ} {pieces : ℕ} (hr : r ∈ evenRanges length pieces) :
    r.2 - r.1 = length := by
  obtain ⟨i, -, rfl⟩ := List.mem_map.mp hr
  exact Nat.add_sub_cancel_left (i * length) length

/-- What is left for the last range is one length and the remainder. -/
theorem sub_last_mul_div (count last : ℕ) : count - last * (count / (last + 1)) =
    count / (last + 1) + count % (last + 1) := by
  refine Nat.sub_eq_of_eq_add' ?_
  rw [← Nat.add_assoc, ← Nat.succ_mul]
  exact (Nat.div_add_mod count (last + 1)).symm

/-- The last range is not empty, since there are at most as many ranges as indices. -/
theorem last_mul_div_lt (hlast : last + 1 ≤ count) : last * (count / (last + 1)) < count := by
  have hlength : 0 < count / (last + 1) := Nat.div_pos hlast last.succ_pos
  have hremainder := sub_last_mul_div count last
  omega

/-- **The ranges lead from 0 to the count.** -/
theorem leads_chunks (count workers : ℕ) : Leads 0 (chunks count workers) count := by
  rcases count.eq_zero_or_pos with rfl | hcount
  · exact Leads.nil 0
  · obtain ⟨last, hpieces, hlast⟩ := exists_pieces hcount workers
    rw [chunks_eq hcount hpieces]
    refine (leads_evenRanges (Nat.div_pos hlast last.succ_pos) last).append ?_
    exact .cons (last_mul_div_lt hlast) (.nil count)

/-- **The ranges cover every index once**, in ascending order. -/
theorem flatMap_chunks (count workers : ℕ) :
    (chunks count workers).flatMap (fun r => List.range' r.1 (r.2 - r.1)) = List.range count := by
  rw [(leads_chunks count workers).flatMap_range', Nat.sub_zero, List.range_eq_range']

theorem length_chunks (count workers : ℕ) :
    (chunks count workers).length = min (max workers 1) count := by
  rcases count.eq_zero_or_pos with rfl | hcount
  · rw [Nat.min_zero]
    rfl
  · obtain ⟨last, hpieces, -⟩ := exists_pieces hcount workers
    rw [chunks_eq hcount hpieces, hpieces, List.length_append, evenRanges, List.length_map,
      List.length_range, List.length_singleton]

theorem chunks_ne_nil (hcount : 0 < count) (workers : ℕ) : chunks count workers ≠ [] := by
  rw [← List.length_pos_iff, length_chunks]
  omega

theorem sub_of_mem_dropLast_chunks {r : ℕ × ℕ} (hr : r ∈ (chunks count workers).dropLast) :
    r.2 - r.1 = count / min (max workers 1) count := by
  rcases count.eq_zero_or_pos with rfl | hcount
  · cases hr
  · obtain ⟨last, hpieces, -⟩ := exists_pieces hcount workers
    rw [chunks_eq hcount hpieces, List.dropLast_concat] at hr
    rw [hpieces]
    exact sub_of_mem_evenRanges hr

theorem getLast?_chunks (hcount : 0 < count) (workers : ℕ) :
    ∃ start, (chunks count workers).getLast? = some (start, count) ∧ count - start =
      count / min (max workers 1) count + count % min (max workers 1) count := by
  obtain ⟨last, hpieces, -⟩ := exists_pieces hcount workers
  rw [chunks_eq hcount hpieces, List.getLast?_concat, hpieces]
  exact ⟨_, rfl, sub_last_mul_div count last⟩

/-- **The indices are cut into ranges.**  No indices give no range.  Otherwise there are as many ranges as
workers, but at least one and at most one for each index.  None of them is empty or goes beyond the
count, the first starts at 0, each of the others starts where the one before it ended, and the last ends
at the count.  All but the last have one length, and the last has the remainder besides.  So every index
below the count lies in exactly one range, and no other index in any. -/
theorem chunks_partition (count workers : ℕ) :
    (chunks count workers = [] ↔ count = 0) ∧
      (chunks count workers).length = min (max workers 1) count ∧
      (∀ r ∈ chunks count workers, r.1 < r.2 ∧ r.2 ≤ count) ∧
      ((chunks count workers).IsChain fun r next => r.2 = next.1) ∧
      (0 < count → (chunks count workers).head?.map Prod.fst = some 0 ∧
        ∃ start, (chunks count workers).getLast? = some (start, count) ∧ count - start =
          count / min (max workers 1) count + count % min (max workers 1) count) ∧
      (∀ r ∈ (chunks count workers).dropLast, r.2 - r.1 = count / min (max workers 1) count) ∧
      ∀ i, (chunks count workers).countP (fun r => r.1 ≤ i ∧ i < r.2) = if i < count then 1 else 0 := by
  have hleads := leads_chunks count workers
  have hlength := length_chunks count workers
  refine ⟨?_, hlength, fun r hr => (hleads.bounds_of_mem r hr).2, hleads.isChain,
    fun hcount => ⟨hleads.head?_eq hcount, getLast?_chunks hcount workers⟩,
    fun r hr => sub_of_mem_dropLast_chunks hr, fun i => ?_⟩
  · rw [← List.length_eq_zero_iff, hlength]
    omega
  · rw [hleads.countP_eq]
    exact if_congr (by omega) rfl rfl

/-- Ten indices over three workers: the middle range, the last one, and the only one that holds 6. -/
theorem chunks_partition_ten :
    ((3, 6) ∈ (chunks 10 3).dropLast ∧ 6 - 3 = 10 / min (max 3 1) 10) ∧
      ((6, 10) ∈ chunks 10 3 ∧ 6 < 10 ∧ 10 ≤ 10) ∧
      (0 < 10 ∧ (chunks 10 3).head?.map Prod.fst = some 0 ∧
        ∃ start, (chunks 10 3).getLast? = some (start, 10) ∧ 10 - start = 4) ∧
      (chunks 10 3).countP (fun r => r.1 ≤ 6 ∧ 6 < r.2) = 1 := by
  obtain ⟨-, -, hbounds, -, hends, heven, hone⟩ := chunks_partition 10 3
  have hmiddle : (3, 6) ∈ (chunks 10 3).dropLast := by decide
  have hlast : (6, 10) ∈ chunks 10 3 := by decide
  have hpos : 0 < 10 := by decide
  exact ⟨⟨hmiddle, heven (3, 6) hmiddle⟩, ⟨hlast, hbounds (6, 10) hlast⟩, ⟨hpos, hends hpos⟩, hone 6⟩

example : chunks 10 3 = [(0, 3), (3, 6), (6, 10)] ∧ chunks 2 8 = [(0, 1), (1, 2)] ∧
    chunks 5 0 = [(0, 5)] ∧ chunks 0 4 = [] := by decide

end Samples

end EncryptedReals

import EncryptedReals.Proofs.Ring.Transform

/-!
# The transforms in place

The recursions of the transforms need one vector only.  What a node of the tree reads is one block of
the vector, and what it computes fits over that block: entry `j` of the lower half and entry `j` of the
upper half are *crossed*, and both results go back to where the operands were.  Level by level this is
a sequence of passes, each of which crosses every entry of the vector once.  The forward transform
passes from the root to the leaves, the inverse one from the leaves to the root.

Within one pass no two crossings share an entry, so every crossing finds what the pass began with
(`getD_run_of_apart`).  The vector that a pass leaves is therefore known block by block
(`block_run_pass`), and the passes below a level do to its blocks what the recursion does
(`block_run_descend`, `block_run_ascend`).  This holds of any table and any vector.

The passes are also where the residues on the way can be seen one at a time, before each crossing.

## Main Definitions

* `Crossing`, `Crossing.residues` — two entries that are combined, and the residues that this gives
* `run` — crossings in place, one after the other
* `descend`, `ascend` — the passes of the two transforms
* `StaysCanonical` — every residue on the way is canonical

## Main results

* `forward_eq_run`, `inverse_eq_run` — the transforms are their passes
* `roundTrip` — both transforms of a made table undo each other, and stay canonical on the way
* `forward_evaluates` — the entries of the forward transform, as sums over the powers of the root
-/

namespace EncryptedReals.Transform

/-! ### Crossings -/

/-- The residues of one crossing: the one between, and the two that are written back. -/
structure Residues where
  inner : ℕ
  low : ℕ
  high : ℕ

/-- What a transform computes from a table entry and two entries of the vector. -/
abbrev Rule :=
  ℕ → ℕ → ℕ → Residues

/-- The rule of the forward transform: the upper entry is multiplied first. -/
def downward (q : Modulus) : Rule :=
  fun w u v => ⟨q.mul v w, q.add u (q.mul v w), q.sub u (q.mul v w)⟩

/-- The rule of the inverse transform: the difference is multiplied last. -/
def upward (q : Modulus) : Rule :=
  fun w u v => ⟨q.sub u v, q.add u v, q.mul (q.sub u v) w⟩

/-- **Two entries of a vector that are combined**, and the node whose table entry they are combined
with. -/
structure Crossing where
  node : ℕ
  low : ℕ
  high : ℕ

namespace Crossing

variable (rule : Rule) (table : Array ℕ) (c : Crossing) (a : Array ℕ)

/-- The residues that a crossing computes. -/
def residues : Residues :=
  rule (table.getD c.node 0) (a.getD c.low 0) (a.getD c.high 0)

/-- A crossing in place. -/
def perform : Array ℕ :=
  (a.setIfInBounds c.low (c.residues rule table a).low).setIfInBounds c.high
    (c.residues rule table a).high

/-- The entries of a crossing lie in a vector of a length, and are two. -/
structure Within (c : Crossing) (n : ℕ) : Prop where
  low_lt : c.low < n
  high_lt : c.high < n
  ne : c.low ≠ c.high

/-- Two crossings share no entry. -/
structure Apart (c d : Crossing) : Prop where
  low_low : c.low ≠ d.low
  low_high : c.low ≠ d.high
  high_low : c.high ≠ d.low
  high_high : c.high ≠ d.high

end Crossing

/-- **Crossings in place**, one after the other. -/
def run (rule : Rule) (table : Array ℕ) (cs : List Crossing) (a : Array ℕ) : Array ℕ :=
  cs.foldl (fun b c => c.perform rule table b) a

/-- **One pass** over a vector of `blocks` blocks, which are cut in halves: block by block, every entry
of the lower half with its partner in the upper half.  Halves have the length `half`. -/
def pass (blocks half : ℕ) : List Crossing :=
  (List.range blocks ×ˢ List.range half).map fun x =>
    ⟨blocks + x.1, 2 * x.1 * half + x.2, (2 * x.1 + 1) * half + x.2⟩

/-- The passes of the forward transform below a level of `blocks` blocks of length `2 ^ depth`. -/
def descend : (depth blocks : ℕ) → List Crossing
  | 0, _ => []
  | depth + 1, blocks => pass blocks (2 ^ depth) ++ descend depth (2 * blocks)

/-- The passes of the inverse transform, from the leaves up to a level. -/
def ascend : (depth blocks : ℕ) → List Crossing
  | 0, _ => []
  | depth + 1, blocks => ascend depth (2 * blocks) ++ pass blocks (2 ^ depth)

section Runs

variable {rule : Rule} {table a : Array ℕ} {c : Crossing} {cs : List Crossing} {n : ℕ}

theorem run_cons : run rule table (c :: cs) a = run rule table cs (c.perform rule table a) :=
  rfl

theorem run_append (cs ds : List Crossing) :
    run rule table (cs ++ ds) a = run rule table ds (run rule table cs a) :=
  List.foldl_append

theorem size_perform : (c.perform rule table a).size = a.size := by
  rw [Crossing.perform, Array.size_setIfInBounds, Array.size_setIfInBounds]

theorem size_run : (run rule table cs a).size = a.size :=
  List.foldlRecOn (motive := fun b : Array ℕ => b.size = a.size) cs _ rfl
    fun _ hb _ _ => size_perform.trans hb

/-! ### Crossings that share no entry -/

/-- An entry that a crossing does not touch stays. -/
theorem getD_perform_of_ne {i : ℕ} (hlow : c.low ≠ i) (hhigh : c.high ≠ i) :
    (c.perform rule table a).getD i 0 = a.getD i 0 := by
  rw [Crossing.perform, getD_setIfInBounds_ne hhigh, getD_setIfInBounds_ne hlow]

theorem getD_perform (rule : Rule) (table : Array ℕ) (h : c.Within a.size) :
    (c.perform rule table a).getD c.low 0 = (c.residues rule table a).low ∧
      (c.perform rule table a).getD c.high 0 = (c.residues rule table a).high := by
  rw [Crossing.perform]
  refine ⟨?_, getD_setIfInBounds_self (by rw [Array.size_setIfInBounds]; exact h.high_lt) _ _⟩
  rw [getD_setIfInBounds_ne h.ne.symm, getD_setIfInBounds_self h.low_lt]

/-- A crossing finds what is left of a vector after another one, if they share no entry. -/
theorem residues_perform {d : Crossing} (h : c.Apart d) :
    d.residues rule table (c.perform rule table a) = d.residues rule table a := by
  rw [Crossing.residues, Crossing.residues, getD_perform_of_ne h.low_low h.high_low,
    getD_perform_of_ne h.low_high h.high_high]

/-- What no crossing touches stays. -/
theorem getD_run_of_ne {i : ℕ} (h : ∀ c ∈ cs, c.low ≠ i ∧ c.high ≠ i) :
    (run rule table cs a).getD i 0 = a.getD i 0 :=
  List.foldlRecOn (motive := fun b : Array ℕ => b.getD i 0 = a.getD i 0) cs _ rfl
    fun _ hb c hc => (getD_perform_of_ne (h c hc).1 (h c hc).2).trans hb

/-- **Crossings that share no entry** all find the vector that the first one finds. -/
theorem getD_run_of_apart (rule : Rule) (table : Array ℕ) :
    ∀ {cs : List Crossing} {a : Array ℕ}, cs.Pairwise Crossing.Apart →
      (∀ c ∈ cs, c.Within a.size) → ∀ c ∈ cs,
        (run rule table cs a).getD c.low 0 = (c.residues rule table a).low ∧
          (run rule table cs a).getD c.high 0 = (c.residues rule table a).high := by
  intro cs
  induction cs with
  | nil => exact fun _ _ c hc => absurd hc List.not_mem_nil
  | cons d cs ih =>
      intro a hapart hwithin c hc
      obtain ⟨hd, hcs⟩ := List.pairwise_cons.mp hapart
      rw [run_cons]
      rcases List.mem_cons.mp hc with rfl | hc
      · -- the crossings after this one leave its entries alone
        obtain ⟨hlow, hhigh⟩ := getD_perform rule table (hwithin c hc)
        rw [getD_run_of_ne fun e he => ⟨(hd e he).low_low.symm, (hd e he).low_high.symm⟩,
          getD_run_of_ne fun e he => ⟨(hd e he).high_low.symm, (hd e he).high_high.symm⟩]
        exact ⟨hlow, hhigh⟩
      · have hrest : ∀ e ∈ cs, e.Within (d.perform rule table a).size := fun e he => by
          rw [size_perform]
          exact hwithin e (List.mem_cons_of_mem d he)
        rw [← residues_perform (hd c hc)]
        exact ih hcs hrest c hc

end Runs

/-! ### Blocks -/

/-- Block `i` of a vector that is cut into blocks of one length. -/
def block (length i : ℕ) (a : Array ℕ) : Array ℕ :=
  a.extract (i * length) ((i + 1) * length)

section Blocks

variable {a : Array ℕ} {length half i j : ℕ}

theorem size_block (h : (i + 1) * length ≤ a.size) : (block length i a).size = length := by
  rw [block, Array.size_extract, Nat.min_eq_left h, Nat.succ_mul, Nat.add_sub_cancel_left]

theorem getD_block (h : (i + 1) * length ≤ a.size) (hj : j < length) :
    (block length i a).getD j 0 = a.getD (i * length + j) 0 :=
  getD_extract (by rw [Nat.succ_mul]; omega) h 0

/-- A vector of one block. -/
theorem block_zero (h : a.size = length) : block length 0 a = a := by
  rw [block, zero_mul, zero_add, one_mul, ← h, Array.extract_size]

theorem extract_block_lower : (block (2 * half) i a).extract 0 half = block half (2 * i) a := by
  have hstart : i * (2 * half) = 2 * i * half := by ring
  have hstop : (i + 1) * (2 * half) = (2 * i + 1) * half + half := by ring
  have hmiddle : 2 * i * half + half = (2 * i + 1) * half := by ring
  rw [block, Array.extract_extract, block, hstart, hstop, hmiddle, Nat.add_zero,
    Nat.min_eq_left (Nat.le_add_right _ _)]

theorem extract_block_upper :
    (block (2 * half) i a).extract half (2 * half) = block half (2 * i + 1) a := by
  have hstart : i * (2 * half) + half = (2 * i + 1) * half := by ring
  have hstop : i * (2 * half) + 2 * half = (2 * i + 1 + 1) * half := by ring
  have hend : (i + 1) * (2 * half) = (2 * i + 1 + 1) * half := by ring
  rw [block, Array.extract_extract, block, hstart, hstop, hend, Nat.min_self]

/-- A block is its two halves. -/
theorem block_two_mul : block (2 * half) i a = block half (2 * i) a ++ block half (2 * i + 1) a := by
  have hstart : i * (2 * half) = 2 * i * half := by ring
  have hstop : (i + 1) * (2 * half) = (2 * i + 1 + 1) * half := by ring
  have hle : 2 * i * half ≤ (2 * i + 1) * half := Nat.mul_le_mul_right half (Nat.le_succ _)
  have hle' : (2 * i + 1) * half ≤ (2 * i + 1 + 1) * half := Nat.mul_le_mul_right half (Nat.le_succ _)
  rw [block, block, block, Array.extract_append_extract, Nat.min_eq_left hle, Nat.max_eq_right hle',
    hstart, hstop]

/-- A block whose entries are computed from those of two blocks. -/
theorem block_eq_zipWith {f : ℕ → ℕ → ℕ} {b : Array ℕ} {k l m : ℕ}
    (hk : (k + 1) * length ≤ b.size) (hl : (l + 1) * length ≤ a.size)
    (hm : (m + 1) * length ≤ a.size)
    (h : ∀ j < length,
      b.getD (k * length + j) 0 = f (a.getD (l * length + j) 0) (a.getD (m * length + j) 0)) :
    block length k b = Array.zipWith f (block length l a) (block length m a) := by
  refine array_ext_getD ?_ 0 fun j hj => ?_
  · rw [size_block hk, Array.size_zipWith, size_block hl, size_block hm, Nat.min_self]
  · rw [size_block hk] at hj
    rw [getD_block hk hj, h j hj, getD_zipWith f (by rwa [size_block hl]) (by rwa [size_block hm]) 0 0,
      getD_block hl hj, getD_block hm hj]

end Blocks

/-! ### One pass -/

section Pass

variable {a : Array ℕ} {blocks half i j : ℕ}

/-- The place of an entry determines its block and its place in the block. -/
theorem eq_of_place_eq {i' j' : ℕ} (hj : j < half) (hj' : j' < half)
    (h : i * half + j = i' * half + j') : i = i' ∧ j = j' := by
  have hpos : 0 < half := by omega
  have hi : i = i' := by
    have hdiv := congrArg (· / half) h
    simpa only [Nat.mul_comm _ half, Nat.mul_add_div hpos, Nat.div_eq_of_lt hj,
      Nat.div_eq_of_lt hj', Nat.add_zero] using hdiv
  subst hi
  exact ⟨rfl, by omega⟩

theorem mem_pass {c : Crossing} : c ∈ pass blocks half ↔ ∃ i < blocks, ∃ j < half,
    c = ⟨blocks + i, 2 * i * half + j, (2 * i + 1) * half + j⟩ := by
  simp only [pass, List.mem_map, Prod.exists, List.mem_product, List.mem_range, eq_comm (b := c),
    and_assoc, exists_and_left]

/-- The place of an entry of a block lies in the vector. -/
theorem place_lt {n : ℕ} (hi : i < n) (hj : j < half) : i * half + j < n * half := by
  have hle : (i + 1) * half ≤ n * half := Nat.mul_le_mul_right half hi
  rw [Nat.succ_mul] at hle
  omega

theorem within_pass {c : Crossing} (hc : c ∈ pass blocks half) : c.Within (2 * blocks * half) := by
  obtain ⟨i, hi, j, hj, rfl⟩ := mem_pass.mp hc
  refine ⟨place_lt (by omega) hj, place_lt (by omega) hj, fun h => ?_⟩
  have := (eq_of_place_eq hj hj h).1
  omega

/-- **The crossings of a pass share no entry.** -/
theorem pairwise_apart_pass (blocks half : ℕ) : (pass blocks half).Pairwise Crossing.Apart := by
  refine List.pairwise_map.mpr ((List.nodup_range.product List.nodup_range).imp_of_mem ?_)
  rintro ⟨i, j⟩ ⟨i', j'⟩ hx hx' hne
  simp only [List.mem_product, List.mem_range] at hx hx'
  -- the halves of block `i` are the blocks `2 * i` and `2 * i + 1` of half the length, so that either
  -- of them determines `i`
  have hplaces : ∀ b b' : ℕ, b ≤ 1 → b' ≤ 1 →
      (2 * i + b) * half + j ≠ (2 * i' + b') * half + j' := by
    intro b b' hb hb' h
    obtain ⟨hblock, rfl⟩ := eq_of_place_eq hx.2 hx'.2 h
    have hi : i = i' := by omega
    exact hne (by rw [hi])
  exact ⟨hplaces 0 0 zero_le_one zero_le_one, hplaces 0 1 zero_le_one le_rfl,
    hplaces 1 0 le_rfl zero_le_one, hplaces 1 1 le_rfl le_rfl⟩

/-- **What a pass does to the two halves of a block.** -/
theorem block_run_pass (rule : Rule) (table : Array ℕ) (ha : a.size = 2 * blocks * half) (hi : i < blocks) :
    block half (2 * i) (run rule table (pass blocks half) a) =
        Array.zipWith (fun u v => (rule (table.getD (blocks + i) 0) u v).low)
          (block half (2 * i) a) (block half (2 * i + 1) a) ∧
      block half (2 * i + 1) (run rule table (pass blocks half) a) =
        Array.zipWith (fun u v => (rule (table.getD (blocks + i) 0) u v).high)
          (block half (2 * i) a) (block half (2 * i + 1) a) := by
  have hfits : ∀ b ≤ 1, (2 * i + b + 1) * half ≤ a.size := fun b hb => by
    rw [ha]
    exact Nat.mul_le_mul_right half (by omega)
  have hsize : (run rule table (pass blocks half) a).size = a.size := size_run
  have hentries := fun j (hj : j < half) =>
    getD_run_of_apart rule table (pairwise_apart_pass blocks half)
      (fun c hc => ha ▸ within_pass hc) _ (mem_pass.mpr ⟨i, hi, j, hj, rfl⟩)
  have hlow := hfits 0 zero_le_one
  have hhigh := hfits 1 le_rfl
  exact ⟨block_eq_zipWith (hsize ▸ hlow) hlow hhigh fun j hj => (hentries j hj).1,
    block_eq_zipWith (hsize ▸ hhigh) hlow hhigh fun j hj => (hentries j hj).2⟩

end Pass

/-! ### The passes are the recursion -/

section Recursion

variable (q : Modulus) (table : Array ℕ)

/-- **The passes below a level** split each of its blocks. -/
theorem block_run_descend :
    ∀ {d blocks i : ℕ} {a : Array ℕ}, a.size = blocks * 2 ^ d → i < blocks →
      block (2 ^ d) i (run (downward q) table (descend d blocks) a) =
        split q table d (blocks + i) (block (2 ^ d) i a) := by
  intro d
  induction d with
  | zero => exact fun _ _ => rfl
  | succ d ih =>
      intro blocks i a ha hi
      have hsize : a.size = 2 * blocks * 2 ^ d := by rw [ha, pow_succ']; ring
      obtain ⟨hlow, hhigh⟩ := block_run_pass (downward q) table hsize hi
      have hpass : (run (downward q) table (pass blocks (2 ^ d)) a).size = 2 * blocks * 2 ^ d :=
        size_run.trans hsize
      -- after the first pass the two halves of the block are what `split` recurses into
      rw [descend, run_append, pow_succ', block_two_mul, ih hpass (by omega), ih hpass (by omega),
        hlow, hhigh, split, extract_block_lower, extract_block_upper, Array.zipWith_map_right,
        Array.zipWith_map_right, mul_add, add_assoc]
      rfl

/-- **The passes up to a level** merge each of its blocks. -/
theorem block_run_ascend :
    ∀ {d blocks i : ℕ} {a : Array ℕ}, a.size = blocks * 2 ^ d → i < blocks →
      block (2 ^ d) i (run (upward q) table (ascend d blocks) a) =
        merge q table d (blocks + i) (block (2 ^ d) i a) := by
  intro d
  induction d with
  | zero => exact fun _ _ => rfl
  | succ d ih =>
      intro blocks i a ha hi
      have hsize : a.size = 2 * blocks * 2 ^ d := by rw [ha, pow_succ']; ring
      have hpasses : (run (upward q) table (ascend d (2 * blocks)) a).size = 2 * blocks * 2 ^ d :=
        size_run.trans hsize
      obtain ⟨hlow, hhigh⟩ := block_run_pass (upward q) table hpasses hi
      -- before the last pass the two halves of the block are what `merge` got from its recursion
      rw [ascend, run_append, pow_succ', block_two_mul, hlow, hhigh, ih hsize (by omega),
        ih hsize (by omega), merge, extract_block_lower, extract_block_upper, mul_add, add_assoc]
      rfl

end Recursion

/-- **The forward transform is its passes.** -/
theorem forward_eq_run {t : Transform} (hsize : t.size = 2 ^ t.logSize) {a : Array ℕ}
    (ha : a.size = t.size) :
    t.forward a = run (downward t.modulus) t.roots (descend t.logSize 1) a := by
  have hpasses := block_run_descend t.modulus t.roots (d := t.logSize) (i := 0) (a := a)
    (by rw [ha, hsize, one_mul]) one_pos
  rw [block_zero (size_run.trans (ha.trans hsize)), block_zero (ha.trans hsize)] at hpasses
  rw [Lawful.forward_eq ha, hpasses]

/-- **The inverse transform is its passes** and one product for each entry. -/
theorem inverse_eq_run {t : Transform} (hsize : t.size = 2 ^ t.logSize) {a : Array ℕ}
    (ha : a.size = t.size) :
    t.inverse a = (run (upward t.modulus) t.inverseRoots (ascend t.logSize 1) a).map
      fun x => t.modulus.mul x t.sizeInverse := by
  have hpasses := block_run_ascend t.modulus t.inverseRoots (d := t.logSize) (i := 0) (a := a)
    (by rw [ha, hsize, one_mul]) one_pos
  rw [block_zero (size_run.trans (ha.trans hsize)), block_zero (ha.trans hsize)] at hpasses
  rw [Lawful.inverse_eq ha, hpasses]

/-! ### Residues on the way -/

/-- All residues of a crossing are canonical. -/
structure Residues.Canonical (q : Modulus) (r : Residues) : Prop where
  inner_lt : r.inner < q.value
  low_lt : r.low < q.value
  high_lt : r.high < q.value

/-- **Every residue on the way is canonical**: those of the vector after any number of crossings, and
those that the next crossing computes. -/
structure StaysCanonical (q : Modulus) (n : ℕ) (rule : Rule) (table : Array ℕ) (cs : List Crossing)
    (a : Array ℕ) : Prop where
  vector : ∀ done, done <+: cs → q.IsVector n (run rule table done a)
  crossing : ∀ done c, done ++ [c] <+: cs →
    (c.residues rule table (run rule table done a)).Canonical q

section Canonical

variable {q : Modulus} {rule : Rule} {table a : Array ℕ} {n : ℕ}

/-- A rule keeps residues canonical. -/
def Rule.Keeps (q : Modulus) (rule : Rule) : Prop :=
  ∀ w u v, u < q.value → v < q.value → (rule w u v).Canonical q

theorem keeps_downward (hpos : 0 < q.value) (hq : q.value < 2 ^ 63) : (downward q).Keeps q :=
  fun w _ v hu _ => ⟨q.mul_lt hpos v w, q.add_lt hq hu (q.mul_lt hpos v w),
    q.sub_lt (hq.trans (by norm_num)) hu (q.mul_lt hpos v w)⟩

theorem keeps_upward (hpos : 0 < q.value) (hq : q.value < 2 ^ 63) : (upward q).Keeps q :=
  fun w _ _ hu hv =>
    ⟨q.sub_lt (hq.trans (by norm_num)) hu hv, q.add_lt hq hu hv, q.mul_lt hpos _ w⟩

/-- What is read beyond the end of a vector is canonical too. -/
theorem getD_lt_of_isVector (hpos : 0 < q.value) (ha : q.IsVector n a) (i : ℕ) :
    a.getD i 0 < q.value := by
  rcases Nat.lt_or_ge i n with hi | hi
  · exact ha.lt i hi
  · rw [Array.getD_eq_getD_getElem?, Array.getElem?_eq_none (ha.size_eq ▸ hi), Option.getD_none]
    exact hpos

theorem isVector_setIfInBounds (ha : q.IsVector n a) {x : ℕ} (hx : x < q.value) (i : ℕ) :
    q.IsVector n (a.setIfInBounds i x) := by
  refine ⟨Array.size_setIfInBounds.trans ha.size_eq, fun j hj => ?_⟩
  by_cases h : i = j
  · rw [h, getD_setIfInBounds_self (ha.size_eq.symm ▸ hj)]
    exact hx
  · rw [getD_setIfInBounds_ne h]
    exact ha.lt j hj

/-- **One crossing** computes canonical residues and leaves canonical ones. -/
theorem canonical_residues (hpos : 0 < q.value) (hrule : rule.Keeps q) (ha : q.IsVector n a)
    (c : Crossing) : (c.residues rule table a).Canonical q :=
  hrule _ _ _ (getD_lt_of_isVector hpos ha _) (getD_lt_of_isVector hpos ha _)

theorem isVector_run (hpos : 0 < q.value) (hrule : rule.Keeps q) (ha : q.IsVector n a)
    (cs : List Crossing) : q.IsVector n (run rule table cs a) :=
  List.foldlRecOn (motive := q.IsVector n) cs _ ha fun _ hb c _ =>
    have hc := canonical_residues hpos hrule hb c
    isVector_setIfInBounds (isVector_setIfInBounds hb hc.low_lt _) hc.high_lt _

/-- **A run stays canonical**, whatever its crossings are. -/
theorem staysCanonical (hpos : 0 < q.value) (hrule : rule.Keeps q) (table : Array ℕ)
    (ha : q.IsVector n a) (cs : List Crossing) : StaysCanonical q n rule table cs a where
  vector done _ := isVector_run hpos hrule ha done
  crossing done c _ := canonical_residues hpos hrule (isVector_run hpos hrule ha done) c

end Canonical

/-! ### Made transforms -/

/-- **Both transforms undo each other**, for every length that is a power of two and every prime that
is 1 modulo twice the length: tables are made, the transforms that use them are their passes, and every
residue on the way and in the results is canonical. -/
theorem roundTrip (k : ℕ) (q : Modulus) (hprime : q.value.Prime) (hq : q.value < 2 ^ 63)
    (hmod : q.value % (2 * 2 ^ k) = 1) :
    ∃ t, make (2 ^ k) q = .ok t ∧ ∀ a, q.IsVector (2 ^ k) a →
      t.inverse (t.forward a) = a ∧ t.forward (t.inverse a) = a ∧
      q.IsVector (2 ^ k) (t.forward a) ∧ q.IsVector (2 ^ k) (t.inverse a) ∧
      t.forward a = run (downward q) t.roots (descend k 1) a ∧
      StaysCanonical q (2 ^ k) (downward q) t.roots (descend k 1) a ∧
      t.inverse a = (run (upward q) t.inverseRoots (ascend k 1) a).map
        (fun x => q.mul x t.sizeInverse) ∧
      StaysCanonical q (2 ^ k) (upward q) t.inverseRoots (ascend k 1) a := by
  obtain ⟨t, psi, hmake, rfl, hsize, hlawful⟩ := exists_make hprime hq hmod
  have hlog : t.logSize = k := Nat.pow_right_injective le_rfl (hlawful.size_eq.symm.trans hsize)
  refine ⟨t, hmake, fun a ha => ?_⟩
  have hforward := forward_eq_run hlawful.size_eq (ha.size_eq.trans hsize.symm)
  have hinverse := inverse_eq_run hlawful.size_eq (ha.size_eq.trans hsize.symm)
  have hdown := keeps_downward hlawful.pos hlawful.small
  have hup := keeps_upward hlawful.pos hlawful.small
  have hdownward := staysCanonical hlawful.pos hdown t.roots ha (descend k 1)
  have hupward := staysCanonical hlawful.pos hup t.inverseRoots ha (ascend k 1)
  rw [hlog] at hforward hinverse
  rw [← hsize] at ha ⊢
  exact ⟨hlawful.inverse_forward ha, hlawful.forward_inverse ha, hlawful.isVector_forward ha,
    hlawful.isVector_inverse ha, hforward, hsize ▸ hdownward, hinverse, hsize ▸ hupward⟩

/-- Length 4 modulo 17. -/
theorem roundTrip_four : ∃ t, make (2 ^ 2) ⟨17⟩ = .ok t ∧
    t.inverse (t.forward #[1, 2, 3, 16]) = #[1, 2, 3, 16] ∧
      t.forward (t.inverse #[1, 2, 3, 16]) = #[1, 2, 3, 16] ∧
      StaysCanonical ⟨17⟩ (2 ^ 2) (downward ⟨17⟩) t.roots (descend 2 1) #[1, 2, 3, 16] ∧
      StaysCanonical ⟨17⟩ (2 ^ 2) (upward ⟨17⟩) t.inverseRoots (ascend 2 1) #[1, 2, 3, 16] := by
  obtain ⟨t, hmake, h⟩ := roundTrip 2 ⟨17⟩ (by norm_num) (by norm_num) (by decide)
  have hvector : Modulus.IsVector ⟨17⟩ (2 ^ 2) #[1, 2, 3, 16] := ⟨rfl, by decide⟩
  obtain ⟨hback, hforth, -, -, -, hdown, -, hup⟩ := h _ hvector
  exact ⟨t, hmake, hback, hforth, hdown, hup⟩

/-- **What the forward transform computes**, for every length that is a power of two and every prime
that is 1 modulo twice the length: entry `j` is the value of the polynomial at the power
`2 * bitReverse k j + 1` of the root that the tables come from. -/
theorem forward_evaluates (k : ℕ) (q : Modulus) (hprime : q.value.Prime) (hq : q.value < 2 ^ 63)
    (hmod : q.value % (2 * 2 ^ k) = 1) :
    ∃ psi t, q.primitiveRoot? (2 ^ k) = some psi ∧ make (2 ^ k) q = .ok t ∧
      psi ^ 2 ^ k % q.value = q.value - 1 ∧
      (∀ m < 2 ^ k, t.roots.getD m 0 = psi ^ bitReverse k m % q.value) ∧
      ∀ a, q.IsVector (2 ^ k) a → ∀ j < 2 ^ k, (t.forward a).getD j 0 =
        (∑ i ∈ Finset.range (2 ^ k), a.getD i 0 * psi ^ ((2 * bitReverse k j + 1) * i)) % q.value := by
  obtain ⟨psi, hpsi, hmake, hlawful⟩ := make_eq_ofRoot hprime hq hmod
  have hone : 1 < q.value := hprime.one_lt
  refine ⟨psi, _, hpsi, hmake, ?_, fun m hm => ?_, fun a ha j hj => ?_⟩
  · rw [← Modulus.pow_eq_mod hone, Modulus.pow_eq_value_sub_one_iff hone]
    exact hlawful.psi_pow
  · rw [← Modulus.pow_eq_mod hone]
    exact getD_ofFn _ hm 0
  · have hview : (((ofRoot q (2 ^ k) k psi).forward a).getD j 0 : ZMod q.value) =
        Negacyclic.eval (2 ^ k) (q.view a) ((psi : ZMod q.value) ^ (2 * bitReverse k j + 1)) :=
      hlawful.view_forward ha hj
    -- both sides are canonical, so they are compared in the ring
    refine Modulus.eq_of_cast_eq (q := q) ((hlawful.isVector_forward ha).lt j hj)
      (Nat.mod_lt _ hprime.pos) ?_
    rw [hview, Negacyclic.eval, ZMod.natCast_mod, Nat.cast_sum]
    refine Finset.sum_congr rfl fun i _ => ?_
    rw [Modulus.view, ← pow_mul, Nat.cast_mul, Nat.cast_pow]

/-- Length 4 modulo 17: the third entry, at the power 3 of the root. -/
theorem forward_evaluates_four : ∃ psi t, make (2 ^ 2) ⟨17⟩ = .ok t ∧ psi ^ 4 % 17 = 16 ∧
    (t.forward #[1, 2, 3, 16]).getD 2 0 = (1 + 2 * psi ^ 3 + 3 * psi ^ 6 + 16 * psi ^ 9) % 17 := by
  obtain ⟨psi, t, -, hmake, hpsi, -, h⟩ :=
    forward_evaluates 2 ⟨17⟩ (by norm_num) (by norm_num) (by decide)
  have hvector : Modulus.IsVector ⟨17⟩ (2 ^ 2) #[1, 2, 3, 16] := ⟨rfl, by decide⟩
  refine ⟨psi, t, hmake, hpsi, (h _ hvector 2 (by decide)).trans ?_⟩
  simp [Finset.sum_range_succ, bitReverse]

end EncryptedReals.Transform

import EncryptedReals.Proofs.Aggregation

/-!
# Samples by the words of their stream

The stream of a seed is a sequence of 32-bit words, sixteen to a block, and a sample takes the next two
of them.  So whoever reads the stream word by word stands before word `2 * i` when sample `i` is due, in
the middle of a block as well as at its start, and entering the stream at that word leads to the same
place as drawing all samples before.  Samples that are drawn from some index on are thus those of a longer
range, and a range can be cut anywhere.

## Main Definitions

* `Generator.halfWord` — the 32-bit words of a stream
* `WordReader` — computations that read a stream word by word
* `WordReader.samples` — samples drawn that way

## Main results

* `Generator.word_eq_join` — a 64-bit word is two words of the stream
* `WordReader.run_samples` — drawing samples moves on by two words for each
* `WordReader.run_samples_eq_range` — entering the stream at an index
* `Samples.range_split` — a range is its parts, wherever it is cut
-/

namespace EncryptedReals

/-! ### Words of 32 bits -/

/-- The sixteen words of a block, in the order of the stream. -/
def Block.words (s : Block) : List UInt32 :=
  [s.a.x0, s.a.x1, s.a.x2, s.a.x3, s.b.x0, s.b.x1, s.b.x2, s.b.x3,
    s.c.x0, s.c.x1, s.c.x2, s.c.x3, s.d.x0, s.d.x1, s.d.x2, s.d.x3]

theorem Block.pair_eq_join (s : Block) {i : ℕ} (hi : i < 8) :
    s.pair i = join (s.words.getD (2 * i) 0) (s.words.getD (2 * i + 1) 0) := by
  interval_cases i <;> rfl

/-- **A 32-bit word of a stream**, by its place: word `place % 16` of block `place / 16`. -/
def Generator.halfWord (g : Generator) (place : ℕ) : UInt32 :=
  (g.initial (UInt64.ofNat (place / 16))).output.words.getD (place % 16) 0

/-- **A 64-bit word is two words of the stream**, and both stand in one block. -/
theorem Generator.word_eq_join (g : Generator) :
    g.word = Block.join (g.halfWord (2 * g.position)) (g.halfWord (2 * g.position + 1)) := by
  have hlow : 2 * g.position / 16 = g.position / 8 ∧
      2 * g.position % 16 = 2 * (g.position % 8) := by omega
  have hhigh : (2 * g.position + 1) / 16 = g.position / 8 ∧
      (2 * g.position + 1) % 16 = 2 * (g.position % 8) + 1 := by omega
  rw [word, Block.pair_eq_join _ (Nat.mod_lt _ (by norm_num)), halfWord, halfWord, hlow.1, hlow.2,
    hhigh.1, hhigh.2]

/-! ### Reading word by word -/

namespace Samples

/-- The sample that a 64-bit word gives. -/
def ofWord (w : UInt64) (bound : Float) : Float :=
  (w >>> 11).toFloat * Float.ofBits 0x3ca0000000000000 * bound

theorem value_eq_ofWord (seed : UInt64) (bound : Float) (i : ℕ) :
    value seed bound i = ofWord (Block.join ((Generator.ofSeed seed).halfWord (2 * i))
      ((Generator.ofSeed seed).halfWord (2 * i + 1))) bound := by
  have hword := ((Generator.ofSeed seed).atPosition i).word_eq_join
  exact congrArg (ofWord · bound) hword

end Samples

/-- **A computation that reads a stream of 32-bit words.**  Its state is the number of words that stand
before its place. -/
abbrev WordReader := StateM ℕ

namespace WordReader

variable (halves : ℕ → UInt32) (bound : Float)

/-- The next 32-bit word. -/
def half : WordReader UInt32 :=
  fun place => (halves place, place + 1)

/-- The next 64-bit word: two words, of which the first is the low half. -/
def word : WordReader UInt64 := do
  let low ← half halves
  let high ← half halves
  return Block.join low high

/-- The next sample. -/
def sample : WordReader Float := do
  return Samples.ofWord (← word halves) bound

/-- **The next samples**, one after the other. -/
def samples : ℕ → WordReader (List Float)
  | 0 => return []
  | count + 1 => do
    let x ← sample halves bound
    return x :: (← samples count)

/-- **One more sample takes two words**, and the others are read behind them. -/
theorem run_samples_succ (count place : ℕ) : (samples halves bound (count + 1)).run place =
    (Samples.ofWord (Block.join (halves place) (halves (place + 1))) bound ::
      ((samples halves bound count).run (place + 2)).1,
      ((samples halves bound count).run (place + 2)).2) :=
  rfl

/-- **Drawing samples moves on by two words for each**, by induction on how many are left. -/
theorem run_samples : ∀ count i : ℕ, (samples halves bound count).run (2 * i) =
    ((List.range' i count).map fun j =>
      Samples.ofWord (Block.join (halves (2 * j)) (halves (2 * j + 1))) bound, 2 * (i + count)) := by
  intro count
  induction count with
  | zero => exact fun i => rfl
  | succ count ih =>
      intro i
      have hplace : 2 * (i + 1 + count) = 2 * (i + (count + 1)) := by omega
      rw [run_samples_succ, ← Nat.mul_succ, ih, List.range'_succ, List.map_cons]
      exact Prod.ext rfl hplace

/-- **Entering the stream of a seed at an index.**  From word `2 * start` on, the samples of the range are
read, and the reader stands at word `2 * stop` after them. -/
theorem run_samples_eq_range (seed : UInt64) {start stop : ℕ} (h : start ≤ stop) :
    (samples (Generator.ofSeed seed).halfWord bound (stop - start)).run (2 * start) =
      (Samples.range seed start stop bound, 2 * stop) := by
  have hvalue : (fun j => Samples.ofWord (Block.join ((Generator.ofSeed seed).halfWord (2 * j))
      ((Generator.ofSeed seed).halfWord (2 * j + 1))) bound) = Samples.value seed bound :=
    funext fun j => (Samples.value_eq_ofWord seed bound j).symm
  rw [run_samples, Nat.add_sub_cancel' h, Samples.range_eq, hvalue]

end WordReader

/-! ### Cutting a range -/

namespace Samples

variable {start mid stop : ℕ}

/-- A place in a range holds the sample of its index. -/
theorem getElem?_range (seed : UInt64) (start stop : ℕ) (bound : Float) (i : ℕ) :
    (range seed start stop bound)[i]? =
      if start + i < stop then some (value seed bound (start + i)) else none := by
  rw [range_eq, List.getElem?_map]
  split
  · rw [List.getElem?_range' (by omega), Option.map_some, Nat.one_mul]
  · rw [List.getElem?_eq_none (by rw [List.length_range']; omega), Option.map_none]

theorem range_append_range (seed : UInt64) (bound : Float) (hstart : start ≤ mid)
    (hstop : mid ≤ stop) :
    range seed start mid bound ++ range seed mid stop bound = range seed start stop bound := by
  rw [range_eq, range_eq, range_eq, ← List.map_append, range'_append_range' hstart hstop]

/-- **A range of samples is its parts, wherever it is cut.**  Each sample is a function of the seed, of the
bound and of its index, whatever the range begins with: sample `i` is made of the words `2 * i` and
`2 * i + 1` of the stream.  Whoever has read the samples before an index word by word, from any earlier
one on, stands before the word at which a range from that index enters the stream, and the generator that
has drawn them is the one placed there. -/
theorem range_split (seed : UInt64) (bound : Float) (hstart : start ≤ mid) (hstop : mid ≤ stop) :
    range seed start stop bound = range seed start mid bound ++ range seed mid stop bound ∧
      (∀ i, (range seed start stop bound)[i]? =
        if start + i < stop then some (value seed bound (start + i)) else none) ∧
      (∀ i, value seed bound i = ofWord (Block.join ((Generator.ofSeed seed).halfWord (2 * i))
        ((Generator.ofSeed seed).halfWord (2 * i + 1))) bound) ∧
      (WordReader.samples (Generator.ofSeed seed).halfWord bound (mid - start)).run (2 * start) =
        (range seed start mid bound, 2 * mid) ∧
      ((Drawing.vector (mid - start) (draw bound)).run
        ((Generator.ofSeed seed).atPosition start)).2 = (Generator.ofSeed seed).atPosition mid := by
  refine ⟨(range_append_range seed bound hstart hstop).symm, getElem?_range seed start stop bound,
    value_eq_ofWord seed bound, WordReader.run_samples_eq_range bound seed hstart, ?_⟩
  rw [Drawing.place_vector fun _ => rfl]
  exact congrArg (Generator.ofSeed seed).atPosition (Nat.add_sub_cancel' hstart)

/-- Samples 5 to 16, cut before sample 9: a block is eight samples, so both parts begin inside one. -/
theorem range_split_nine : 5 ≤ 9 ∧ 9 ≤ 17 ∧
    range 9 5 17 10 = range 9 5 9 10 ++ range 9 9 17 10 ∧
      (range 9 5 17 10)[4]? = some (Float.ofBits 0x4021830294cc9b74) ∧
      (WordReader.samples (Generator.ofSeed 9).halfWord 10 4).run 10 = (range 9 5 9 10, 18) := by
  obtain ⟨hsplit, hget, -, hread, -⟩ :=
    range_split 9 10 (show 5 ≤ 9 by norm_num) (show 9 ≤ 17 by norm_num)
  refine ⟨by norm_num, by norm_num, hsplit, ?_, hread⟩
  rw [hget 4, if_pos (by norm_num), Option.some.injEq]
  decide +kernel

end Samples

end EncryptedReals

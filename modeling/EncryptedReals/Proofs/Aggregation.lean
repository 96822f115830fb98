import EncryptedReals.Proofs.Ranges
import EncryptedReals.Proofs.Schemes
import EncryptedReals.Proofs.Sums

/-!
# The concurrent sum is the sequential one

Three facts make the sum of samples independent of how many workers compute it and of when they
finish.  The ranges of the workers follow each other and cover every index once.  A sample and
its encryption are functions of the seed and of the index, wherever a range starts.  And sums of
ciphertexts can be regrouped, so partial sums added to the encryption of zero give the sum that
adds the samples to it one by one.

Every encryption reads a stream of its own.  The number of the stream stands in every block that a
generator computes, so generators on different streams have no block in common, and an encryption
never leaves the stream that it begins on.

## Main Definitions

* `Gathering.Settled` — the orders in which enough workers have finished
* `Gathering.Holds` — what has come back, said of the answers
* `Generator.Apart` — generators that have no block in common
* `Samples.value`, `Samples.encryption` — one sample, and its encryption
* `Samples.addSample`, `Samples.partialSum` — a step of a worker, and the sum of ciphertexts
* `SampleSum.IsSum` — what both sums are

## Main results

* `Samples.range_eq` — a sample depends on its index alone
* `Gathering.collect_run` — the order of finishing does not matter
* `Scheme.onward_encryptValue` — an encryption stays on its stream
* `Samples.flatMap_range_chunks` — workers together draw the samples that one would draw alone
* `Samples.apart_generators` — the streams of the encryptions
* `Samples.encryptRange_eq_ok` — what a worker returns
* `SampleSum.sequential_eq_ok`, `SampleSum.concurrentIn_eq_ok` — what the sums are
* `SampleSum.concurrentIn_iff_sequential` — they are the same

## Design Notes

Failures are not compared, only whether there is one: which failure is reported depends on the order
in which workers finish.  So the results on sums are equivalences about success.
-/

namespace EncryptedReals

/-! ### Gathering -/

namespace Gathering

variable {α : Type} {answers : List (Except Failure α)} {g : Gathering α} {seen : List ℕ}

/-- **What has come back** from the workers that have finished: a failure when one of them
failed, and the results of those that did not. -/
structure Holds (answers : List (Except Failure α)) (seen : List ℕ) (g : Gathering α) : Prop where
  failure : g.failure.isSome = true ↔ ∃ i ∈ seen, ∃ e, answers[i]? = some (.error e)
  arrived : ∀ i a, g.arrived.lookup i = some a ↔ i ∈ seen ∧ answers[i]? = some (.ok a)

theorem holds_empty (answers : List (Except Failure α)) : Holds answers [] empty where
  failure := by simp [empty]
  arrived i a := by simp [empty]

/-- A worker that did not fail adds no failure. -/
theorem failed_append {worker : ℕ} (h : ∀ e, answers[worker]? ≠ some (.error e)) :
    (∃ i ∈ seen ++ [worker], ∃ e, answers[i]? = some (.error e)) ↔
      ∃ i ∈ seen, ∃ e, answers[i]? = some (.error e) := by
  constructor
  · rintro ⟨i, hi, e, he⟩
    rcases List.mem_append.mp hi with hi | hi
    · exact ⟨i, hi, e, he⟩
    · rw [List.mem_singleton.mp hi] at he
      exact absurd he (h e)
  · rintro ⟨i, hi, he⟩
    exact ⟨i, List.mem_append_left _ hi, he⟩

/-- A worker without a result adds no result. -/
theorem arrived_append {worker i : ℕ} {a : α} (h : ∀ a, answers[worker]? ≠ some (.ok a)) :
    (i ∈ seen ++ [worker] ∧ answers[i]? = some (.ok a)) ↔
      i ∈ seen ∧ answers[i]? = some (.ok a) := by
  constructor
  · rintro ⟨hi, ha⟩
    rcases List.mem_append.mp hi with hi | hi
    · exact ⟨hi, ha⟩
    · rw [List.mem_singleton.mp hi] at ha
      exact absurd ha (h a)
  · rintro ⟨hi, ha⟩
    exact ⟨List.mem_append_left _ hi, ha⟩

/-- **One more worker finishes**: without an answer, with a failure, or with a result. -/
theorem Holds.step (hg : Holds answers seen g) (worker : ℕ) :
    Holds answers (seen ++ [worker]) (g.step answers worker) := by
  unfold Gathering.step
  cases hanswer : answers[worker]? with
  | none =>
      have hnone : ∀ answer, answers[worker]? ≠ some answer := by simp [hanswer]
      exact ⟨hg.failure.trans (failed_append fun e => hnone _).symm,
        fun i a => (hg.arrived i a).trans (arrived_append fun a => hnone _).symm⟩
  | some answer =>
      cases answer with
      | error e =>
          have hstands : (g.failure <|> some e).isSome = true := by cases g.failure <;> rfl
          refine ⟨⟨fun _ => ⟨worker, by simp, e, hanswer⟩, fun _ => hstands⟩, fun i a => ?_⟩
          exact (hg.arrived i a).trans (arrived_append fun a => by simp [hanswer]).symm
      | ok result =>
          refine ⟨hg.failure.trans (failed_append fun e => by simp [hanswer]).symm, fun i a => ?_⟩
          show ((worker, result) :: g.arrived).lookup i = some a ↔ _
          rw [List.lookup_cons, List.mem_append, List.mem_singleton]
          by_cases hi : i = worker
          · subst hi
            simp [hanswer]
          · rw [beq_eq_false_iff_ne.mpr hi, hg.arrived]
            simp [hi]

/-- **The workers of an order have finished**, by induction on the order from its end. -/
theorem holds_run (answers : List (Except Failure α)) (order : List ℕ) :
    Holds answers order (run answers order) := by
  induction order using List.reverseRecOn with
  | nil => exact holds_empty answers
  | append_singleton order worker ih =>
      have hrun : run answers (order ++ [worker]) = (run answers order).step answers worker := by
        rw [run, List.foldl_append]
        rfl
      rw [hrun]
      exact ih.step worker

/-- **Enough workers have finished**: one that failed, or all. -/
def Settled (answers : List (Except Failure α)) (order : List ℕ) : Prop :=
  (∃ i ∈ order, ∃ e, answers[i]? = some (.error e)) ∨ ∀ i < answers.length, i ∈ order

/-- All workers have finished in an order of them. -/
theorem settled_of_perm {order : List ℕ} (h : order.Perm (List.range answers.length)) :
    Settled answers order :=
  .inr fun _ hi => h.mem_iff.mpr (List.mem_range.mpr hi)

/-- Answers without a failure are results. -/
theorem exists_eq_map_ok : ∀ {answers : List (Except Failure α)},
    (∀ (i : ℕ) (e : Failure), answers[i]? ≠ some (.error e)) →
      ∃ results : List α, answers = results.map .ok := by
  intro answers
  induction answers with
  | nil => intro _; exact ⟨[], rfl⟩
  | cons answer answers ih =>
      intro h
      obtain ⟨results, rfl⟩ := ih fun i e he => h (i + 1) e (by rwa [List.getElem?_cons_succ])
      cases answer with
      | error e => exact absurd List.getElem?_cons_zero (h 0 e)
      | ok result => exact ⟨result :: results, rfl⟩

/-- Results that are looked up in the order of the workers. -/
theorem filterMap_eq_of_lookup {results : List α} {find : ℕ → Option α}
    (h : ∀ i < results.length, find i = results[i]?) :
    (List.range results.length).filterMap find = results := by
  have hfound : (List.range results.length).map find = results.map some := by
    refine List.ext_getElem (by simp) fun i hi _ => ?_
    rw [List.length_map, List.length_range] at hi
    rw [List.getElem_map, List.getElem_range, List.getElem_map, h i hi,
      List.getElem?_eq_getElem hi]
  calc (List.range results.length).filterMap find
      = ((List.range results.length).map find).filterMap id := by rw [List.filterMap_map]; rfl
    _ = results := by rw [hfound, List.filterMap_map]; exact List.filterMap_some

/-- **The order of finishing does not matter.**  When enough workers have finished, there are
results exactly when no worker failed, and they stand in the order of the workers. -/
theorem collect_run {order : List ℕ} (h : Settled answers order) {results : List α} :
    (run answers order).collect answers.length = .ok results ↔ answers = results.map .ok := by
  obtain ⟨hfailure, harrived⟩ := holds_run answers order
  unfold collect
  cases hcases : (run answers order).failure with
  | some e =>
      rw [hcases] at hfailure
      obtain ⟨i, -, e', hi⟩ := hfailure.mp rfl
      simp only [reduceCtorEq, false_iff]
      rintro rfl
      rw [List.getElem?_map, Option.map_eq_some_iff] at hi
      obtain ⟨a, -, ha⟩ := hi
      cases ha
  | none =>
      rw [hcases] at hfailure
      have hnone : ¬∃ i ∈ order, ∃ e, answers[i]? = some (.error e) :=
        fun hfailed => by simpa using hfailure.mpr hfailed
      have hall : ∀ i < answers.length, i ∈ order := h.resolve_left hnone
      obtain ⟨found, rfl⟩ : ∃ found : List α, answers = found.map .ok := by
        refine exists_eq_map_ok fun i e hi => hnone ⟨i, ?_, e, hi⟩
        exact hall i (List.getElem?_eq_some_iff.mp hi).1
      rw [List.length_map] at hall ⊢
      have hlookup : ∀ i < found.length,
          (run (found.map .ok) order).arrived.lookup i = found[i]? := by
        intro i hi
        refine Option.ext fun a => ?_
        rw [harrived, List.getElem?_map]
        simp [hall i hi]
      simp only [filterMap_eq_of_lookup hlookup, Except.ok.injEq]
      exact (List.map_injective_iff.mpr fun a b hab => Except.ok.inj hab).eq_iff.symm

end Gathering

/-! ### Streams -/

namespace Generator

variable {g g' : Generator} {counter counter' : UInt64}

/-- **Apart**: the generators have no block in common, whatever their places. -/
def Apart (g g' : Generator) : Prop :=
  ∀ counter counter', g.initial counter ≠ g'.initial counter'

/-- **A block knows its stream**, whose halves stand in its last row. -/
theorem stream_eq_of_initial_eq (h : g.initial counter = g'.initial counter') :
    g.stream = g'.stream := by
  have hlow : g.stream.toUInt32.toNat = g'.stream.toUInt32.toNat := congrArg (·.d.x2.toNat) h
  have hhigh : (g.stream >>> 32).toUInt32.toNat = (g'.stream >>> 32).toUInt32.toNat :=
    congrArg (·.d.x3.toNat) h
  simp only [UInt64.toNat_toUInt32, UInt64.toNat_shiftRight, UInt64.reduceToNat, Nat.reduceMod,
    Nat.shiftRight_eq_div_pow] at hlow hhigh
  have hstream := g.stream.toNat_lt
  have hstream' := g'.stream.toNat_lt
  exact UInt64.toNat_inj.mp (by omega)

theorem apart_of_stream_ne (h : g.stream ≠ g'.stream) : g.Apart g' :=
  fun _ _ hinitial => h (stream_eq_of_initial_eq hinitial)

end Generator

/-- A sequence that may fail moves along the stream as its steps do. -/
theorem Drawing.Onward.run_bind {α β : Type} {x : FallibleDrawing α} {f : α → FallibleDrawing β}
    (hx : Onward x.run) (hf : ∀ a, Onward (f a).run) : Onward (x >>= f).run := by
  show Onward (x.run >>= ExceptT.bindCont f)
  refine hx.bind fun outcome => ?_
  cases outcome with
  | error e => exact onward_pure _
  | ok a => exact hf a

/-- **An encryption stays on its stream**, also when it fails. -/
theorem Scheme.onward_encryptValue (s : Scheme) (value scale : Float) :
    Drawing.Onward (s.encryptValue value scale).run := by
  have herrors : Drawing.Onward s.context.drawErrors := Sampler.onward_normalErrors _ _
  have hnoise : Drawing.Onward (Context.Noise.draw s.context) :=
    (Sampler.onward_ternary _).bind fun _ => herrors.bind fun _ => herrors.bind fun _ =>
      Drawing.onward_pure _
  have hencrypt : ∀ pt, Drawing.Onward (s.context.encrypt pt s.publicKey).run := fun pt =>
    .run_bind (Drawing.onward_pure _) fun _ =>
      .run_bind (hnoise.bind fun _ => Drawing.onward_pure _) fun _ => Drawing.onward_pure _
  exact .run_bind (Drawing.onward_pure _) hencrypt

/-! ### Partial sums -/

namespace Scheme

variable {s : Scheme} {a b ct : Ciphertext}

/-- **Sums of fresh ciphertexts** are fresh. -/
theorem Fresh.sum (h : s.Built) (ha : s.Fresh a) (hb : s.Fresh b) : s.Fresh (s.context.sum a b) :=
  ⟨Context.owns_sum h.made ha.owns hb.owns (ha.level_eq.trans hb.level_eq.symm), ha.level_eq,
    ha.scale_eq⟩

theorem sum_assoc_of_fresh (h : s.Built) (ha : s.Fresh a) (hb : s.Fresh b) (hct : s.Fresh ct) :
    s.context.sum (s.context.sum a b) ct = s.context.sum a (s.context.sum b ct) :=
  Context.sum_assoc h.made ha.owns hb.owns (ha.level_eq.trans hb.level_eq.symm) hct.owns
    (hb.level_eq.trans hct.level_eq.symm)

/-- **Fresh ciphertexts are added without failure.**  They share the level, and the scale, which
equals itself because it is finite. -/
theorem result_accumulate (h : s.Built) (ha : s.Fresh a) (hct : s.Fresh ct) :
    (s.accumulate (some a) ct).result = .ok (s.context.sum a ct) := by
  have hscale : (a.scale != ct.scale) = false := by
    rw [ha.scale_eq, hct.scale_eq]
    exact bne_self_of_isFinite h.isFinite_scale
  have hadd := Context.add_eq h.made ha.owns hct.owns (ha.level_eq.trans hct.level_eq.symm) hscale
  rw [accumulate, add, hadd]
  rfl

/-- A sum added on the left goes into a sum of fresh ciphertexts. -/
theorem sum_foldl (h : s.Built) (ha : s.Fresh a) : ∀ {cts : List Ciphertext} {b : Ciphertext},
    s.Fresh b → (∀ ct ∈ cts, s.Fresh ct) →
      s.context.sum a (cts.foldl s.context.sum b) =
        cts.foldl s.context.sum (s.context.sum a b) := by
  intro cts
  induction cts with
  | nil => intro b _ _; rfl
  | cons ct cts ih =>
      intro b hb hcts
      obtain ⟨hct, hrest⟩ := List.forall_mem_cons.mp hcts
      rw [List.foldl_cons, List.foldl_cons, ih (hb.sum h hct) hrest,
        sum_assoc_of_fresh h ha hb hct]

theorem fresh_foldl (h : s.Built) : ∀ {cts : List Ciphertext} {b : Ciphertext},
    s.Fresh b → (∀ ct ∈ cts, s.Fresh ct) → s.Fresh (cts.foldl s.context.sum b) := by
  intro cts
  induction cts with
  | nil => intro b hb _; exact hb
  | cons ct cts ih =>
      intro b hb hcts
      obtain ⟨hct, hrest⟩ := List.forall_mem_cons.mp hcts
      exact ih (hb.sum h hct) hrest

end Scheme

namespace Samples

variable {s : Scheme} {seed : UInt64} {bound : Float}

/-- **Sample `index`** of a seed. -/
def value (seed : UInt64) (bound : Float) (index : ℕ) : Float :=
  ((draw bound).run ((Generator.ofSeed seed).atPosition index)).1

/-- **A sample depends on its index**, wherever the range begins that it is drawn in. -/
theorem range_eq (seed : UInt64) (start stop : ℕ) (bound : Float) :
    range seed start stop bound = (List.range' start (stop - start)).map (value seed bound) :=
  Drawing.toList_vector (fun _ => rfl) (stop - start) ((Generator.ofSeed seed).atPosition start)

/-- **What the workers draw**, range after range, are all samples in their order. -/
theorem flatMap_range_chunks (seed : UInt64) (bound : Float) (count workers : ℕ) :
    (chunks count workers).flatMap (fun r => range seed r.1 r.2 bound) = range seed 0 count bound := by
  simp only [range_eq]
  rw [← List.map_flatMap, flatMap_chunks, Nat.sub_zero, List.range_eq_range']

/-- **The streams of the encryptions**: each sample has one that no other sample has, and that is not
the stream of zero. -/
theorem apart_generators (seed : UInt64) {count i : ℕ} (hcount : count < 2 ^ 64) (hi : i < count) :
    (encryptionGenerator seed (UInt64.ofNat i)).Apart (encryptionGenerator seed zeroStream) ∧
      ∀ j < count, j ≠ i → (encryptionGenerator seed (UInt64.ofNat i)).Apart
        (encryptionGenerator seed (UInt64.ofNat j)) := by
  have htoNat : ∀ {k : ℕ}, k < count → (UInt64.ofNat k).toNat = k :=
    fun hk => UInt64.toNat_ofNat_of_lt' (hk.trans hcount)
  refine ⟨Generator.apart_of_stream_ne fun heq => ?_, fun j hj hne =>
    Generator.apart_of_stream_ne fun heq => hne ?_⟩
  · have hzero : (UInt64.ofNat i).toNat = 2 ^ 64 - 1 := congrArg UInt64.toNat heq
    rw [htoNat hi] at hzero
    omega
  · have hnat : (UInt64.ofNat i).toNat = (UInt64.ofNat j).toNat := congrArg UInt64.toNat heq
    rw [htoNat hi, htoNat hj] at hnat
    exact hnat.symm

/-- **The encryption of a sample**, on the stream of its index. -/
def encryption (s : Scheme) (seed : UInt64) (bound : Float) (index : ℕ) : Except Failure Ciphertext :=
  encryptOn s seed (UInt64.ofNat index) (value seed bound index)

theorem fresh_encryptOn (h : s.Built) {stream : UInt64} {x : Float} {ct : Ciphertext}
    (hct : encryptOn s seed stream x = .ok ct) : s.Fresh ct :=
  h.fresh hct

/-- **The sum of ciphertexts**, nothing for none. -/
def partialSum (s : Scheme) : List Ciphertext → Option Ciphertext
  | [] => none
  | ct :: cts => some (cts.foldl s.context.sum ct)

/-- **One step of a worker**: the next sample is encrypted and added to the sum. -/
def addSample (s : Scheme) (seed : UInt64) (bound : Float) (sum : Option Ciphertext) (index : ℕ) :
    Except Failure (Option Ciphertext) := do
  let ct ← encryption s seed bound index
  return some (← (s.accumulate sum ct).result)

/-- A worker takes a step for each index of its range. -/
theorem encryptRange_eq (s : Scheme) (seed : UInt64) (bound : Float) (start stop : ℕ) :
    encryptRange s seed bound start stop =
      (List.range' start (stop - start)).foldlM (addSample s seed bound) none := by
  rw [encryptRange, range_eq, ← List.map_prod_left_eq_zip, List.foldlM_map]
  rfl

theorem addSample_none_eq_ok {index : ℕ} {sum : Option Ciphertext} :
    addSample s seed bound none index = .ok sum ↔
      ∃ ct, encryption s seed bound index = .ok ct ∧ sum = some ct := by
  have hfirst : ∀ ct, (s.accumulate none ct).result = .ok ct := fun _ => rfl
  simp only [addSample, bind_eq_ok, pure_eq_ok, hfirst, Except.ok.injEq, exists_eq_left']
  exact exists_congr fun ct => and_congr_right fun _ => eq_comm

theorem addSample_some_eq_ok (h : s.Built) {a : Ciphertext} (ha : s.Fresh a) {index : ℕ}
    {sum : Option Ciphertext} : addSample s seed bound (some a) index = .ok sum ↔
      ∃ ct, encryption s seed bound index = .ok ct ∧ sum = some (s.context.sum a ct) := by
  simp only [addSample, bind_eq_ok, pure_eq_ok]
  refine exists_congr fun ct => and_congr_right fun hct => ?_
  rw [Scheme.result_accumulate h ha (fresh_encryptOn h hct)]
  simp only [Except.ok.injEq, exists_eq_left']
  exact eq_comm

/-- **The steps of a worker whose sum has begun**, by induction on the indices that are left. -/
theorem foldlM_addSample (h : s.Built) :
    ∀ {indices : List ℕ} {a : Ciphertext} {sum : Option Ciphertext}, s.Fresh a →
      (indices.foldlM (addSample s seed bound) (some a) = .ok sum ↔
        ∃ cts, indices.mapM (encryption s seed bound) = .ok cts ∧
          sum = some (cts.foldl s.context.sum a)) := by
  intro indices
  induction indices with
  | nil =>
      intro a sum _
      constructor
      · intro hsum
        cases hsum
        exact ⟨[], rfl, rfl⟩
      · rintro ⟨cts, hcts, rfl⟩
        cases hcts
        rfl
  | cons index indices ih =>
      intro a sum ha
      simp only [List.foldlM_cons, List.mapM_cons, bind_eq_ok, pure_eq_ok,
        addSample_some_eq_ok h ha]
      constructor
      · rintro ⟨-, ⟨ct, hct, rfl⟩, hrest⟩
        obtain ⟨cts, hcts, rfl⟩ := (ih (ha.sum h (fresh_encryptOn h hct))).mp hrest
        exact ⟨ct :: cts, ⟨ct, hct, cts, hcts, rfl⟩, rfl⟩
      · rintro ⟨-, ⟨ct, hct, cts, hcts, rfl⟩, rfl⟩
        exact ⟨_, ⟨ct, hct, rfl⟩, (ih (ha.sum h (fresh_encryptOn h hct))).mpr ⟨cts, hcts, rfl⟩⟩

/-- **What a worker returns**: it succeeds when every encryption in its range does, and returns
their sum. -/
theorem encryptRange_eq_ok (h : s.Built) {start stop : ℕ} {sum : Option Ciphertext} :
    encryptRange s seed bound start stop = .ok sum ↔
      ∃ cts, (List.range' start (stop - start)).mapM (encryption s seed bound) = .ok cts ∧
        sum = partialSum s cts := by
  rw [encryptRange_eq]
  cases List.range' start (stop - start) with
  | nil =>
      constructor
      · intro hsum
        cases hsum
        exact ⟨[], rfl, rfl⟩
      · rintro ⟨cts, hcts, rfl⟩
        cases hcts
        rfl
  | cons index indices =>
      simp only [List.foldlM_cons, List.mapM_cons, bind_eq_ok, pure_eq_ok, addSample_none_eq_ok]
      constructor
      · rintro ⟨-, ⟨ct, hct, rfl⟩, hrest⟩
        obtain ⟨cts, hcts, rfl⟩ := (foldlM_addSample h (fresh_encryptOn h hct)).mp hrest
        exact ⟨ct :: cts, ⟨ct, hct, cts, hcts, rfl⟩, rfl⟩
      · rintro ⟨-, ⟨ct, hct, cts, hcts, rfl⟩, rfl⟩
        exact ⟨some ct, ⟨ct, hct, rfl⟩,
          (foldlM_addSample h (fresh_encryptOn h hct)).mpr ⟨cts, hcts, rfl⟩⟩

end Samples

/-! ### The sums -/

namespace SampleSum

open Samples

variable {s : Scheme} {seed : UInt64} {bound exact : Float} {count workers : ℕ} {order : List ℕ}
  {zero : Ciphertext} {total : SampleSum}

/-- A partial sum goes into the sum as its members would. -/
theorem absorb_partialSum (h : s.Built) (hzero : s.Fresh zero) {cts : List Ciphertext}
    (hcts : ∀ ct ∈ cts, s.Fresh ct) :
    absorb s ⟨exact, some zero⟩ (partialSum s cts) =
      .ok ⟨exact, some (cts.foldl s.context.sum zero)⟩ := by
  cases cts with
  | nil => rfl
  | cons ct cts =>
      obtain ⟨hct, hrest⟩ := List.forall_mem_cons.mp hcts
      have haccumulate := Scheme.result_accumulate h hzero (Scheme.fresh_foldl h hct hrest)
      rw [Scheme.sum_foldl h hzero hct hrest] at haccumulate
      rw [partialSum, absorb]
      simp only [haccumulate]
      rfl

/-- **Partial sums in the order of their ranges** give the sum of all encryptions, by induction
on the ranges. -/
theorem foldlM_absorb (h : s.Built) : ∀ {ranges : List (ℕ × ℕ)} {zero : Ciphertext}, s.Fresh zero →
    ((∃ partials, ranges.mapM (fun r => encryptRange s seed bound r.1 r.2) = .ok partials ∧
        partials.foldlM (absorb s) ⟨exact, some zero⟩ = .ok total) ↔
      ∃ cts, (ranges.flatMap fun r => List.range' r.1 (r.2 - r.1)).mapM
          (encryption s seed bound) = .ok cts ∧
        total = ⟨exact, some (cts.foldl s.context.sum zero)⟩) := by
  intro ranges
  induction ranges with
  | nil =>
      intro zero _
      constructor
      · rintro ⟨partials, hpartials, hfold⟩
        cases hpartials
        cases hfold
        exact ⟨[], rfl, rfl⟩
      · rintro ⟨cts, hcts, rfl⟩
        cases hcts
        exact ⟨[], rfl, rfl⟩
  | cons r ranges ih =>
      intro zero hzero
      simp only [List.mapM_cons, List.flatMap_cons, List.mapM_append, bind_eq_ok, pure_eq_ok,
        encryptRange_eq_ok h]
      have hfresh : ∀ {indices : List ℕ} {cts : List Ciphertext},
          indices.mapM (encryption s seed bound) = .ok cts → ∀ ct ∈ cts, s.Fresh ct :=
        fun hcts => forall_mem_of_mapM_ok (fun _ _ hct => fresh_encryptOn h hct) hcts
      constructor
      · rintro ⟨-, ⟨-, ⟨cts, hcts, rfl⟩, partials, hpartials, rfl⟩, hfold⟩
        rw [List.foldlM_cons, absorb_partialSum h hzero (hfresh hcts)] at hfold
        obtain ⟨rest, hrest, rfl⟩ :=
          (ih (Scheme.fresh_foldl h hzero (hfresh hcts))).mp ⟨partials, hpartials, hfold⟩
        exact ⟨cts ++ rest, ⟨cts, hcts, rest, hrest, rfl⟩, by rw [List.foldl_append]⟩
      · rintro ⟨-, ⟨cts, hcts, rest, hrest, rfl⟩, rfl⟩
        obtain ⟨partials, hpartials, hfold⟩ :=
          (ih (Scheme.fresh_foldl h hzero (hfresh hcts))).mpr
            ⟨rest, hrest, by rw [List.foldl_append]⟩
        refine ⟨_, ⟨_, ⟨cts, hcts, rfl⟩, partials, hpartials, rfl⟩, ?_⟩
        rw [List.foldlM_cons, absorb_partialSum h hzero (hfresh hcts)]
        exact hfold

/-- **What both sums are**, of at least one sample: the exact sum, and the encryption of zero
to which the encryptions of all samples are added in order. -/
def IsSum (s : Scheme) (count : ℕ) (bound : Float) (seed : UInt64) (total : SampleSum) : Prop :=
  ∃ zero cts, encryptOn s seed zeroStream 0.0 = .ok zero ∧
    (List.range count).mapM (encryption s seed bound) = .ok cts ∧
      total = ⟨exactSum seed count bound, some (cts.foldl s.context.sum zero)⟩

/-- The starting point of both sums. -/
theorem seeded_eq_ok : seeded s count bound seed = .ok total ↔
    ∃ zero, encryptOn s seed zeroStream 0.0 = .ok zero ∧
      total = ⟨exactSum seed count bound, some zero⟩ := by
  simp only [seeded, bind_eq_ok, pure_eq_ok]
  exact exists_congr fun zero => and_congr_right fun _ => eq_comm

/-- **The sequential sum.** -/
theorem sequential_eq_ok (h : s.Built) (hcount : 0 < count) :
    sequential s count bound seed = .ok total ↔ IsSum s count bound seed total := by
  unfold sequential
  rw [if_neg hcount.ne']
  simp only [bind_eq_ok, seeded_eq_ok, encryptRange_eq_ok h, Nat.sub_zero, ← List.range_eq_range']
  constructor
  · rintro ⟨-, ⟨zero, hzero, rfl⟩, -, ⟨cts, hcts, rfl⟩, habsorb⟩
    have hfresh := forall_mem_of_mapM_ok (fun _ _ hct => fresh_encryptOn h hct) hcts
    rw [absorb_partialSum h (fresh_encryptOn h hzero) hfresh, Except.ok.injEq] at habsorb
    exact ⟨zero, cts, hzero, hcts, habsorb.symm⟩
  · rintro ⟨zero, cts, hzero, hcts, rfl⟩
    have hfresh := forall_mem_of_mapM_ok (fun _ _ hct => fresh_encryptOn h hct) hcts
    exact ⟨_, ⟨zero, hzero, rfl⟩, _, ⟨cts, hcts, rfl⟩,
      absorb_partialSum h (fresh_encryptOn h hzero) hfresh⟩

/-- Tasks return what their workers compute, so of at least one sample the concurrent sum adds up
the answers of the workers. -/
theorem concurrentIn_eq (s : Scheme) (hcount : 0 < count) (bound : Float) (seed : UInt64)
    (workers : ℕ) (order : List ℕ) : concurrentIn s count bound seed workers order = (do
      let partials ← (Gathering.run ((chunks count workers).map fun r =>
        encryptRange s seed bound r.1 r.2) order).collect (chunks count workers).length
      let total ← seeded s count bound seed
      partials.foldlM (absorb s) total) := by
  have hget : ∀ ranges : List (ℕ × ℕ),
      (ranges.map fun r => Task.spawn fun _ => encryptRange s seed bound r.1 r.2).map Task.get =
        ranges.map fun r => encryptRange s seed bound r.1 r.2 := by
    intro ranges
    rw [List.map_map]
    rfl
  unfold concurrentIn
  cases hranges : chunks count workers with
  | nil => exact absurd hranges (chunks_ne_nil hcount workers)
  | cons r ranges =>
      rw [← hget]

/-- **The concurrent sum**, when enough workers have finished. -/
theorem concurrentIn_eq_ok (h : s.Built) (hcount : 0 < count)
    (horder : Gathering.Settled
      ((chunks count workers).map fun r => encryptRange s seed bound r.1 r.2) order) :
    concurrentIn s count bound seed workers order = .ok total ↔ IsSum s count bound seed total := by
  have hcollect := @Gathering.collect_run _ _ _ horder
  rw [List.length_map] at hcollect
  rw [concurrentIn_eq s hcount]
  simp only [bind_eq_ok, seeded_eq_ok, hcollect, ← mapM_eq_ok_iff]
  constructor
  · rintro ⟨partials, hpartials, -, ⟨zero, hzero, rfl⟩, hfold⟩
    obtain ⟨cts, hcts, rfl⟩ :=
      (foldlM_absorb h (fresh_encryptOn h hzero)).mp ⟨partials, hpartials, hfold⟩
    rw [flatMap_chunks] at hcts
    exact ⟨zero, cts, hzero, hcts, rfl⟩
  · rintro ⟨zero, cts, hzero, hcts, rfl⟩
    rw [← flatMap_chunks count workers] at hcts
    obtain ⟨partials, hpartials, hfold⟩ :=
      (foldlM_absorb h (fresh_encryptOn h hzero)).mpr ⟨cts, hcts, rfl⟩
    exact ⟨partials, hpartials, _, ⟨zero, hzero, rfl⟩, hfold⟩

/-- **The concurrent sum is the sequential one.**  For a scheme that was built, any number of
workers, and any order in which all of them, or enough for a failure, have finished, the concurrent
sum succeeds when the sequential one does, with the same result: the exact sum, and the
encryption of zero with the encryption of each sample added to it.

The ranges of the workers cover every index once, and give the samples that one range of all of them
gives.  An encryption begins at the start of the stream whose number it is given, and stays on it.  The
number for a sample is its index, and so its encryption has no block in common with the encryption
of another sample, or with that of zero. -/
theorem concurrentIn_iff_sequential (h : s.Built) (hcount : count < 2 ^ 64)
    (horder : Gathering.Settled
      ((chunks count workers).map fun r => encryptRange s seed bound r.1 r.2) order) :
    (∀ total, concurrentIn s count bound seed workers order = .ok total ↔
        sequential s count bound seed = .ok total) ∧
      (∀ total, concurrent s count bound seed workers = .ok total ↔
        sequential s count bound seed = .ok total) ∧
      (0 < count → ∀ total, sequential s count bound seed = .ok total ↔
        IsSum s count bound seed total) ∧
      (chunks count workers).flatMap (fun r => List.range' r.1 (r.2 - r.1)) = List.range count ∧
      (chunks count workers).flatMap (fun r => range seed r.1 r.2 bound) = range seed 0 count bound ∧
      (∀ stream x, (encryptionGenerator seed stream).stream = stream ∧
        (encryptionGenerator seed stream).position = 0 ∧
        ∃ place, (s.encryptValue x s.scale).run (encryptionGenerator seed stream) =
          (encryptOn s seed stream x, (encryptionGenerator seed stream).atPosition place)) ∧
      ∀ i < count,
        encryption s seed bound i = encryptOn s seed (UInt64.ofNat i) (value seed bound i) ∧
        (encryptionGenerator seed (UInt64.ofNat i)).Apart (encryptionGenerator seed zeroStream) ∧
        ∀ j < count, j ≠ i → (encryptionGenerator seed (UInt64.ofNat i)).Apart
          (encryptionGenerator seed (UInt64.ofNat j)) := by
  have hall : Gathering.Settled
      ((chunks count workers).map fun r => encryptRange s seed bound r.1 r.2)
      (List.range (chunks count workers).length) :=
    Gathering.settled_of_perm (by rw [List.length_map])
  have hagree : ∀ {order : List ℕ}, Gathering.Settled
      ((chunks count workers).map fun r => encryptRange s seed bound r.1 r.2) order →
      ∀ total, concurrentIn s count bound seed workers order = .ok total ↔
        sequential s count bound seed = .ok total := by
    intro order horder total
    by_cases hzero : count = 0
    · subst hzero
      rfl
    · have hpos := Nat.pos_of_ne_zero hzero
      rw [concurrentIn_eq_ok h hpos horder, sequential_eq_ok h hpos]
  have hstays : ∀ stream x, ∃ place, (s.encryptValue x s.scale).run (encryptionGenerator seed stream) =
      (encryptOn s seed stream x, (encryptionGenerator seed stream).atPosition place) := by
    intro stream x
    obtain ⟨drawn, hdrawn⟩ := s.onward_encryptValue x s.scale (encryptionGenerator seed stream)
    exact ⟨_, Prod.ext rfl hdrawn⟩
  exact ⟨hagree horder, hagree hall, fun hpos total => sequential_eq_ok h hpos,
    flatMap_chunks count workers, flatMap_range_chunks seed bound count workers,
    fun stream x => ⟨rfl, rfl, hstays stream x⟩, fun i hi => ⟨rfl, apart_generators seed hcount hi⟩⟩

/-- **A sum succeeds when every sample can be encoded**, and zero too. -/
theorem exists_isSum (h : s.Built)
    (hzero : ∃ pt, s.context.encodeScalar 0.0 s.scale s.maxLevel = .ok pt)
    (hsamples : ∀ i < count, ∃ pt,
      s.context.encodeScalar (value seed bound i) s.scale s.maxLevel = .ok pt) :
    ∃ total, IsSum s count bound seed total := by
  obtain ⟨pt, hpt⟩ := hzero
  obtain ⟨zero, hzero⟩ := h.exists_encryptValue hpt (encryptionGenerator seed zeroStream)
  obtain ⟨cts, hcts⟩ := exists_mapM_ok fun i hi => by
    obtain ⟨pt, hpt⟩ := hsamples i (List.mem_range.mp hi)
    exact h.exists_encryptValue hpt (encryptionGenerator seed (UInt64.ofNat i))
  exact ⟨_, zero, cts, hzero, hcts, rfl⟩

/-- Three samples over the small context. -/
theorem exists_isSum_small : ∃ (s : Scheme) (total : SampleSum),
    s.Built ∧ s.context = .small ∧ s.scale = 1 ∧ IsSum s 3 8 7 total := by
  obtain ⟨s, h, hcontext, hscale⟩ := Scheme.exists_built_small
  have hpoly : ∀ x ∈ [0.0, value 7 8 0, value 7 8 1, value 7 8 2],
      (Context.small.embedding.encodeScalar x 1 (Context.small.moduliAt 1)).isOk = true := by
    decide +kernel
  have hencode : ∀ x ∈ [0.0, value 7 8 0, value 7 8 1, value 7 8 2],
      ∃ pt, s.context.encodeScalar x s.scale s.maxLevel = .ok pt :=
    fun x hx => Scheme.exists_encodeScalar_small hcontext hscale (hpoly x hx)
  have hsucceeds : ∃ total, IsSum s 3 8 7 total := by
    refine exists_isSum h (hencode 0.0 (by simp)) fun i hi => hencode _ ?_
    obtain rfl | rfl | rfl : i = 0 ∨ i = 1 ∨ i = 2 := by omega
    all_goals simp
  obtain ⟨total, htotal⟩ := hsucceeds
  exact ⟨s, total, h, hcontext, hscale, htotal⟩

/-- Three samples over two workers, of which the second finishes first.  The last sample is encrypted on
stream 2, apart from the streams of the others and of zero. -/
theorem concurrentIn_iff_sequential_small : ∃ (s : Scheme) (total : SampleSum) (place : ℕ),
    s.Built ∧ s.context = .small ∧ IsSum s 3 8 7 total ∧ sequential s 3 8 7 = .ok total ∧
      concurrentIn s 3 8 7 2 [1, 0] = .ok total ∧
      range 7 0 1 8 ++ range 7 1 3 8 = range 7 0 3 8 ∧
      (encryptionGenerator 7 2).stream = 2 ∧
      (s.encryptValue (value 7 8 2) s.scale).run (encryptionGenerator 7 2) =
        (encryption s 7 8 2, (encryptionGenerator 7 2).atPosition place) ∧
      (encryptionGenerator 7 2).Apart (encryptionGenerator 7 0) ∧
      (encryptionGenerator 7 2).Apart (encryptionGenerator 7 1) ∧
      (encryptionGenerator 7 2).Apart (encryptionGenerator 7 zeroStream) := by
  obtain ⟨s, total, h, hcontext, -, htotal⟩ := exists_isSum_small
  have horder : Gathering.Settled
      ((chunks 3 2).map fun r => encryptRange s 7 8 r.1 r.2) [1, 0] :=
    Gathering.settled_of_perm (by rw [List.length_map]; decide)
  obtain ⟨hagree, -, hsum, -, hranges, hstays, hstreams⟩ :=
    concurrentIn_iff_sequential h (by norm_num) horder
  have hsequential := (hsum (by norm_num) total).mpr htotal
  obtain ⟨hstream, -, place, hplace⟩ := hstays 2 (value 7 8 2)
  obtain ⟨hencryption, hzero, hothers⟩ := hstreams 2 (by norm_num)
  exact ⟨s, total, place, h, hcontext, htotal, hsequential, (hagree total).mpr hsequential, hranges,
    hstream, hencryption ▸ hplace, hothers 0 (by norm_num) (by norm_num),
    hothers 1 (by norm_num) (by norm_num), hzero⟩

end SampleSum

end EncryptedReals

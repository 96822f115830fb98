import EncryptedReals.Demonstration

/-!
# Aggregation of random samples

Samples are drawn from a seed, encrypted one by one and summed up, beside their exact sum.  Each sample
takes one word of the stream, so a range of samples is drawn from the place of its first, and the encryption
of sample `i` draws from stream `i`.  The work can thus be cut into ranges without changing any ciphertext.
The sum starts from one encryption of zero, on a stream that no sample uses.

Workers share nothing.  What depends on time is the order in which they finish, and it is a parameter of
the concurrent sum.

## Main Definitions

* `Samples.draw`, `Samples.range` — the samples
* `Samples.chunks` — cutting the indices into ranges
* `Gathering` — what has come back from workers
* `SampleSum.sequential`, `SampleSum.concurrentIn`, `SampleSum.concurrent` — the sums
-/

namespace EncryptedReals

namespace Samples

/-- **A sample** in `[0, bound)`. -/
def draw (bound : Float) : Drawing Float := do
  return (← Drawing.unit) * bound

/-- **The samples from `start` to before `stop`**, drawn one after the other from the place of the first. -/
def range (seed : UInt64) (start stop : Nat) (bound : Float) : List Float :=
  ((Drawing.vector (stop - start) (draw bound)).run ((Generator.ofSeed seed).atPosition start)).1.toList

/-- **The exact sum** of the first samples, in their order. -/
def exactSum (seed : UInt64) (count : Nat) (bound : Float) : Float :=
  Demonstration.sumFloats (range seed 0 count bound)

/-- **Cuts `0 … count` into ranges** of one length, the last taking the remainder.  There are as many as
workers, at least one and at most one for each index; no indices have no range. -/
def chunks (count workers : Nat) : List (Nat × Nat) :=
  if count = 0 then []
  else
    let pieces := min (max workers 1) count
    let length := count / pieces
    (List.range pieces).map fun i =>
      (i * length, if i + 1 = pieces then count else i * length + length)

/-- Keeps the streams of encryption apart from those of the samples. -/
def encryptionDomain : UInt64 := 0x656e637279707421

/-- The stream of the encryption of zero, above the index of any sample. -/
def zeroStream : UInt64 := 0xffffffffffffffff

/-- The generator that one encryption draws from. -/
def encryptionGenerator (seed stream : UInt64) : Generator :=
  (Generator.ofSeed (seed ^^^ encryptionDomain)).onStream stream

/-- The encryption of one value on its stream. -/
def encryptOn (s : Scheme) (seed stream : UInt64) (value : Float) : Except Failure Ciphertext :=
  ((s.encryptValue value s.scale).run (encryptionGenerator seed stream)).1

/-- **The encrypted sum of a range of samples**; nothing for no samples. -/
def encryptRange (s : Scheme) (seed : UInt64) (bound : Float) (start stop : Nat) :
    Except Failure (Option Ciphertext) :=
  ((List.range' start (stop - start)).zip (range seed start stop bound)).foldlM (fun sum (index, x) => do
    let ct ← encryptOn s seed (UInt64.ofNat index) x
    return some (← (s.accumulate sum ct).result)) none

end Samples

/-- **What has come back from workers**: the results under the numbers of their workers, and the first
failure. -/
structure Gathering (α : Type) where
  arrived : List (Nat × α)
  failure : Option Failure

namespace Gathering

variable {α : Type}

/-- Nothing has come back. -/
def empty : Gathering α :=
  ⟨[], none⟩

/-- A worker finishes.  Its result goes to its own place, and the first failure to arrive stands. -/
def receive (g : Gathering α) (worker : Nat) : Except Failure α → Gathering α
  | .ok result => { g with arrived := (worker, result) :: g.arrived }
  | .error e => { g with failure := g.failure <|> some e }

/-- The worker of a number finishes.  A number without a worker brings nothing. -/
def step (answers : List (Except Failure α)) (g : Gathering α) (worker : Nat) : Gathering α :=
  match answers[worker]? with
  | some answer => g.receive worker answer
  | none => g

/-- Workers finish in an order. -/
def run (answers : List (Except Failure α)) (order : List Nat) : Gathering α :=
  order.foldl (step answers) empty

/-- **The results in the order of the workers**, or the failure. -/
def collect (g : Gathering α) (workers : Nat) : Except Failure (List α) :=
  match g.failure with
  | some e => .error e
  | none => .ok ((List.range workers).filterMap fun worker => g.arrived.lookup worker)

end Gathering

/-- **An exact sum and an encrypted one.**  No ciphertext stands for zero. -/
structure SampleSum where
  exact : Float
  encrypted : Option Ciphertext

namespace SampleSum

/-- The sum of nothing. -/
def zero : SampleSum :=
  ⟨0.0, none⟩

/-- Adds an encrypted partial sum, when there is one. -/
def absorb (s : Scheme) (total : SampleSum) : Option Ciphertext → Except Failure SampleSum
  | none => .ok total
  | some ct => do
    return { total with encrypted := some (← (s.accumulate total.encrypted ct).result) }

/-- The value of the encrypted sum. -/
def decrypt (s : Scheme) (total : SampleSum) : Except Failure Float :=
  match total.encrypted with
  | some ct => s.decryptValue ct
  | none => .ok 0.0

/-- The exact sum of all samples, with one encryption of zero. -/
def seeded (s : Scheme) (count : Nat) (bound : Float) (seed : UInt64) : Except Failure SampleSum := do
  let ct ← Samples.encryptOn s seed Samples.zeroStream 0.0
  return ⟨Samples.exactSum seed count bound, some ct⟩

/-- **The sum of the first samples, one after the other.** -/
def sequential (s : Scheme) (count : Nat) (bound : Float) (seed : UInt64) :
    Except Failure SampleSum := do
  if count = 0 then
    return zero
  let total ← seeded s count bound seed
  let sum ← Samples.encryptRange s seed bound 0 count
  total.absorb s sum

/-- **The sum of the first samples over several workers** that finish in a given order.  Each worker sums
one range; the partial sums are added up in the order of the ranges. -/
def concurrentIn (s : Scheme) (count : Nat) (bound : Float) (seed : UInt64) (workers : Nat)
    (order : List Nat) : Except Failure SampleSum := do
  match Samples.chunks count workers with
  | [] => return zero
  | ranges =>
    let tasks := ranges.map fun (start, stop) =>
      Task.spawn fun _ => Samples.encryptRange s seed bound start stop
    let partials ← (Gathering.run (tasks.map Task.get) order).collect ranges.length
    let total ← seeded s count bound seed
    partials.foldlM (absorb s) total

/-- **The sum of the first samples over several workers**, whose answers are taken in the order of the
ranges. -/
def concurrent (s : Scheme) (count : Nat) (bound : Float) (seed : UInt64) (workers : Nat) :
    Except Failure SampleSum :=
  concurrentIn s count bound seed workers (List.range (Samples.chunks count workers).length)

end SampleSum

end EncryptedReals

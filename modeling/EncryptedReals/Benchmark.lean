import EncryptedReals.Aggregate
import EncryptedReals.Surroundings

/-!
# Benchmarks

A benchmark sums random samples under encryption and reports the error of the decrypted sum.  It is
configured, runs, and ends completed or failed.  Fresh seeds and the time are asked of a `Host`.
-/

namespace EncryptedReals

/-- The outcome of a completed run. -/
structure BenchmarkRecord where
  degree : Nat
  sampleCount : Nat
  concurrent : Bool
  upperBound : Float
  errorRatio : Float
  elapsedNanoseconds : Nat

/-- **The state of a benchmark.** -/
inductive BenchmarkState where
  | configured
  | running
  | completed (record : BenchmarkRecord)
  | failed (cause : Failure)

namespace BenchmarkState

/-- The outcome of a benchmark that has ended. -/
def outcome? : BenchmarkState → Option (Except Failure BenchmarkRecord)
  | completed record => some (.ok record)
  | failed cause => some (.error cause)
  | _ => none

end BenchmarkState

/-- **A benchmark's configuration.** -/
structure Benchmark where
  degree : Nat
  sampleCount : Nat
  concurrent : Bool
  upperBound : Float
  /-- Fixes the samples and the randomness of their encryption. -/
  seed : Option UInt64 := none
  workers : Option Nat := none

namespace Benchmark

/-- The distance of the decrypted sum from the exact one, relative to the exact one unless that is zero. -/
def errorRatio (decrypted exact : Float) : Float :=
  let error := (decrypted - exact).abs
  if exact == 0 then error else error / exact.abs

/-- **The end of a run** with the decrypted and the exact sum, or with a failure. -/
def finish (b : Benchmark) (elapsed : Nat) : Except Failure (Float × Float) → BenchmarkState
  | .ok (decrypted, exact) =>
    .completed
      { degree := b.degree
        sampleCount := b.sampleCount
        concurrent := b.concurrent
        upperBound := b.upperBound
        errorRatio := errorRatio decrypted exact
        elapsedNanoseconds := elapsed }
  | .error cause => .failed cause

/-- **The decrypted and the exact sum under a scheme.** -/
def measure (b : Benchmark) (s : Scheme) (seed : UInt64) (workers : Nat) :
    Except Failure (Float × Float) := do
  let sum ←
    if b.concurrent then SampleSum.concurrent s b.sampleCount b.upperBound seed workers
    else SampleSum.sequential s b.sampleCount b.upperBound seed
  return (← sum.decrypt s, sum.exact)

/-- The scheme of a run: the default profile of the ring dimension under a fresh seed. -/
def freshScheme (b : Benchmark) (seed : UInt64) : Except Failure Scheme := do
  let profile ← Profile.default b.degree
  ((Scheme.build profile Scheme.defaultRotations (.ofSeed seed)).run 1).1

variable {m : Type → Type} [Monad m]

/-- The seed and the number of workers, fresh or detected where the benchmark names none. -/
def settings (host : Host m) (b : Benchmark) : m (UInt64 × Nat) := do
  let seed ← match b.seed with
    | some seed => pure seed
    | none => host.freshSeed
  let workers ← match b.workers with
    | some workers => pure workers
    | none => host.workers
  return (seed, workers)

/-- The end of a measurement that began at a time. -/
def finishAt (host : Host m) (b : Benchmark) (start : Nat) :
    Except Failure (Float × Float) → m BenchmarkState
  | .ok sums => return b.finish ((← host.clock) - start) (.ok sums)
  | .error cause => return b.finish 0 (.error cause)

/-- **Runs under an existing scheme.** -/
def runWith (host : Host m) (b : Benchmark) (s : Scheme) : m BenchmarkState := do
  let start ← host.clock
  let (seed, workers) ← settings host b
  finishAt host b start (b.measure s seed workers)

/-- **Runs under a scheme of its own**, whose making counts into the time.  No samples need no scheme. -/
def run (host : Host m) (b : Benchmark) : m BenchmarkState := do
  if b.sampleCount = 0 then
    return b.finish 0 (.ok (0.0, 0.0))
  let start ← host.clock
  let keySeed ← host.freshSeed
  match b.freshScheme keySeed with
  | .error cause => return b.finish 0 (.error cause)
  | .ok s => do
    let (seed, workers) ← settings host b
    finishAt host b start (b.measure s seed workers)

/-! ### Text -/

/-- An optional number as it is shown. -/
def showOption {α : Type} [ToString α] : Option α → String
  | some x => "Some(" ++ toString x ++ ")"
  | none => "None"

/-- **A benchmark that has not run yet**, with all its fields. -/
def describe (b : Benchmark) : String :=
  "Benchmark \x7b " ++ s!"ring_dimension: {b.degree}, sample_count: {b.sampleCount}, " ++
    s!"concurrent: {b.concurrent}, upper_bound: {Decimal.render .literal b.upperBound}, " ++
    s!"seed: {showOption b.seed}, workers: {showOption b.workers}, state: Configured " ++ "\x7d"

end Benchmark

namespace BenchmarkRecord

/-- The elapsed time in seconds, as whole seconds plus a fraction. -/
def elapsedSeconds (r : BenchmarkRecord) : Float :=
  Binary64.nearest (r.elapsedNanoseconds / 1000000000 : Nat) +
    Float.ofNat (r.elapsedNanoseconds % 1000000000) / 1000000000.0

/-- **A row of the report.** -/
def describe (r : BenchmarkRecord) : String :=
  String.intercalate " | "
    [toString r.degree, toString r.sampleCount, toString r.concurrent, Decimal.plain r.upperBound,
      Decimal.render .scientific r.errorRatio, Decimal.fixed 6 r.elapsedSeconds]

end BenchmarkRecord

end EncryptedReals

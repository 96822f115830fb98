import EncryptedReals.Benchmark
import EncryptedReals.SetupFailure
import EncryptedReals.Toml.Reader

/-!
# Benchmark grids

A grid lists values for the four axes of a benchmark; its benchmarks are all combinations, the ring
dimension varying slowest.  A grid is read from a document of settings in which every setting is optional
and no other setting is allowed, and it is checked before it is used.

## Main Definitions

* `Grid.ofText`, `Grid.load` — a grid from a document, or from the bytes of a file
* `Grid.validate` — the conditions on the values
* `Grid.benchmarks` — the benchmarks of a grid
-/

namespace EncryptedReals

/-- How the samples of a benchmark are summed. -/
inductive Mode where
  | sequential
  | concurrent
deriving DecidableEq

namespace Mode

/-- The name of a mode in settings. -/
def name : Mode → String
  | sequential => "sequential"
  | concurrent => "concurrent"

/-- The mode of a name. -/
def ofName? (name : String) : Option Mode :=
  [sequential, concurrent].find? fun mode => mode.name = name

def isConcurrent (mode : Mode) : Bool :=
  mode = concurrent

end Mode

/-- **The axes of a family of benchmarks.** -/
structure Grid where
  degrees : List Nat := [4096, 8192]
  sampleCounts : List Nat := [50000, 100000]
  modes : List Mode := [.sequential, .concurrent]
  upperBounds : List Float := [10.0]
  seed : Option UInt64 := none
  workers : Option Nat := none

namespace Grid

/-- **Every axis has a value, dimensions are powers of two, bounds are positive, and some worker works.** -/
def validate (g : Grid) : Except SetupFailure Unit := do
  if g.degrees.isEmpty || g.sampleCounts.isEmpty || g.modes.isEmpty || g.upperBounds.isEmpty then
    throw (.invalid .emptyAxis)
  if let some n := g.degrees.find? fun n => !PrimeChain.isPowerOfTwo n then
    throw (.invalid (.ringDimension n))
  if let some bound := g.upperBounds.find? fun x => !(x.isFinite && x > 0) then
    throw (.invalid (.upperBound bound))
  if g.workers = some 0 then
    throw (.invalid .noWorkers)

/-- **One benchmark for each point of the grid**, the ring dimension varying slowest. -/
def benchmarks (g : Grid) : List Benchmark :=
  g.degrees.flatMap fun degree =>
    g.sampleCounts.flatMap fun sampleCount =>
      g.modes.flatMap fun mode =>
        g.upperBounds.map fun upperBound =>
          { degree, sampleCount, concurrent := mode.isConcurrent, upperBound
            seed := g.seed, workers := g.workers }

/-! ### Settings -/

/-- The items of an array. -/
def items? {α : Type} (item? : Toml → Option α) : Toml → Option (List α)
  | .array items => items.mapM item?
  | .tables items => items.mapM fun t => item? (.table .header t)
  | _ => none

/-- A count: an integer that is not negative. -/
def count? : Toml → Option Nat
  | .integer i => if 0 ≤ i then some i.toNat else none
  | _ => none

/-- A bound: a float, or an integer. -/
def bound? : Toml → Option Float
  | .number x => some x
  | .integer i => some (Binary64.nearest i)
  | _ => none

/-- A value without contents. -/
def isHollow : Toml → Bool
  | .table _ entries => entries.isEmpty
  | .tables items => items.isEmpty
  | .array items => items.isEmpty
  | _ => false

/-- A mode: its name, or a table whose only key is the name, without contents. -/
def mode? : Toml → Option Mode
  | .text s => Mode.ofName? s
  | .table _ [(name, value)] => if isHollow value then Mode.ofName? name else none
  | _ => none

/-- One setting. -/
def set? (g : Grid) (key : String) (value : Toml) : Option Grid :=
  match key with
  | "ring_dimensions" => (items? count? value).map fun degrees => { g with degrees }
  | "sample_counts" => (items? count? value).map fun sampleCounts => { g with sampleCounts }
  | "modes" => (items? mode? value).map fun modes => { g with modes }
  | "upper_bounds" => (items? bound? value).map fun upperBounds => { g with upperBounds }
  | "seed" => (count? value).map fun seed => { g with seed := some (UInt64.ofNat seed) }
  | "workers" => (count? value).map fun workers => { g with workers := some workers }
  | _ => none

/-- The grid of a table of settings. -/
def ofTable? (t : Toml.Table) : Option Grid :=
  t.foldlM (fun g (key, value) => g.set? key value) {}

/-- **The grid of a document**, checked. -/
def ofText (text : String) : Except SetupFailure Grid := do
  match (Toml.readDocument text).bind ofTable? with
  | none => throw (.malformed "not a document of benchmark settings")
  | some g => do
    g.validate
    return g

/-- **The grid of a file's bytes**, which must be text. -/
def load (contents : Except String ByteArray) : Except SetupFailure Grid := do
  let bytes ← contents.mapError .unreadable
  match String.fromUTF8? bytes with
  | none => throw (.unreadable "stream did not contain valid UTF-8")
  | some text => ofText text

end Grid

end EncryptedReals

import EncryptedReals.CommandLine.Arguments
import EncryptedReals.Coefficients
import EncryptedReals.Decimal.Reader
import EncryptedReals.Grid

/-!
# Commands

The commands of the program with their values, and how they are read from arguments.
-/

namespace EncryptedReals

-- Powers are those of the core library, whatever else is in scope.
attribute [local instance (2000)] instPowNat

/-- The families of coefficients that can be asked for by name. -/
inductive StrategyName where
  | lagrange
  | chebyshev
  | cubic
deriving DecidableEq

namespace StrategyName

/-- The strategy of a name; the cubic has a fixed number of terms. -/
def strategy : StrategyName → Nat → Strategy
  | lagrange, terms => .lagrange terms
  | chebyshev, terms => .chebyshev terms
  | cubic, _ => .cubic

/-- The strategy name of a text. -/
def ofText? : String → Option StrategyName
  | "lagrange" => some lagrange
  | "chebyshev" => some chebyshev
  | "cubic" => some cubic
  | _ => none

end StrategyName

/-- What a benchmark command changes of the grid it starts from. -/
structure GridOverrides where
  degrees : List Nat
  sampleCounts : List Nat
  modes : List Mode
  upperBounds : List Float
  seed : Option UInt64
  workers : Option Nat

namespace GridOverrides

/-- The overridden axes take the place of the grid's, and so do a seed and a number of workers. -/
def applyTo (o : GridOverrides) (g : Grid) : Grid where
  degrees := if o.degrees.isEmpty then g.degrees else o.degrees
  sampleCounts := if o.sampleCounts.isEmpty then g.sampleCounts else o.sampleCounts
  modes := if o.modes.isEmpty then g.modes else o.modes
  upperBounds := if o.upperBounds.isEmpty then g.upperBounds else o.upperBounds
  seed := o.seed.or g.seed
  workers := o.workers.or g.workers

end GridOverrides

/-- **A command with its values.** -/
inductive Command where
  | bench (config : Option String) (overrides : GridOverrides)
  | roundTrip (value : Float) (profile : String) (scale : Option Float)
  | product (profile : String)
  | sign (strategy : StrategyName) (terms : Nat) (input : Float) (profile : Option String)
  | mean (profile : String) (values : List Float)
  | compare (a b bound : Float) (strategy : StrategyName) (terms : Nat) (profile : Option String)
  | select (profile : String) (selected : List Nat) (values : List Float)
  | profiles

/-- A command and whether its steps are logged. -/
structure Invocation where
  verbose : Bool
  command : Command

namespace Command

/-! ### Values -/

/-- A value that a reader understands. -/
def understand {α : Type} (read? : String → Option α) (text : String) : Except UsageError α :=
  match read? text with
  | some x => .ok x
  | none => .error (.invalidValue text)

/-- A value of an option, or its default. -/
def optional {α : Type} (a : Arguments) (name : String) (read? : String → Option α) (default : α) :
    Except UsageError α :=
  match a.valueOf? name with
  | some text => understand read? text
  | none => .ok default

/-- A value of an option that may be missing. -/
def optional? {α : Type} (a : Arguments) (name : String) (read? : String → Option α) :
    Except UsageError (Option α) :=
  optional a name (fun text => (read? text).map some) none

/-- All values of an option. -/
def all {α : Type} (a : Arguments) (name : String) (read? : String → Option α) :
    Except UsageError (List α) :=
  (a.valuesOf name).mapM (understand read?)

/-- A count or a dimension. -/
def size? : String → Option Nat :=
  Decimal.readNat? (2 ^ (64 : Nat))

/-- A seed. -/
def seed? (text : String) : Option UInt64 :=
  (size? text).map UInt64.ofNat

/-- A path, which is not empty. -/
def path? (text : String) : Option String :=
  if text.isEmpty then none else some text

/-- The positional values. -/
def numbers (a : Arguments) : Except UsageError (List Float) :=
  a.positional.mapM (understand Decimal.readFloat?)

/-! ### Signatures -/

/-- The texts that a reader understands. -/
def readable {α : Type} (read? : String → Option α) (text : String) : Bool :=
  (read? text).isSome

/-- An option with one value. -/
def one {α : Type} (name : String) (read? : String → Option α) : OptionSpec :=
  { name, kind := .value, accepts := readable read? }

/-- An option with lists of values. -/
def many {α : Type} (name : String) (read? : String → Option α) : OptionSpec :=
  { name, kind := .list, accepts := readable read? }

/-- The signature of a command whose positional values are numbers. -/
def taking (required : Nat) (limit : Option Nat) (options : List OptionSpec) : Signature :=
  { options, accepts := readable Decimal.readFloat?, required, limit }

/-- The profile of a command. -/
def profileOption : OptionSpec :=
  one "preset" some

/-- The coefficients of a command. -/
def strategyOptions : List OptionSpec :=
  [one "strategy" StrategyName.ofText?, one "terms" size?]

/-- The signature of a command. -/
def signature? : String → Option Signature
  | "bench" => some <| taking 0 (some 0)
    [one "config" path?, many "ring-dimensions" size?, many "counts" size?,
      many "modes" Mode.ofName?, many "upper-bounds" Decimal.readFloat?, one "seed" seed?,
      one "workers" size?]
  | "round-trip" => some <| taking 1 (some 1) [profileOption, one "scale" Decimal.readFloat?]
  | "product" => some <| taking 0 (some 0) [profileOption]
  | "sign" => some <| taking 0 (some 0)
    ({ one "input" Decimal.readFloat? with negative := true } :: profileOption :: strategyOptions)
  | "mean" => some <| taking 1 none [profileOption]
  | "compare" => some <| taking 2 (some 2)
    (one "bound" Decimal.readFloat? :: profileOption :: strategyOptions)
  | "select" => some <| taking 1 none [profileOption, many "selected" size?]
  | "presets" => some <| taking 0 (some 0) []
  | _ => none

/-! ### Reading -/

/-- The values of a benchmark command. -/
def readBench (a : Arguments) : Except UsageError Command := do
  let config ← optional? a "config" path?
  let degrees ← all a "ring-dimensions" size?
  let sampleCounts ← all a "counts" size?
  let modes ← all a "modes" Mode.ofName?
  let upperBounds ← all a "upper-bounds" Decimal.readFloat?
  let seed ← optional? a "seed" seed?
  let workers ← optional? a "workers" size?
  return bench config { degrees, sampleCounts, modes, upperBounds, seed, workers }

/-- The command of a name with its values. -/
def ofArguments (name : String) (a : Arguments) : Except UsageError Command := do
  let values ← numbers a
  match name, values with
  | "bench", _ => readBench a
  | "round-trip", value :: _ =>
    return roundTrip value (← optional a "preset" some "moderate")
      (← optional? a "scale" Decimal.readFloat?)
  | "product", _ => return product (← optional a "preset" some "heavy")
  | "sign", _ =>
    return sign (← optional a "strategy" StrategyName.ofText? .lagrange)
      (← optional a "terms" size? 3) (← optional a "input" Decimal.readFloat? 0.5)
      (← optional? a "preset" some)
  | "mean", values => return mean (← optional a "preset" some "heavy") values
  | "compare", x :: y :: _ =>
    return compare x y (← optional a "bound" Decimal.readFloat? 1.0)
      (← optional a "strategy" StrategyName.ofText? .cubic) (← optional a "terms" size? 3)
      (← optional? a "preset" some)
  | "select", values =>
    return select (← optional a "preset" some "heavy") (← all a "selected" size?) values
  | "presets", _ => return profiles
  | _, _ => throw (.unknownCommand name)

/-- What a request for help on some names comes to: help, if they are none or one that has help. -/
def helpOn : List String → UsageError
  | [] => .help
  | name :: rest =>
    if name = "help" || (signature? name).isSome then
      match rest with
      | [] => .help
      | name :: _ => .unknownCommand name
    else .unknownCommand name

/-- The command that is named first, after flags that all commands take. -/
def readFrom : Arguments → List String → Except UsageError Invocation
  | _, [] => .error .missingCommand
  | a, argument :: rest =>
    match argument.toList with
    | '-' :: '-' :: text =>
      match String.ofList text with
      | "verbose" => do readFrom (← a.setVerbose) rest
      | "help" => .error .help
      | _ => .error (.unknownArgument argument)
    | '-' :: c :: cs => do readFrom (← a.addLetters argument (c :: cs)) rest
    | _ =>
      if argument = "help" then .error (helpOn rest)
      else
        match signature? argument with
        | none => .error (.unknownCommand argument)
        | some signature => do
          let own ← signature.read rest
          return ⟨a.verbose || own.verbose, ← ofArguments argument own⟩

/-- **The command of a list of arguments.** -/
def read (arguments : List String) : Except UsageError Invocation :=
  readFrom {} arguments

end Command

end EncryptedReals

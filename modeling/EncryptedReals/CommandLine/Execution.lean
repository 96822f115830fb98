import EncryptedReals.CommandLine.Command
import EncryptedReals.Demonstration
import EncryptedReals.Report

/-!
# Running commands

A command runs against a `Host` and ends in an `Outcome`: the lines it prints, and an exit code.  A failure
is printed with its causes, the outermost first.

## Main Definitions

* `Command.run` — one command
* `CommandLine.run` — a whole command line
-/

namespace EncryptedReals

/-- **How a command line ended.** -/
structure Outcome where
  exitCode : Nat
  stdout : List String
  stderr : List String
  /-- The steps of the evaluations, for a log. -/
  log : List String := []

namespace Outcome

/-- A success. -/
def success (stdout : List String) : Outcome :=
  ⟨0, stdout, [], []⟩

/-- A failure with what was printed before it: the message, and its causes, numbered when there are more
than one. -/
def failure (stdout : List String) (message : String) (causes : List String) : Outcome :=
  let shown := match causes with
    | [] => []
    | [cause] => ["", "Caused by:", "    " ++ cause]
    | causes => ["", "Caused by:"] ++ causes.zipIdx.map fun (cause, i) => s!"    {i}: " ++ cause
  ⟨1, stdout, ("Error: " ++ message) :: shown, []⟩

/-- Arguments that are not understood. -/
def usage (cause : UsageError) : Outcome :=
  match cause with
  | .help =>
    success ["Usage: encrypted-reals [--verbose] <COMMAND>", "",
      "Commands: bench, round-trip, product, sign, mean, compare, select, presets"]
  | _ => ⟨2, [], ["error: " ++ cause.message], []⟩

end Outcome

namespace SetupFailure

/-- The messages from a setup failure inwards. -/
def causes (f : SetupFailure) : List String :=
  match f with
  | unreadable reason => [f.message, reason]
  | malformed reason => [f.message, reason]
  | _ => [f.message]

/-- The outcome of a setup failure, inside the step that it stopped if that is named. -/
def outcome (f : SetupFailure) (step : Option String) : Outcome :=
  match step, f.causes with
  | some step, causes => .failure [] step causes
  | none, message :: causes => .failure [] message causes
  | none, [] => .failure [] f.message []

end SetupFailure

namespace Failure

/-- The outcome of a failure, inside the step that it stopped if that is named. -/
def outcome (f : Failure) (step : Option String) : Outcome :=
  (SetupFailure.scheme f).outcome step

end Failure

namespace Command

/-- The step of making a scheme, named when it fails. -/
def building : Option String := some "Failed to build scheme context"

/-- A scheme for one command. -/
def scheme (profile : Profile) (rotations : List Int) (seed : UInt64) : Except Failure Scheme :=
  ((Scheme.build profile rotations (.ofSeed seed)).run 1).1

/-- The profile of a polynomial: the named one, or the smallest that is deep enough. -/
def profileFor (name : Option String) (coefficients : List Float) : Except SetupFailure Profile :=
  match name with
  | some name => Profile.lookup name
  | none => .ok (Profile.forDepth (Coefficients.depth coefficients))

/-- The lines of a demonstration: its steps, its result, the expected value and the distance. -/
def showRun (s : Scheme) (run : Except Failure Demonstration × List Step) : Outcome :=
  match run.1 with
  | .error cause => cause.outcome none
  | .ok demonstration =>
    let steps := run.2.map fun step => "  " ++ step.describe
    match s.decryptValue demonstration.ciphertext with
    | .error cause => .failure steps "Failed to decrypt demo result" [cause.message]
    | .ok value =>
      .success (steps ++
        ["result   = " ++ Decimal.plain value,
          "expected = " ++ Decimal.plain demonstration.expected,
          "error    = " ++ Decimal.render .scientific (value - demonstration.expected).abs])

/-- A demonstration under a scheme, its steps logged when asked for. -/
def demonstrate (verbose : Bool) (s : Scheme) (seed : UInt64)
    (x : Scheme → Demonstrating Demonstration) : Outcome :=
  let run := ((x s).start (.ofSeed seed)).1
  { showRun s run with log := if verbose then run.2.map Step.describe else [] }

/-- A named profile on one line. -/
def showProfile (name : String) (p : Profile) : String :=
  s!"{Step.padTo 10 name} {p.describe}  depth {p.depth}"

/-- A value encrypted and decrypted again. -/
def showRoundTrip (s : Scheme) (seed : UInt64) (value : Float) : Outcome :=
  match ((s.roundTrip value).run (.ofSeed seed)).1 with
  | .error cause => cause.outcome (some "Round trip failed")
  | .ok decoded =>
    .success [s!"{Decimal.plain value} -> {Decimal.plain decoded} (error " ++
      Decimal.render .scientific (decoded - value).abs ++ ")"]

variable {m : Type → Type} [Monad m]

/-- Makes a scheme and goes on with it, unless that fails. -/
def withScheme (host : Host m) (profile : Profile) (rotations : List Int) (step : Option String)
    (next : Scheme → UInt64 → Outcome) : m Outcome := do
  let keySeed ← host.freshSeed
  let seed ← host.freshSeed
  return match scheme profile rotations keySeed with
    | .error cause => cause.outcome step
    | .ok s => next s seed

/-- The grid that a benchmark command starts from. -/
def startingGrid (host : Host m) : Option String → m (Except SetupFailure Grid)
  | none => return .ok {}
  | some path => return Grid.load (← host.fileContents path)

/-- **Runs a command.** -/
def run (host : Host m) (verbose : Bool) : Command → m Outcome
  | bench config overrides => do
    match ← startingGrid host config with
    | .error cause => return cause.outcome (some ("Failed to load " ++ config.getD ""))
    | .ok g =>
      match ← Report.run host (overrides.applyTo g) with
      | .error cause => return cause.outcome (some "Invalid benchmark configuration")
      | .ok report => return .success report.lines
  | roundTrip value name scale =>
    match Profile.lookup name with
    | .error cause => return cause.outcome none
    | .ok profile =>
      withScheme host { profile with scale := scale.getD profile.scale } Scheme.defaultRotations
        building fun s seed => showRoundTrip s seed value
  | product name =>
    match Profile.lookup name with
    | .error cause => return cause.outcome none
    | .ok profile =>
      withScheme host profile Scheme.defaultRotations none fun s seed =>
        demonstrate verbose s seed fun s => Demonstration.product s 1.0 1.0 2.0 0.0
  | sign strategy terms input name =>
    match (strategy.strategy terms).coefficients with
    | .error cause => return cause.outcome none
    | .ok coefficients =>
      match profileFor name coefficients with
      | .error cause => return cause.outcome none
      | .ok profile =>
        withScheme host profile Scheme.defaultRotations building fun s seed =>
          demonstrate verbose s seed fun s => Demonstration.sign s coefficients input
  | mean name values =>
    match Profile.lookup name with
    | .error cause => return cause.outcome none
    | .ok profile =>
      withScheme host profile (Demonstration.meanRotations values.length) building fun s seed =>
        demonstrate verbose s seed fun s => Demonstration.mean s values
  | compare a b bound strategy terms name =>
    match (strategy.strategy terms).coefficients with
    | .error cause => return cause.outcome none
    | .ok coefficients =>
      match profileFor name coefficients with
      | .error cause => return cause.outcome none
      | .ok profile =>
        withScheme host profile Scheme.defaultRotations building fun s seed =>
          demonstrate verbose s seed fun s => Demonstration.compare s a b coefficients bound
  | select name selected values =>
    match Profile.lookup name with
    | .error cause => return cause.outcome none
    | .ok profile =>
      withScheme host profile Scheme.defaultRotations none fun s seed =>
        demonstrate verbose s seed fun s => Demonstration.select s values selected
  | profiles => return .success (Profile.named.map fun (name, p) => showProfile name p)

end Command

namespace CommandLine

/-- **Runs a command line.** -/
def run {m : Type → Type} [Monad m] (host : Host m) (arguments : List String) : m Outcome :=
  match Command.read arguments with
  | .error cause => return .usage cause
  | .ok invocation => invocation.command.run host invocation.verbose

end CommandLine

end EncryptedReals

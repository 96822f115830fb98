/-!
# Arguments of a command

The arguments of a command are options, introduced by their names, and positional values.  An option takes
nothing, one value, or lists of values separated by commas; only the last kind may be repeated.  A value is
attached with an equals sign or follows as the next argument.  After `--` all arguments are positional.

An argument that begins with a hyphen is an option, unless it is a negative number where a negative number
is expected: as the value of an option that takes them, or while positional values are still to come.

## Main Definitions

* `Signature` — the options and positional values of a command
* `Signature.read` — the arguments taken apart

## Design Notes

Arguments are read from the front, and each value is checked as soon as it is complete.  So a request for
help counts only if all arguments before it are understood, and nothing after it is looked at.
-/

namespace EncryptedReals

/-- What an option takes. -/
inductive OptionKind where
  | value
  | list
deriving DecidableEq

/-- An option of a command. -/
structure OptionSpec where
  name : String
  kind : OptionKind
  /-- The texts that are a value of the option. -/
  accepts : String → Bool
  /-- A negative number may follow as the value. -/
  negative : Bool := false

/-- **What a command takes.** -/
structure Signature where
  options : List OptionSpec
  /-- The texts that are a positional value. -/
  accepts : String → Bool
  /-- The least number of positional values. -/
  required : Nat
  /-- The largest number of positional values, if there is one. -/
  limit : Option Nat

/-- Why arguments are not understood. -/
inductive UsageError where
  | missingCommand
  | unknownCommand (name : String)
  | unknownArgument (argument : String)
  | missingValue (name : String)
  | unexpectedValue (name : String)
  | repeated (name : String)
  | tooFewValues
  | invalidValue (argument : String)
  /-- Not an error: the arguments ask for help. -/
  | help

namespace UsageError

/-- The wording of a usage error. -/
def message : UsageError → String
  | missingCommand => "a command is required"
  | unknownCommand name => "unrecognized command " ++ name
  | unknownArgument argument => "unexpected argument " ++ argument
  | missingValue name => "a value is required for --" ++ name
  | unexpectedValue name => "no value is taken by --" ++ name
  | repeated name => "--" ++ name ++ " cannot be used multiple times"
  | tooFewValues => "a required value was not provided"
  | invalidValue argument => "invalid value " ++ argument
  | help => "help"

end UsageError

/-- Arguments taken apart. -/
structure Arguments where
  verbose : Bool := false
  /-- The values of each option in the order they were given. -/
  options : List (String × String) := []
  positional : List String := []

namespace Arguments

/-- The values of an option. -/
def valuesOf (a : Arguments) (name : String) : List String :=
  a.options.filterMap fun (n, v) => if n = name then some v else none

/-- The value of an option that is given at most once. -/
def valueOf? (a : Arguments) (name : String) : Option String :=
  (a.valuesOf name).head?

/-- The flag that every command takes. -/
def setVerbose (a : Arguments) : Except UsageError Arguments :=
  if a.verbose then .error (.repeated "verbose") else .ok { a with verbose := true }

/-- The values that a text gives to an option. -/
def valuesIn (spec : OptionSpec) (text : String) : List String :=
  match spec.kind with
  | .value => [text]
  | .list => text.splitOn ","

/-- One more text for an option. -/
def addValue (a : Arguments) (spec : OptionSpec) (text : String) : Except UsageError Arguments :=
  if spec.kind = .value && (a.valueOf? spec.name).isSome then .error (.repeated spec.name)
  else
    let values := valuesIn spec text
    match values.find? fun v => !spec.accepts v with
    | some v => .error (.invalidValue v)
    | none => .ok { a with options := a.options ++ values.map fun v => (spec.name, v) }

/-- The letters of flags behind one hyphen. -/
def addLetters (argument : String) : Arguments → List Char → Except UsageError Arguments
  | a, [] => .ok a
  | a, c :: cs => do
    if c = 'v' then addLetters argument (← a.setVerbose) cs
    else if c = 'h' then .error .help
    else .error (.unknownArgument argument)

end Arguments

/-- What follows the point or the mark of an exponent in a number: digits, at most one of each, the point
before the mark.  The mark is not the last character. -/
def isNumberTail (seenPoint seenMark : Bool) : List Char → Bool
  | [] => true
  | c :: cs =>
    if c.isDigit then isNumberTail seenPoint seenMark cs
    else if c = '.' && !seenPoint && !seenMark then isNumberTail true seenMark cs
    else if (c = 'e' || c = 'E') && !seenMark && !cs.isEmpty then isNumberTail seenPoint true cs
    else false

/-- **A negative number**: a hyphen, a digit, and digits with at most one point and one exponent. -/
def isNegativeNumber (argument : String) : Bool :=
  match argument.toList with
  | '-' :: c :: cs => c.isDigit && isNumberTail false false cs
  | _ => false

namespace Signature

def find? (s : Signature) (name : String) : Option OptionSpec :=
  s.options.find? fun spec => spec.name = name

/-- Another positional value can follow `count` of them. -/
def expectsMore (s : Signature) (count : Nat) : Bool :=
  match s.limit with
  | none => true
  | some limit => count < limit

/-- One more positional value. -/
def addPositional (s : Signature) (a : Arguments) (argument : String) :
    Except UsageError Arguments :=
  if !s.expectsMore a.positional.length then .error (.unknownArgument argument)
  else if !s.accepts argument then .error (.invalidValue argument)
  else .ok { a with positional := a.positional ++ [argument] }

/-- The name of an option and the value attached to it. -/
def splitAttached (text : List Char) : String × Option String :=
  let name := String.ofList (text.takeWhile (· ≠ '='))
  match text.dropWhile (· ≠ '=') with
  | [] => (name, none)
  | _ :: value => (name, some (String.ofList value))

/-- All arguments after `--`. -/
def readTrailing (s : Signature) : Arguments → List String → Except UsageError Arguments
  | a, [] => .ok a
  | a, argument :: rest => do readTrailing s (← s.addPositional a argument) rest

/-- An option by its name: it is complete, or it waits for the next argument. -/
def addNamed (s : Signature) (a : Arguments) (argument : String) (text : List Char) :
    Except UsageError (Arguments × Option OptionSpec) := do
  let (name, attached) := splitAttached text
  if (name = "help" || name = "verbose") && attached.isSome then throw (.unexpectedValue name)
  if name = "help" then throw .help
  if name = "verbose" then
    return (← a.setVerbose, none)
  match s.find? name, attached with
  | none, _ => throw (.unknownArgument argument)
  | some spec, some value => return (← a.addValue spec value, none)
  | some spec, none => return (a, some spec)

/-- The arguments from the front on.  `pending` is an option that waits for its value. -/
def readFrom (s : Signature) : (pending : Option OptionSpec) → Arguments → List String →
    Except UsageError Arguments
  | none, a, [] => .ok a
  | some spec, _, [] => .error (.missingValue spec.name)
  | pending, a, argument :: rest => do
    let takesNegative :=
      (pending.any OptionSpec.negative || s.expectsMore a.positional.length) &&
        isNegativeNumber argument
    match argument.toList, pending with
    | '-' :: '-' :: _, some spec => throw (.missingValue spec.name)
    | ['-', '-'], none => s.readTrailing a rest
    | '-' :: '-' :: text, none =>
      let (a, pending) ← s.addNamed a argument text
      readFrom s pending a rest
    | '-' :: _ :: _, some spec =>
      if takesNegative then readFrom s none (← a.addValue spec argument) rest
      else throw (.missingValue spec.name)
    | '-' :: c :: cs, none =>
      if takesNegative then readFrom s none (← s.addPositional a argument) rest
      else readFrom s none (← a.addLetters argument (c :: cs)) rest
    | _, some spec => readFrom s none (← a.addValue spec argument) rest
    | _, none => readFrom s none (← s.addPositional a argument) rest

/-- **The arguments of a command taken apart.** -/
def read (s : Signature) (arguments : List String) : Except UsageError Arguments := do
  let a ← s.readFrom none {} arguments
  if a.positional.length < s.required then
    throw .tooFewValues
  return a

end Signature

end EncryptedReals

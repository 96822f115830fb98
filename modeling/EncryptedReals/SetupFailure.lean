import EncryptedReals.Failure

/-!
# Failures of a setup

What is read from a configuration file or from a command line can be unreadable, malformed, or invalid, and
the scheme it asks for can fail.
-/

namespace EncryptedReals

/-- A value that is well formed and makes no sense. -/
inductive Invalidity where
  | unknownProfile (name : String) (known : List String)
  | emptyAxis
  | ringDimension (n : Nat)
  | upperBound (bound : Float)
  | noWorkers

namespace Invalidity

/-- The wording of an invalid value. -/
def message : Invalidity → String
  | unknownProfile name known =>
    "unknown preset " ++ name ++ " (available: " ++ String.intercalate ", " known ++ ")"
  | emptyAxis => "every grid axis needs at least one value"
  | ringDimension n => s!"ring dimension {n} is not a power of two"
  | upperBound bound => s!"upper bound {Decimal.plain bound} must be positive"
  | noWorkers => "workers must be at least 1"

end Invalidity

/-- **Why a setup failed.** -/
inductive SetupFailure where
  /-- The file cannot be read, for the reason that the system gives. -/
  | unreadable (reason : String)
  | malformed (reason : String)
  | invalid (cause : Invalidity)
  | scheme (cause : Failure)

namespace SetupFailure

/-- **The text of a setup failure.** -/
def message : SetupFailure → String
  | unreadable reason => "Failed to read config: " ++ reason
  | malformed reason => "Failed to parse config: " ++ reason
  | invalid cause => "Invalid config: " ++ cause.message
  | scheme cause => cause.message

end SetupFailure

end EncryptedReals

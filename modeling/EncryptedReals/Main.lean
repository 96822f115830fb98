import EncryptedReals.CommandLine.Execution

/-!
# The program

The command line run against the real surroundings: seeds from the system's randomness, the monotonic
clock, and files.
-/

namespace EncryptedReals

/-- The reason why a file cannot be read. -/
def readReason : IO.Error → String
  | .noFileOrDirectory .. => FileError.notFound.message
  | .permissionDenied .. => FileError.permissionDenied.message
  | .inappropriateType _ 20 _ => FileError.notDirectory.message
  | .inappropriateType .. => FileError.isDirectory.message
  | .invalidArgument _ 36 _ => FileError.nameTooLong.message
  | e => toString e

/-- The real surroundings of the program. -/
def systemHost : Host IO where
  freshSeed := do
    let bytes ← IO.getRandomBytes 8
    return bytes.toList.foldl (fun seed b => seed <<< 8 ||| b.toUInt64) 0
  clock := IO.monoNanosNow
  workers := return 8
  fileContents path := do
    match ← (IO.FS.readBinFile path).toBaseIO with
    | .ok bytes => return .ok bytes
    | .error e => return .error (readReason e)

end EncryptedReals

/-- Prints what the command line printed, and ends with its exit code. -/
def main (arguments : List String) : IO UInt32 := do
  let outcome ← EncryptedReals.CommandLine.run EncryptedReals.systemHost arguments
  for line in outcome.log do
    IO.eprintln line
  for line in outcome.stdout do
    IO.println line
  for line in outcome.stderr do
    IO.eprintln line
  return outcome.exitCode.toUInt32

/-!
# The surroundings of a program

What a program takes from outside, fresh seeds, the time, the number of hardware threads and the bytes of
files, is asked of a `Host`, so the same definitions run in `IO` and in pure code.

## Main Definitions

* `Host` — what is asked of the surroundings
* `FileTree` — files in directories, read by `FileTree.read`
* `Host.still` — pure surroundings, which never change

## Design Notes

A path is walked one name at a time, with the directories above kept on a stack, so that the first name
that leads nowhere decides the error.
-/

namespace EncryptedReals

/-- **What a program asks of its surroundings.** -/
structure Host (m : Type → Type) where
  /-- A seed that was not used before. -/
  freshSeed : m UInt64
  /-- Nanoseconds since some fixed time. -/
  clock : m Nat
  /-- The number of hardware threads. -/
  workers : m Nat
  /-- The bytes of a file, or the reason why there are none. -/
  fileContents : String → m (Except String ByteArray)

/-- **Why a file cannot be read.** -/
inductive FileError where
  | notFound
  | permissionDenied
  | notDirectory
  | isDirectory
  | nameTooLong
deriving DecidableEq

namespace FileError

/-- The reason as the system words it. -/
def message : FileError → String
  | notFound => "No such file or directory (os error 2)"
  | permissionDenied => "Permission denied (os error 13)"
  | notDirectory => "Not a directory (os error 20)"
  | isDirectory => "Is a directory (os error 21)"
  | nameTooLong => "File name too long (os error 36)"

end FileError

/-- **Files in directories.** -/
inductive FileTree where
  | file (contents : ByteArray)
  | directory (entries : List (String × FileTree))

namespace FileTree

/-- The longest name, in bytes. -/
def nameLimit : Nat := 255

/-- The longest path, in bytes. -/
def pathLimit : Nat := 4095

/-- What some names lead to, with the directories above at hand. -/
def walk : (names : List String) → (above : List FileTree) → FileTree → Except FileError FileTree
  | [], _, t => .ok t
  | _ :: _, _, file _ => .error .notDirectory
  | name :: names, above, directory entries =>
    if name = "" || name = "." then walk names above (directory entries)
    else if name = ".." then
      match above with
      | [] => walk names [] (directory entries)
      | parent :: above => walk names above parent
    else if nameLimit < name.utf8ByteSize then .error .nameTooLong
    else
      match entries.lookup name with
      | none => .error .notFound
      | some t => walk names (directory entries :: above) t

/-- **The bytes at a path**, which starts at the root or in the working directory. -/
def read (root : FileTree) (working : List String) (path : String) : Except FileError ByteArray :=
  let names := path.splitOn "/"
  if path = "" then .error .notFound
  else if pathLimit < path.utf8ByteSize then .error .nameTooLong
  else
    match walk (if names.head? = some "" then names else working ++ names) [] root with
    | .error cause => .error cause
    | .ok (directory _) => .error .isDirectory
    | .ok (file contents) => .ok contents

end FileTree

/-- **Surroundings that never change**: one seed, no time that passes, and a tree of files. -/
def Host.still (seed : UInt64) (workers : Nat) (root : FileTree) (working : List String) : Host Id where
  freshSeed := seed
  clock := 0
  workers := workers
  fileContents path := (root.read working path).mapError FileError.message

end EncryptedReals

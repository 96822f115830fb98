import EncryptedReals.Ciphertext
import EncryptedReals.Failure

/-!
# Traces

A trace lists the operations that an evaluation performed, each with the scale and level of its operands
and of its result.  Observed computations append a step after every operation that succeeds, so a
computation that fails leaves exactly the steps before the failure.

## Main Definitions

* `Step` — an operation with snapshots of operands and result
* `Observed` — computations that record steps and may fail
* `Updating` — the same for computations that change a ciphertext in place
* `Recorder` — records that are passed on as they arrive
-/

namespace EncryptedReals

/-- The operations that are recorded. -/
inductive Operation where
  | add
  | addPlain
  | sub
  | negate
  | multiply
  | multiplyPlain
  | relinearize
  | rescale
  | switchLevel
  | rotate (steps : Int)
deriving DecidableEq

namespace Operation

/-- The name of an operation in a trace. -/
def name : Operation → String
  | add => "add"
  | addPlain => "add_plain"
  | sub => "sub"
  | negate => "negate"
  | multiply => "multiply"
  | multiplyPlain => "multiply_plain"
  | relinearize => "relinearize"
  | rescale => "rescale"
  | switchLevel => "mod_switch"
  | rotate steps => s!"rotate({steps})"

end Operation

/-- The scale and level of a ciphertext at one point of a computation. -/
structure Snapshot where
  scale : Float
  level : Nat

namespace Snapshot

def ofCiphertext (ct : Ciphertext) : Snapshot :=
  ⟨ct.scale, ct.level⟩

/-- A snapshot as it is shown. -/
def describe (s : Snapshot) : String :=
  s!"(2^{Decimal.fixed 2 s.scale.log2}, level {s.level})"

end Snapshot

/-- **One operation of a trace.** -/
structure Step where
  operation : Operation
  operands : List Snapshot
  result : Snapshot

namespace Step

/-- The step of an operation that returned a ciphertext. -/
def ofResult (operation : Operation) (operands : List Ciphertext) (result : Ciphertext) : Step :=
  ⟨operation, operands.map .ofCiphertext, .ofCiphertext result⟩

/-- The width of the column of names. -/
def nameWidth : Nat := 16

/-- A text filled with blanks up to a width. -/
def padTo (width : Nat) (text : String) : String :=
  text ++ String.ofList (List.replicate (width - text.length) ' ')

/-- **A step on one line**: the name in its column, the operands, the result. -/
def describe (s : Step) : String :=
  padTo nameWidth s.operation.name ++ String.intercalate ", " (s.operands.map Snapshot.describe) ++
    " -> " ++ s.result.describe

end Step

/-- **A computation that records steps and may fail.**  The steps before a failure are kept. -/
abbrev Observed := ExceptT Failure (StateM (List Step))

namespace Observed

/-- The result of an operation, recorded when there is one. -/
def record (operation : Operation) (operands : List Ciphertext) (result : Except Failure Ciphertext) :
    Observed Ciphertext := do
  let ct ← result
  modifyThe (List Step) (· ++ [.ofResult operation operands ct])
  return ct

/-- A computation with the steps it records. -/
def trace {α : Type} (x : Observed α) : Except Failure α × List Step :=
  x.run []

/-- A computation that nobody observes. -/
def result {α : Type} (x : Observed α) : Except Failure α :=
  x.trace.1

end Observed

/-- **A computation that changes a ciphertext in place**, and records steps. -/
abbrev Updating := ExceptT Failure (StateM (Ciphertext × List Step))

namespace Updating

/-- A change that records nothing. -/
def change (x : ExceptT Failure (StateM Ciphertext) Unit) : Updating Unit := do
  let (ct, steps) ← getThe (Ciphertext × List Step)
  let (outcome, changed) := x.run.run ct
  set (changed, steps)
  outcome

/-- The step of a change that is done, given the operands from before. -/
def record (operation : Operation) (operands : List Ciphertext) : Updating Unit :=
  modifyThe (Ciphertext × List Step) fun (ct, steps) =>
    (ct, steps ++ [.ofResult operation operands ct])

end Updating

/-- **A recorder**: keeps each step and passes it on. -/
structure Recorder where
  steps : List Step := []
  /-- The steps passed on so far. -/
  forwarded : List Step := []

namespace Recorder

/-- A step arrives: it is passed on and kept. -/
def observe (r : Recorder) (step : Step) : Recorder :=
  ⟨r.steps ++ [step], r.forwarded ++ [step]⟩

/-- The steps kept so far, and the recorder without them. -/
def take (r : Recorder) : List Step × Recorder :=
  (r.steps, { r with steps := [] })

end Recorder

end EncryptedReals

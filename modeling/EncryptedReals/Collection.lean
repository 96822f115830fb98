import EncryptedReals.Scheme

/-!
# Flagged collections

An item is an encrypted value with encrypted flags, each 1 or 0.  A collection holds items that all have
the same number of flags.  The values can be reduced to their sum or product, and the values under one flag
can be summed without learning which they are: each value is multiplied with its flag first.

Items and collections are changed in place, while the encryptions that go into them are drawn.  A change
that fails does not undo what it has done.  What is left of a value after a change is given beside it,
for callers that keep the value before.

## Main Definitions

* `Changing` — computations that change a value in place
* `Item.encrypt`, `Item.setFlagInPlace` — items and their flags
* `Collection.pushInPlace`, `Collection.pushPlainInPlace`, `Collection.setFlagInPlace` — collections
* `Collection.reduce`, `Collection.sumWhere` — what is computed of the items
-/

namespace EncryptedReals

/-- **A computation that changes a value in place**, draws, and may fail.  What has changed by then stays
changed. -/
abbrev Changing (σ : Type) := ExceptT Failure (StateM (σ × Generator))

namespace Changing

variable {σ α : Type}

/-- The value as it stands. -/
def current : Changing σ σ := do
  let (a, _) ← getThe (σ × Generator)
  return a

/-- A part that draws. -/
def drawing (x : FallibleDrawing α) : Changing σ α :=
  fun (a, generator) =>
    let (outcome, generator) := x.run.run generator
    (outcome, (a, generator))

/-- A part that draws nothing. -/
def change (x : ExceptT Failure (StateM σ) α) : Changing σ α :=
  fun (a, generator) =>
    let (outcome, a) := x.run.run a
    (outcome, (a, generator))

/-- **What is left of a value**, beside the answer, when the change succeeds. -/
def runOn (x : Changing σ α) (a : σ) : FallibleDrawing (α × σ) :=
  fun generator =>
    let (outcome, (a, generator)) := x.run.run (a, generator)
    (outcome.map fun answer => (answer, a), generator)

end Changing

/-- **An encrypted value with its flags.** -/
structure Item where
  value : Ciphertext
  flags : List Ciphertext

namespace Item

/-- The plaintext of a flag. -/
def flagValue (on : Bool) : Float :=
  if on then 1.0 else 0.0

/-- **Encrypts a value with a number of flags**, all off. -/
def encrypt (s : Scheme) (value : Float) (flagCount : Nat) : FallibleDrawing Item := do
  let value ← s.encryptValue value s.scale
  let flags ← (List.replicate flagCount false).mapM fun on => s.encryptValue (flagValue on) s.scale
  return { value, flags }

/-- **Replaces a flag** by a fresh encryption. -/
def setFlagInPlace (s : Scheme) (index : Nat) (on : Bool) : Changing Item Unit := do
  let item ← .current
  if item.flags.length ≤ index then
    throw (.configuration (.flagOutOfRange index item.flags.length))
  let flag ← .drawing (s.encryptValue (flagValue on) s.scale)
  .change (modifyThe Item fun item => { item with flags := item.flags.set index flag })

/-- The item with a flag replaced. -/
def setFlag (s : Scheme) (item : Item) (index : Nat) (on : Bool) : FallibleDrawing Item := do
  let (_, item) ← (setFlagInPlace s index on).runOn item
  return item

end Item

/-- How the values of a collection are combined. -/
inductive Reduction where
  | sum
  /-- Takes one level for each item after the first. -/
  | product
deriving DecidableEq

/-- **Items with the same number of flags.** -/
structure Collection where
  flagCount : Nat
  items : List Item

namespace Collection

/-- The collection without items. -/
def empty (flagCount : Nat) : Collection :=
  ⟨flagCount, []⟩

/-- **Appends an item**, when its number of flags is the collection's. -/
def pushInPlace (item : Item) : ExceptT Failure (StateM Collection) Unit := do
  let c ← getThe Collection
  if item.flags.length ≠ c.flagCount then
    throw (.mismatch (.flagCount item.flags.length c.flagCount))
  modifyThe Collection fun c => { c with items := c.items ++ [item] }

/-- **Encrypts a value** with all flags off and appends it. -/
def pushPlainInPlace (s : Scheme) (value : Float) : Changing Collection Unit := do
  let c ← .current
  let item ← .drawing (Item.encrypt s value c.flagCount)
  .change (pushInPlace item)

/-- A change of the item at a place; nothing when there is no such item. -/
def atItem {α : Type} (place : Nat) (x : Changing Item α) : Changing Collection (Option α) :=
  fun (c, generator) =>
    match c.items[place]? with
    | none => (.ok none, (c, generator))
    | some item =>
      let (outcome, (item, generator)) := x.run.run (item, generator)
      (outcome.map some, ({ c with items := c.items.set place item }, generator))

/-- **Replaces a flag** of the item at a place; nothing when there is no such item. -/
def setFlagInPlace (s : Scheme) (place index : Nat) (on : Bool) : Changing Collection (Option Unit) :=
  atItem place (Item.setFlagInPlace s index on)

/-- The collection with an item appended. -/
def push (c : Collection) (item : Item) : Except Failure Collection := do
  let (outcome, c) := (pushInPlace item).run.run c
  outcome
  return c

/-- The collection with an encrypted value appended. -/
def pushPlain (s : Scheme) (c : Collection) (value : Float) : FallibleDrawing Collection := do
  let (_, c) ← (pushPlainInPlace s value).runOn c
  return c

/-- The collection with a flag replaced in the item at a place; nothing when there is no such item. -/
def setFlag (s : Scheme) (c : Collection) (place index : Nat) (on : Bool) :
    FallibleDrawing (Option Collection) := do
  let (found, c) ← (setFlagInPlace s place index on).runOn c
  return found.map fun _ => c

/-- One more value combined with those before it. -/
def combine (s : Scheme) : Reduction → Ciphertext → Ciphertext → Observed Ciphertext
  | .sum, acc, value => s.add acc value
  | .product, acc, value => do
    let value ← s.switchTo value acc.level
    s.multiplyRescale acc value

/-- **All values combined**; nothing for no items. -/
def reduce (s : Scheme) (c : Collection) (reduction : Reduction) : Observed (Option Ciphertext) :=
  match c.items with
  | [] => return none
  | first :: rest => do
    let ct ← rest.foldlM (fun acc item => combine s reduction acc item.value) first.value
    return some ct

/-- **The sum of the values under a flag**; nothing for no items. -/
def sumWhere (s : Scheme) (c : Collection) (index : Nat) : Observed (Option Ciphertext) := do
  if c.flagCount ≤ index then
    throw (.configuration (.flagOutOfRange index c.flagCount))
  c.items.foldlM (fun sum item => do
    match item.flags[index]? with
    | none => throw (.configuration (.missingFlag index))
    | some flag =>
      let masked ← s.multiplyRescale item.value flag
      return some (← s.accumulate sum masked)) none

end Collection

end EncryptedReals

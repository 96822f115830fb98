/-!
# Documents of settings

A TOML document is a table of named values.  Tables come about in four ways, and a table can be added to or
not depending on how it came about.  Dates and times have no constructor: no setting takes one.

## Main Definitions

* `Toml` — the values
* `Toml.Table.put` — a value under a dotted key
* `Toml.Table.openTable`, `Toml.Table.openItem` — the headers of tables and of arrays of tables
-/

namespace EncryptedReals

/-- How a table came about. -/
inductive TableOrigin where
  /-- Written in braces; closed. -/
  | braces
  /-- By a header of its own. -/
  | header
  /-- By a header of a table inside it. -/
  | implied
  /-- By a dotted key. -/
  | dotted
deriving DecidableEq

/-- **A value of a document.** -/
inductive Toml where
  | text (s : String)
  | integer (i : Int)
  | number (x : Float)
  | boolean (b : Bool)
  | array (items : List Toml)
  | table (origin : TableOrigin) (entries : List (String × Toml))
  /-- An array of tables, one for each of its headers. -/
  | tables (items : List (List (String × Toml)))

namespace Toml

/-- The entries of a table in the order they came about. -/
abbrev Table := List (String × Toml)

namespace Table

/-- Replaces the value of a key. -/
def replace (t : Table) (key : String) (value : Toml) : Table :=
  t.map fun (k, v) => if k = key then (k, value) else (k, v)

/-- **A value under a dotted key**, which must be new.  The tables on the way come about by dotted keys or
by headers inside them. -/
def put (value : Toml) : (path : List String) → Table → Option Table
  | [], _ => none
  | [key], t => if (t.lookup key).isSome then none else some (t ++ [(key, value)])
  | key :: path, t =>
    match t.lookup key with
    | none => (put value path []).map fun sub => t ++ [(key, .table .dotted sub)]
    | some (.table .dotted sub) =>
      (put value path sub).map fun sub => t.replace key (.table .dotted sub)
    | some (.table .implied sub) =>
      (put value path sub).map fun sub => t.replace key (.table .implied sub)
    | some _ => none

/-- Changes the table at the path of a header, the last one where the path meets an array of tables. -/
def modifyAt (f : Table → Option Table) : (path : List String) → Table → Option Table
  | [], t => f t
  | key :: path, t =>
    match t.lookup key with
    | none => (modifyAt f path []).map fun sub => t ++ [(key, .table .implied sub)]
    | some (.table .braces _) => none
    | some (.table origin sub) =>
      (modifyAt f path sub).map fun sub => t.replace key (.table origin sub)
    | some (.tables items) =>
      match items.getLast? with
      | none => none
      | some last =>
        (modifyAt f path last).map fun last => t.replace key (.tables (items.dropLast ++ [last]))
    | some _ => none

/-- A table that a header opens: new, or implied by earlier headers and not opened before. -/
def declare (key : String) (t : Table) : Option Table :=
  match t.lookup key with
  | none => some (t ++ [(key, .table .header [])])
  | some (.table .implied sub) => some (t.replace key (.table .header sub))
  | some _ => none

/-- One more table of an array of tables. -/
def declareItem (key : String) (t : Table) : Option Table :=
  match t.lookup key with
  | none => some (t ++ [(key, .tables [[]])])
  | some (.tables items) => some (t.replace key (.tables (items ++ [[]])))
  | some _ => none

/-- **The header of a table.** -/
def openTable (path : List String) (t : Table) : Option Table :=
  match path.getLast? with
  | none => none
  | some key => modifyAt (declare key) path.dropLast t

/-- **The header of an item of an array of tables.** -/
def openItem (path : List String) (t : Table) : Option Table :=
  match path.getLast? with
  | none => none
  | some key => modifyAt (declareItem key) path.dropLast t

end Table

end Toml

end EncryptedReals

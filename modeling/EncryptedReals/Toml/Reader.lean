import EncryptedReals.Decimal.Reader
import EncryptedReals.Toml.Document

/-!
# Reading documents of settings

A recursive descent reader for TOML.  A reader takes what it recognises off the front of the characters and
leaves the rest; `none` means that the document is malformed.

## Main Definitions

* `Toml.readValue` — one value
* `Toml.readDocument` — a whole document
-/

namespace EncryptedReals.Toml

-- Powers are those of the core library, whatever else is in scope.
attribute [local instance (2000)] instPowNat

/-- What a reader recognised, and the rest. -/
abbrev Reader (α : Type) := List Char → Option (α × List Char)

/-! ### Blanks, comments, line ends -/

def isBlank (c : Char) : Bool :=
  c = ' ' || c = '\t'

/-- Characters that may stand in a line of text: the tab and all that are not control characters. -/
def isPrintable (c : Char) : Bool :=
  c = '\t' || (0x20 ≤ c.toNat && c.toNat ≠ 0x7f)

def skipBlanks (cs : List Char) : List Char :=
  cs.dropWhile isBlank

/-- The rest after a line end, if there is one. -/
def lineEnd? : List Char → Option (List Char)
  | '\n' :: cs => some cs
  | '\r' :: '\n' :: cs => some cs
  | _ => none

/-- The rest after a comment, if there is one. -/
def skipComment : List Char → List Char
  | '#' :: cs => cs.dropWhile isPrintable
  | cs => cs

/-- The rest of a line: blanks, a comment, and a line end or the end of the document. -/
def finishLine (cs : List Char) : Option (List Char) :=
  match skipComment (skipBlanks cs) with
  | [] => some []
  | cs => lineEnd? cs

/-- Blanks, comments and line ends between the items of an array. -/
def skipLines : (fuel : Nat) → List Char → List Char
  | 0, cs => cs
  | fuel + 1, cs =>
    let rest := skipComment (skipBlanks cs)
    match lineEnd? rest with
    | some rest => skipLines fuel rest
    | none => rest

/-! ### Strings -/

/-- The value of a hexadecimal digit. -/
def hexValue? (c : Char) : Option Nat :=
  if '0' ≤ c ∧ c ≤ '9' then some (c.toNat - '0'.toNat)
  else if 'a' ≤ c ∧ c ≤ 'f' then some (c.toNat - 'a'.toNat + 10)
  else if 'A' ≤ c ∧ c ≤ 'F' then some (c.toNat - 'A'.toNat + 10)
  else none

/-- The number of a run of hexadecimal digits. -/
def hexNumber? (digits : List Char) : Option Nat :=
  digits.foldlM (fun n c => (hexValue? c).map (16 * n + ·)) 0

/-- The character with a code, when there is one. -/
def charOfCode? (digits : List Char) : Option Char := do
  let n ← hexNumber? digits
  if n.isValidChar then some (Char.ofNat n) else none

/-- The character that follows a backslash. -/
def escaped? : Char → Option Char
  | 'b' => some '\x08'
  | 't' => some '\t'
  | 'n' => some '\n'
  | 'f' => some '\x0c'
  | 'r' => some '\r'
  | '"' => some '"'
  | '\\' => some '\\'
  | _ => none

/-- Puts a character in front of what a reader recognised. -/
def consTo (c : Char) (r : Option (List Char × List Char)) : Option (List Char × List Char) :=
  r.map fun (s, rest) => (c :: s, rest)

/-- The contents of a quoted string up to its closing quote. -/
def readBasic : Reader (List Char)
  | [] => none
  | '"' :: cs => some ([], cs)
  | '\\' :: 'u' :: a :: b :: c :: d :: cs =>
    match charOfCode? [a, b, c, d] with
    | some x => consTo x (readBasic cs)
    | none => none
  | '\\' :: 'U' :: a :: b :: c :: d :: e :: f :: g :: h :: cs =>
    match charOfCode? [a, b, c, d, e, f, g, h] with
    | some x => consTo x (readBasic cs)
    | none => none
  | '\\' :: c :: cs =>
    match escaped? c with
    | some x => consTo x (readBasic cs)
    | none => none
  | c :: cs => if isPrintable c && c != '\\' then consTo c (readBasic cs) else none

/-- The contents of a literal string up to its closing apostrophe. -/
def readLiteral : Reader (List Char)
  | [] => none
  | c :: cs =>
    if c = '\'' then some ([], cs)
    else if isPrintable c then consTo c (readLiteral cs)
    else none

/-- A run of three or more quotes ends a string over several lines; up to two of them belong to it. -/
def closing? (quote : Char) (cs : List Char) : Option (List Char × List Char) :=
  let run := (cs.takeWhile (· = quote)).length
  if run < 3 then none
  else
    let kept := min (run - 3) 2
    some (List.replicate kept quote, cs.drop (kept + 3))

/-- The rest after blanks and line ends. -/
def skipBlankLines : List Char → List Char
  | '\r' :: '\n' :: cs => skipBlankLines cs
  | c :: cs => if isBlank c || c = '\n' then skipBlankLines cs else c :: cs
  | [] => []

/-- The rest after a line end with blanks before and blanks and line ends after it. -/
def skipFold? (cs : List Char) : Option (List Char) :=
  (lineEnd? (skipBlanks cs)).map skipBlankLines

/-- The contents of a quoted string over several lines.  A backslash at the end of a line joins the next
text to it. -/
def readBasicLines : (fuel : Nat) → Reader (List Char)
  | 0, _ => none
  | fuel + 1, cs =>
    match closing? '"' cs with
    | some found => some found
    | none =>
      match cs with
      | '\\' :: rest =>
        match skipFold? rest with
        | some rest => readBasicLines fuel rest
        | none =>
          match rest with
          | 'u' :: rest =>
            match charOfCode? (rest.take 4) with
            | some x =>
              if (rest.take 4).length = 4 then consTo x (readBasicLines fuel (rest.drop 4)) else none
            | none => none
          | 'U' :: rest =>
            match charOfCode? (rest.take 8) with
            | some x =>
              if (rest.take 8).length = 8 then consTo x (readBasicLines fuel (rest.drop 8)) else none
            | none => none
          | c :: rest =>
            match escaped? c with
            | some x => consTo x (readBasicLines fuel rest)
            | none => none
          | [] => none
      | '\r' :: '\n' :: rest => consTo '\n' (readBasicLines fuel rest)
      | c :: rest =>
        if isPrintable c || c = '\n' then consTo c (readBasicLines fuel rest) else none
      | [] => none

/-- The contents of a literal string over several lines. -/
def readLiteralLines : (fuel : Nat) → Reader (List Char)
  | 0, _ => none
  | fuel + 1, cs =>
    match closing? '\'' cs with
    | some found => some found
    | none =>
      match cs with
      | '\r' :: '\n' :: rest => consTo '\n' (readLiteralLines fuel rest)
      | c :: rest =>
        if isPrintable c || c = '\n' then consTo c (readLiteralLines fuel rest) else none
      | [] => none

/-- A line end right after the opening quotes is no part of the string. -/
def skipFirstLineEnd (cs : List Char) : List Char :=
  (lineEnd? cs).getD cs

/-- A string, by its opening quotes. -/
def readString (cs : List Char) : Option (String × List Char) :=
  let contents := match cs with
    | '"' :: '"' :: '"' :: rest => readBasicLines (rest.length + 1) (skipFirstLineEnd rest)
    | '"' :: rest => readBasic rest
    | '\'' :: '\'' :: '\'' :: rest => readLiteralLines (rest.length + 1) (skipFirstLineEnd rest)
    | '\'' :: rest => readLiteral rest
    | _ => none
  contents.map fun (s, rest) => (String.ofList s, rest)

/-! ### Numbers -/

/-- Digits of a class with single underscores between them, without the underscores. -/
def spacedDigits? (isDigit : Char → Bool) : (afterDigit : Bool) → List Char → Option (List Char)
  | afterDigit, [] => if afterDigit then some [] else none
  | afterDigit, c :: cs =>
    if isDigit c then (spacedDigits? isDigit true cs).map (c :: ·)
    else if c = '_' && afterDigit then spacedDigits? isDigit false cs
    else none

/-- Digits without a leading zero, unless zero is all there is. -/
def wholeDigits? (cs : List Char) : Option (List Char) := do
  let digits ← spacedDigits? Char.isDigit false cs
  if 1 < digits.length && digits.head? = some '0' then none else some digits

/-- The integers that a document can hold. -/
def wordInteger? (i : Int) : Option Toml :=
  if -2 ^ (63 : Nat) ≤ i ∧ i < 2 ^ (63 : Nat) then some (.integer i) else none

/-- An integer in a base that its mark names. -/
def marked? (base : Nat) (digits : List Char) : Option Toml := do
  let isDigit (c : Char) : Bool := (hexValue? c).any fun v => decide (v < base)
  let digits ← spacedDigits? isDigit false digits
  let n := digits.foldl (fun n c => base * n + (hexValue? c).getD 0) 0
  wordInteger? n

/-- The text of a float without its underscores: whole digits, and a fraction or an exponent. -/
def floatText? (cs : List Char) : Option (List Char) := do
  let isPart (c : Char) : Bool := c.isDigit || c = '_'
  let whole ← wholeDigits? (cs.takeWhile isPart)
  let rest := cs.dropWhile isPart
  let (fraction, rest) ← match rest with
    | '.' :: rest => do
      let digits ← spacedDigits? Char.isDigit false (rest.takeWhile isPart)
      some ('.' :: digits, rest.dropWhile isPart)
    | rest => some ([], rest)
  let exponent ← match rest with
    | [] => if fraction.isEmpty then none else some []
    | c :: rest =>
      if c = 'e' || c = 'E' then
        let (negative, digits) := Decimal.splitSign rest
        (spacedDigits? Char.isDigit false digits).map fun ds =>
          'e' :: (if negative then '-' :: ds else ds)
      else none
  return whole ++ fraction ++ exponent

/-- A float.  A positive one beyond the range is refused. -/
def float? (negative : Bool) (cs : List Char) : Option Toml := do
  let x ← Decimal.readFloat? (String.ofList (← floatText? cs))
  if x.isInf && !negative then none else some (.number (if negative then -x else x))

/-- A word that stands for a boolean or a number. -/
def scalar? (word : List Char) : Option Toml :=
  match String.ofList word with
  | "true" => some (.boolean true)
  | "false" => some (.boolean false)
  | _ =>
    match word with
    | '0' :: 'x' :: digits => marked? 16 digits
    | '0' :: 'o' :: digits => marked? 8 digits
    | '0' :: 'b' :: digits => marked? 2 digits
    | _ =>
      let (negative, digits) := Decimal.splitSign word
      match String.ofList digits with
      | "inf" => some (.number (Float.ofBits
          (if negative then 0xfff0000000000000 else 0x7ff0000000000000)))
      | "nan" => some (.number (Float.ofBits 0x7ff8000000000000))
      | _ =>
        match wholeDigits? digits with
        | some ds =>
          let n : Int := Decimal.digitsFrom 0 ds
          wordInteger? (if negative then -n else n)
        | none => float? negative digits

/-- The characters of words for booleans and numbers. -/
def isWordChar (c : Char) : Bool :=
  c.isAlphanum || c = '_' || c = '+' || c = '-' || c = '.'

/-! ### Keys and values -/

/-- The characters of a bare key. -/
def isKeyChar (c : Char) : Bool :=
  c.isAlphanum || c = '_' || c = '-'

/-- One part of a key, bare or quoted on one line. -/
def readKeyPart (cs : List Char) : Option (String × List Char) :=
  match cs with
  | '"' :: rest => (readBasic rest).map fun (s, rest) => (String.ofList s, rest)
  | '\'' :: rest => (readLiteral rest).map fun (s, rest) => (String.ofList s, rest)
  | _ =>
    let bare := cs.takeWhile isKeyChar
    if bare.isEmpty then none else some (String.ofList bare, cs.dropWhile isKeyChar)

/-- A key: parts joined by points, with blanks around each. -/
def readKey : (fuel : Nat) → Reader (List String)
  | 0, _ => none
  | fuel + 1, cs => do
    let (part, rest) ← readKeyPart (skipBlanks cs)
    match skipBlanks rest with
    | '.' :: rest =>
      let (parts, rest) ← readKey fuel rest
      some (part :: parts, rest)
    | rest => some ([part], rest)

mutual

/-- **One value.**  The fuel bounds the nesting and the number of items. -/
def readValue : (fuel : Nat) → Reader Toml
  | 0, _ => none
  | fuel + 1, cs =>
    match cs with
    | '[' :: rest => (readItems fuel rest).map fun (items, rest) => (.array items, rest)
    | '{' :: rest =>
      match skipBlanks rest with
      | '}' :: rest => some (.table .braces [], rest)
      | rest => (readEntries fuel [] rest).map fun (t, rest) => (.table .braces t, rest)
    | '"' :: _ => (readString cs).map fun (s, rest) => (.text s, rest)
    | '\'' :: _ => (readString cs).map fun (s, rest) => (.text s, rest)
    | _ => (scalar? (cs.takeWhile isWordChar)).map fun v => (v, cs.dropWhile isWordChar)

/-- The items of an array up to its closing bracket, with a comma allowed after the last. -/
def readItems : (fuel : Nat) → Reader (List Toml)
  | 0, _ => none
  | fuel + 1, cs =>
    match skipLines cs.length cs with
    | ']' :: rest => some ([], rest)
    | cs =>
      match readValue fuel cs with
      | none => none
      | some (item, rest) =>
        match skipLines rest.length rest with
        | ',' :: rest => (readItems fuel rest).map fun (items, rest) => (item :: items, rest)
        | ']' :: rest => some ([item], rest)
        | _ => none

/-- The entries of a table in braces up to its closing brace, at least one more. -/
def readEntries : (fuel : Nat) → Table → Reader Table
  | 0, _, _ => none
  | fuel + 1, t, cs =>
    match readKey cs.length cs with
    | some (path, '=' :: rest) =>
      match readValue fuel (skipBlanks rest) with
      | none => none
      | some (value, rest) =>
        match t.put value path with
        | none => none
        | some t =>
          match skipBlanks rest with
          | ',' :: rest => readEntries fuel t rest
          | '}' :: rest => some (t, rest)
          | _ => none
    | _ => none

end

/-! ### Documents -/

/-- A key and its value, put into the table under the current header. -/
def readAssignment (header : List String) (root : Table) (cs : List Char) :
    Option (Table × List Char) := do
  let (path, rest) ← readKey cs.length cs
  match rest with
  | '=' :: rest =>
    let rest := skipBlanks rest
    let (value, rest) ← readValue (2 * rest.length + 1) rest
    let root ← Table.modifyAt (Table.put value path) header root
    some (root, rest)
  | _ => none

/-- The header of a table or of an item of an array of tables. -/
def readHeader (root : Table) (cs : List Char) : Option (List String × Table × List Char) :=
  match cs with
  | '[' :: cs => do
    match ← readKey cs.length cs with
    | (path, ']' :: ']' :: rest) => some (path, ← root.openItem path, rest)
    | _ => none
  | cs => do
    match ← readKey cs.length cs with
    | (path, ']' :: rest) => some (path, ← root.openTable path, rest)
    | _ => none

/-- The lines of a document. -/
def readLines : (fuel : Nat) → (header : List String) → Table → List Char → Option Table
  | 0, _, _, _ => none
  | fuel + 1, header, root, cs =>
    match skipBlanks cs with
    | [] => some root
    | '[' :: rest =>
      match readHeader root rest with
      | none => none
      | some (header, root, rest) => (finishLine rest).bind (readLines fuel header root)
    | c :: rest =>
      if c = '#' || c = '\n' || c = '\r' then
        (finishLine (c :: rest)).bind (readLines fuel header root)
      else
        match readAssignment header root (c :: rest) with
        | none => none
        | some (root, rest) => (finishLine rest).bind (readLines fuel header root)

/-- **A whole document**, after a byte order mark if it begins with one. -/
def readDocument (text : String) : Option Table :=
  let cs := match text.toList with
    | '\ufeff' :: cs => cs
    | cs => cs
  readLines (cs.length + 1) [] [] cs

end EncryptedReals.Toml

import JobConfig.Reading.FromValue
import JobConfig.Toml.Table

/-!
# Reading TOML texts

`parse?` reads the value that a TOML text describes: the mapping of its keys. `readText` reads a
definition from it. What is well-formed is decided for the whole text first.
-/

namespace JobConfig.Toml

/-! ## Keys -/

def isKeyChar (c : Char) : Bool := c.isAlphanum || c = '_' || c = '-'

/-- One part of a dotted key. -/
def keyPart : List Char → Option (String × List Char)
  | '"' :: rest => (basicText .outside rest).map fun t => (String.ofList t.1, t.2)
  | '\'' :: rest => (literalText rest).map fun t => (String.ofList t.1, t.2)
  | cs =>
    let name := cs.takeWhile isKeyChar
    if name.isEmpty then none else some (String.ofList name, cs.drop name.length)

/-- The parts of a key that follow a dot. -/
def keyParts : (fuel : Nat) → List Char → Option (List String × List Char)
  | 0, _ => none
  | fuel + 1, cs => do
    let (part, rest) ← keyPart (skipBlanks cs)
    match skipBlanks rest with
    | '.' :: rest =>
      let (parts, rest) ← keyParts fuel rest
      return (part :: parts, rest)
    | rest => return ([part], rest)

/-- How deep values and keys can be nested. -/
def depthLimit : Nat := 80

/-- A dotted key: the path to it, and its last part. -/
structure Key where
  path : List String
  name : String
deriving DecidableEq, Repr

/-- A dotted key with the blanks around it. -/
def key? (cs : List Char) : Option (Key × List Char) := do
  let (parts, rest) ← keyParts (cs.length + 1) cs
  if depthLimit ≤ parts.length then none
  let name ← parts.getLast?
  return (⟨parts.dropLast, name⟩, rest)

/-! ## Values -/

/-- The reader of a value. -/
abbrev ValueReader := List Char → Option (Value × List Char)

/-- A key and its value. -/
def assignment (value : ValueReader) (cs : List Char) : Option ((Key × Value) × List Char) := do
  let (key, rest) ← key? cs
  let (v, rest) ← value (skipBlanks (← expect? '=' rest))
  return ((key, v), rest)

/-- The items of an array that are left, up to its closing bracket. -/
def items (value : ValueReader) : (fuel : Nat) → List Char → Option (List Value × List Char)
  | 0, _ => none
  | fuel + 1, cs =>
    match skipSpace false cs with
    | ']' :: rest => some ([], rest)
    | cs => do
      let (v, rest) ← value cs
      match skipSpace false rest with
      | ',' :: rest =>
        let (vs, rest) ← items value fuel rest
        return (v :: vs, rest)
      | ']' :: rest => return ([v], rest)
      | _ => none

/-- The assignments in braces that are left, up to the closing one. -/
def assignments (value : ValueReader) :
    (fuel : Nat) → List Char → Option (List (Key × Value) × List Char)
  | 0, _ => none
  | fuel + 1, cs => do
    let (a, rest) ← assignment value cs
    match skipBlanks rest with
    | ',' :: rest =>
      let (more, rest) ← assignments value fuel rest
      return (a :: more, rest)
    | '\x7d' :: rest => return ([a], rest)
    | _ => none

/-- The table that assignments fill. -/
def tableOf : Table → List (Key × Value) → Option Table
  | t, [] => some t
  | t, (k, v) :: rest => do
    let t ← t.assign k.path k.name v
    tableOf t rest

/-- A table in braces, behind the opening one. -/
def inlineTable (value : ValueReader) (cs : List Char) : Option (Value × List Char) :=
  match skipBlanks cs with
  | '\x7d' :: rest => some (Table.toValue [], rest)
  | rest => do
    let (entries, rest) ← assignments value (rest.length + 1) rest
    let t ← tableOf [] entries
    return (t.toValue, rest)

/-- A value that is not made of others. -/
def scalar (cs : List Char) : Option (Value × List Char) :=
  match cs with
  | [] => none
  | 't' :: 'r' :: 'u' :: 'e' :: rest => some (.bool true, rest)
  | 'f' :: 'a' :: 'l' :: 's' :: 'e' :: rest => some (.bool false, rest)
  | c :: _ =>
    if c = '"' || c = '\'' then (text? cs).map fun t => (.str (String.ofList t.1), t.2)
    else if isMoment cs then moment? cs
    else number? cs

/-- A value that is a collection, if `value` reads what is inside, or a scalar. -/
def valueWith (value : ValueReader) : ValueReader
  | '[' :: rest => do
    let (vs, rest) ← items value (rest.length + 1) rest
    return (.seq vs, rest)
  | '\x7b' :: rest => inlineTable value rest
  | cs => scalar cs

/-- A value in which collections are nested to a depth. -/
def valueAt : (depth : Nat) → ValueReader
  | 0 => fun cs =>
    match cs with
    | '[' :: _ => none
    | '\x7b' :: _ => none
    | cs => scalar cs
  | depth + 1 => valueWith (valueAt depth)

/-- A value. -/
def value? : ValueReader := valueAt (depthLimit - 1)

/-! ## Lines -/

/-- The tables filled so far, and the path of the one that is being filled. -/
structure Tables where
  root : Table
  current : List String

/-- A header, behind its opening brackets. -/
def header (ts : Tables) (row : Bool) (cs : List Char) : Option (Tables × List Char) := do
  let (key, rest) ← key? cs
  let rest ← expect? ']' rest
  let rest ← if row then expect? ']' rest else some rest
  let root ←
    if row then ts.root.openRow key.path key.name else ts.root.openTable key.path key.name
  return (⟨root, key.path ++ [key.name]⟩, rest)

/-- A key and its value in the current table. -/
def entry (ts : Tables) (cs : List Char) : Option (Tables × List Char) := do
  let ((key, v), rest) ← assignment value? cs
  let change (_ : Origin) (t : Table) : Option Table := t.assign key.path key.name v
  let root ← ts.root.descend false change ts.current .header
  return ({ ts with root }, rest)

/-- What a line holds in front of its end. -/
def line (ts : Tables) (cs : List Char) : Option (Tables × List Char) :=
  match cs with
  | [] => some (ts, [])
  | '[' :: '[' :: rest => header ts true rest
  | '[' :: rest => header ts false rest
  | c :: rest =>
    if c = '#' || c = '\n' then some (ts, c :: rest) else entry ts (c :: rest)

/-- The lines that are left. -/
def lines : (fuel : Nat) → Tables → List Char → Option Tables
  | _, ts, [] => some ts
  | 0, _, _ => none
  | fuel + 1, ts, cs => do
    let (ts, rest) ← line ts (skipBlanks cs)
    lines fuel ts (← lineEnd? rest)

/-- The value that a text describes. -/
def parse? (text : String) : Option Value :=
  let cs := unixLines <| match text.toList with
    | '\ufeff' :: rest => rest
    | cs => cs
  (lines (cs.length + 1) ⟨[], []⟩ cs).map fun ts => ts.root.toValue

/-- Reads what a text describes. -/
def readText {α : Type} (read : Value → Read α) (text : String) : Except TextError α :=
  match parse? text with
  | none => .error .malformed
  | some v => (read v).mapError .unfit

end JobConfig.Toml

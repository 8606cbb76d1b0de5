import JobConfig.Yaml.Scalar

/-!
# Tokens

The tokens of a YAML text, and how those of one name are read off their characters: directives,
anchors, aliases and tags. `Token.scan?` in the next module reads the tokens of a whole text.
-/

namespace JobConfig.Yaml

/-- How a scalar is written. -/
inductive ScalarStyle where
  | plain
  | quoted
  | literal
  | folded
deriving DecidableEq, Repr

/-- A token. The structure that indentation gives has tokens of its own. -/
inductive Token where
  | version (major minor : Nat)
  | handle (name stem : String)
  | documentStart
  | documentEnd
  | blockSeq
  | blockMap
  | blockEnd
  | flowSeq
  | flowSeqEnd
  | flowMap
  | flowMapEnd
  | item
  | comma
  | key
  | value
  | alias (name : String)
  | anchor (name : String)
  | tag (handle name : String)
  | scalar (style : ScalarStyle) (text : String)
deriving DecidableEq, Repr

/-! ## Names -/

/-- The longest beginning whose characters satisfy `p`, and the rest. -/
def takeChars (p : Char → Bool) (spots : List Spot) : List Char × List Spot :=
  (chars (spots.takeWhile fun s => p s.char), spots.dropWhile fun s => p s.char)

def skipWhite (spots : List Spot) : List Spot :=
  spots.dropWhile fun s => isWhite s.char

/-- The name of an anchor or an alias. -/
def anchorName (spots : List Spot) : Option (String × List Spot) :=
  let (name, rest) := takeChars isNameChar spots
  let ends := separatorAhead rest || ['?', ':', ',', ']', '\x7d', '%', '@', '\x60'].any fun c =>
    charAhead c rest
  if name.isEmpty || !ends then none else some (String.ofList name, rest)

/-! ## Tags -/

/-- A character of a tag. -/
def isUriChar (verbatim : Bool) (c : Char) : Bool :=
  isNameChar c || c ∈ [';', '/', '?', ':', '@', '&', '=', '+', '$', '.', '%', '!', '~', '*', '\'',
    '(', ')'] || (verbatim && (c = ',' || c = '[' || c = ']'))

/-- The bytes of some characters in which a byte may be written as two digits behind a percent
sign. -/
def uriBytes : (pending : List Nat) → List Char → Option (List UInt8)
  | [], [] => some []
  | _, [] => none
  | [], c :: rest =>
    if c = '%' then uriBytes [0] rest
    else (uriBytes [] rest).map fun bs => c.toString.toUTF8.toList ++ bs
  | n :: more, c :: rest =>
    match digitValue? 16 c with
    | none => none
    | some d =>
      if more.isEmpty then uriBytes [d, n] rest
      else (uriBytes [] rest).map fun bs => UInt8.ofNat (n * 16 + d) :: bs

/-- The text of a tag, its escapes resolved. -/
def uriText (cs : List Char) : Option String := do
  let bytes ← uriBytes [] cs
  String.fromUTF8? ⟨bytes.toArray⟩

/-- What a tag begins with: a handle, which is an exclamation mark or a name between two, or else
the mark and the name behind it. -/
def tagHandle (spots : List Spot) : Option (List Char × List Spot) :=
  match spots with
  | [] => none
  | s :: rest =>
    if s.char ≠ '!' then none
    else
      let (name, rest) := takeChars isNameChar rest
      if charAhead '!' rest then some ('!' :: name ++ ['!'], rest.drop 1)
      else some ('!' :: name, rest)

/-- A tag: in full between angle brackets, or a handle and what follows it. Without a second mark
the handle is the first one, and the mark alone is a tag of its own. -/
def tagParts (spots : List Spot) : Option (Token × List Spot) := do
  if charAhead '<' (spots.drop 1) then
    let (name, rest) := takeChars (isUriChar true) (spots.drop 2)
    if name.isEmpty || !charAhead '>' rest then none
    return (.tag "" (← uriText name), rest.drop 1)
  let (handle, rest) ← tagHandle spots
  let (name, rest) := takeChars (isUriChar false) rest
  if handle.length > 1 && handle.getLast? = some '!' then
    if name.isEmpty then none
    return (.tag (String.ofList handle) (← uriText name), rest)
  let name := handle.drop 1 ++ name
  if name.isEmpty then return (.tag "" "!", rest)
  return (.tag "!" (← uriText name), rest)

/-- A tag, which has to stand alone. -/
def scanTag (inFlow : Bool) (spots : List Spot) : Option (Token × List Spot) := do
  let (tag, rest) ← tagParts spots
  if separatorAhead rest || (inFlow && charAhead ',' rest) then return (tag, rest) else none

/-! ## Directives -/

/-- A number of at most nine digits. -/
def versionNumber (spots : List Spot) : Option (Nat × List Spot) :=
  let (digits, rest) := takeChars Char.isDigit spots
  if digits.isEmpty || digits.length > 9 then none
  else some (digits.foldl (fun n c => n * 10 + (c.toNat - 48)) 0, rest)

def versionParts (spots : List Spot) : Option (Token × List Spot) := do
  let (major, rest) ← versionNumber (skipWhite spots)
  if !charAhead '.' rest then none
  let (minor, rest) ← versionNumber (rest.drop 1)
  return (.version major minor, rest)

def handleParts (spots : List Spot) : Option (Token × List Spot) := do
  let (handle, rest) ← tagHandle (skipWhite spots)
  if handle.length > 1 && handle.getLast? ≠ some '!' then none
  if !rest.head?.any fun s => isWhite s.char then none
  let (stem, rest) := takeChars (isUriChar true) (skipWhite rest)
  if stem.isEmpty || !separatorAhead rest then none
  return (.handle (String.ofList handle) (← uriText stem), rest)

/-- A directive behind its percent sign. -/
def scanDirective (spots : List Spot) : Option (Token × List Spot) := do
  let (name, rest) := takeChars isNameChar spots
  if !separatorAhead rest then none
  let (token, rest) ← match String.ofList name with
    | "YAML" => versionParts rest
    | "TAG" => handleParts rest
    | _ => none
  return (token, ← lineEnd rest)

end JobConfig.Yaml

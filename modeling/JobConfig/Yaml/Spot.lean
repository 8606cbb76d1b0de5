/-!
# Characters of a YAML text

A text is looked at as a list of `Spot`s: characters, each with the place where it stands. A line
break is one spot, however it is written (`Spot.ofText?`), and what `Spot.ofText?` refuses is a
text with characters that YAML has no place for.
-/

namespace JobConfig.Yaml

/-! ## Characters -/

/-- A character that ends a line. -/
def isBreak (c : Char) : Bool :=
  c = '\n' || c = '\r' || c = '\x85' || c = '\u2028' || c = '\u2029'

def isSpace (c : Char) : Bool := c = ' '

/-- A character that separates words in a line. -/
def isWhite (c : Char) : Bool := c = ' ' || c = '\t'

/-- A character that separates words or lines. -/
def isSeparator (c : Char) : Bool := isWhite c || isBreak c

/-- A character of a name. -/
def isNameChar (c : Char) : Bool := c.isAlphanum || c = '_' || c = '-'

/-- A character that a collection in brackets gives a meaning. -/
def isFlowIndicator (c : Char) : Bool :=
  c = ',' || c = '[' || c = ']' || c = '\x7b' || c = '\x7d'

/-- A character that a text may hold. -/
def isAllowed (c : Char) : Bool :=
  let n := c.toNat
  n = 0x09 || n = 0x0A || n = 0x0D || (0x20 ≤ n && n ≤ 0x7E) || n = 0x85 ||
    (0xA0 ≤ n && n ≤ 0xFFFD) || 0x10000 ≤ n

/-! ## Places -/

/-- A character and where it stands. -/
structure Spot where
  char : Char
  /-- The line, from zero. -/
  line : Nat
  /-- The number of characters in front of it in its line. -/
  column : Nat
  /-- The number of characters in front of it in the text. -/
  index : Nat
deriving DecidableEq, Repr

namespace Spot

/-- The characters of a text that goes on at the given line, column and index. -/
def listFrom (line column index : Nat) : List Char → List Spot
  | [] => []
  | '\r' :: '\n' :: rest => ⟨'\n', line, column, index⟩ :: listFrom (line + 1) 0 (index + 2) rest
  | c :: rest =>
    if isBreak c then
      let shown := if c = '\r' ∨ c = '\x85' then '\n' else c
      ⟨shown, line, column, index⟩ :: listFrom (line + 1) 0 (index + 1) rest
    else ⟨c, line, column, index⟩ :: listFrom line (column + 1) (index + 1) rest

/-- The characters of a text, if it has only those that are allowed. -/
def ofText? (text : List Char) : Option (List Spot) :=
  if text.all isAllowed then some (listFrom 0 0 0 text) else none

end Spot

/-! ## Looking ahead -/

/-- The characters of some spots. -/
def chars (spots : List Spot) : List Char :=
  spots.map Spot.char

/-- Whether a character is next. -/
def charAhead (c : Char) : List Spot → Bool
  | [] => false
  | s :: _ => s.char = c

/-- Whether a separator is next; the end of the text counts as one. -/
def separatorAhead : List Spot → Bool
  | [] => true
  | s :: _ => isSeparator s.char

/-- Whether the next spot stands in a column before the given one. -/
def columnBelow (column : Nat) : List Spot → Bool
  | [] => false
  | s :: _ => s.column < column

/-- Whether the three characters of a mark between documents, and a separator, begin a line. -/
def documentMarkAhead (c : Char) : List Spot → Bool
  | a :: b :: d :: rest =>
    a.column = 0 && a.char = c && b.char = c && d.char = c && separatorAhead rest
  | _ => false

/-- Whether the document ends here. -/
def documentBoundary (spots : List Spot) : Bool :=
  documentMarkAhead '-' spots || documentMarkAhead '.' spots

end JobConfig.Yaml

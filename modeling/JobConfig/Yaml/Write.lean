import JobConfig.Value
import JobConfig.Yaml.Plain
import JobConfig.Yaml.Spot

/-!
# Writing YAML

How a value is written as a YAML document: in block style, with sequences not indented below the
key they belong to, lines of any length, and empty collections as `[]` and `{}`. A text is written

- as a literal block when it has a line feed in it,
- plain when it reads back as itself that way,
- between single quotes when it would read as something else or starts or ends like something
  else, and
- between double quotes when a block or single quotes cannot hold it.

Keys are written in one line; one that is long, is a collection, or has line breaks gets a line of
its own behind a question mark.
-/

namespace JobConfig.Yaml

/-! ## Characters -/

/-- A character that a document shows as it is. -/
def isShown (c : Char) : Bool :=
  let n := c.toNat
  n = 0x0A || (0x20 ≤ n && n ≤ 0x7E) || (0xA0 ≤ n && n ≤ 0xFFFD && n ≠ 0xFEFF) || 0x10000 ≤ n

/-- Whether the text that follows starts with a separator; its end counts as one. -/
def separatorNext : List Char → Bool
  | [] => true
  | c :: _ => isSeparator c

/-! ## What a text allows -/

/-- Whether some character that satisfies `p` stands right before one that satisfies `q`. -/
def adjacent (p q : Char → Bool) : List Char → Bool
  | a :: b :: rest => (p a && q b) || adjacent p q (b :: rest)
  | _ => false

/-- Whether a colon before a separator, or a hash sign after one, is inside the text. `before` is
whether the text goes on behind a separator. -/
def hasInnerIndicator : (before : Bool) → List Char → Bool
  | _, [] => false
  | before, c :: rest =>
    (c = ':' && separatorNext rest) || (c = '#' && before) ||
      hasInnerIndicator (isSeparator c) rest

/-- Whether the beginning of a text looks like the beginning of something else. -/
def startsLikeIndicator (cs : List Char) : Bool :=
  ['-', '-', '-'].isPrefixOf cs || ['.', '.', '.'].isPrefixOf cs ||
  match cs with
  | [] => false
  | c :: rest =>
    c ∈ ['#', ',', '[', ']', '\x7b', '\x7d', '&', '*', '!', '|', '>', '\'', '"', '%', '@',
        '\x60'] ||
      (c ∈ ['?', ':', '-'] && separatorNext rest)

/-- A text that needs double quotes whatever the style: it has characters that are not shown, or
spaces at the end of a line. -/
def needsEscapes (cs : List Char) : Bool :=
  cs.any (fun c => !isShown c) || adjacent isSpace isBreak cs

/-- Whether a text may stand without quotes. -/
def allowsPlain (cs : List Char) : Bool :=
  let edge (c : Option Char) : Bool := c.any fun c => isSpace c || isBreak c
  !(edge cs.head? || edge cs.getLast? || cs.any isBreak || needsEscapes cs ||
    startsLikeIndicator cs || hasInnerIndicator false cs)

/-- Whether a text may stand between single quotes. -/
def allowsSingle (cs : List Char) : Bool :=
  !(needsEscapes cs || adjacent isBreak isSpace cs)

/-- Whether a text may stand in a literal block. -/
def allowsBlock (cs : List Char) : Bool :=
  !(cs.isEmpty || needsEscapes cs || cs.getLast?.any isSpace)

/-! ## Styles -/

/-- The ways to write a scalar. -/
inductive Style where
  | plain
  | single
  | double
  | literal
deriving DecidableEq, Repr

/-- The style a scalar is written in: the wanted one, as far as the text allows it. -/
def chooseStyle (wanted : Style) (cs : List Char) : Style :=
  match wanted with
  | .plain => if allowsPlain cs then .plain else if allowsSingle cs then .single else .double
  | .single => if allowsSingle cs then .single else .double
  | .literal => if allowsBlock cs then .literal else .double
  | .double => .double

/-- The style that a text is to have, before what it allows is looked at. -/
def textStyle (text : String) : Style :=
  if text.toList.contains '\n' then .literal
  else if readsAsText text then .plain
  else .single

/-- The spaces at the beginning of a line. -/
def indentation (n : Nat) : List Char :=
  List.replicate n ' '

/-! ## Scalars -/

/-- The text with every line after a break indented, and quotes doubled. `fresh` is whether a line
has just begun. -/
def singleBody (indent : Nat) : (fresh : Bool) → List Char → List Char
  | fresh, [] => if fresh then indentation indent else []
  | fresh, c :: rest =>
    if isBreak c then c :: singleBody indent true rest
    else
      (if fresh && !isSpace c then indentation indent else []) ++
      (if c = '\'' then ['\'', '\''] else [c]) ++ singleBody indent (fresh && isSpace c) rest

/-- A number in upper-case hexadecimal digits, padded with zeros. -/
def hexadecimal (width n : Nat) : List Char :=
  let ds := (Nat.toDigits 16 n).map Char.toUpper
  List.replicate (width - ds.length) '0' ++ ds

/-- One character between double quotes. -/
def doubleChar (c : Char) : List Char :=
  if c = '"' then ['\\', '"']
  else if c = '\\' then ['\\', '\\']
  else if isShown c && !isBreak c then [c]
  else match c.toNat with
    | 0x00 => ['\\', '0']
    | 0x07 => ['\\', 'a']
    | 0x08 => ['\\', 'b']
    | 0x09 => ['\\', 't']
    | 0x0A => ['\\', 'n']
    | 0x0B => ['\\', 'v']
    | 0x0C => ['\\', 'f']
    | 0x0D => ['\\', 'r']
    | 0x1B => ['\\', 'e']
    | 0x85 => ['\\', 'N']
    | 0x2028 => ['\\', 'L']
    | 0x2029 => ['\\', 'P']
    | n =>
      if n ≤ 0xFF then ['\\', 'x'] ++ hexadecimal 2 n
      else if n ≤ 0xFFFF then ['\\', 'u'] ++ hexadecimal 4 n
      else ['\\', 'U'] ++ hexadecimal 8 n

/-- The lines of a literal block; `fresh` is whether a line has just begun. -/
def literalBody (indent : Nat) : (fresh : Bool) → List Char → List Char
  | _, [] => []
  | fresh, c :: rest =>
    if isBreak c then c :: literalBody indent true rest
    else (if fresh then indentation indent else []) ++ c :: literalBody indent false rest

/-- What stands behind the bar of a literal block: the indentation, if the first line cannot show
it, and what becomes of the breaks at the end. -/
def literalHints (cs : List Char) : List Char :=
  let indent := if cs.head?.any fun c => isSpace c || isBreak c then ['2'] else []
  let chomp := match cs.reverse with
    | [] => ['-']
    | last :: before =>
      if !isBreak last then ['-']
      else match before with
        | [] => ['+']
        | c :: _ => if isBreak c then ['+'] else []
  indent ++ chomp

/-- A scalar in a style; its further lines have the given indentation. -/
def scalarIn (style : Style) (indent : Nat) (cs : List Char) : List Char :=
  match style with
  | .plain => cs
  | .single => '\'' :: singleBody indent false cs ++ ['\'']
  | .double => '"' :: cs.flatMap doubleChar ++ ['"']
  | .literal => '|' :: literalHints cs ++ '\n' :: literalBody indent true cs

/-- The text of a scalar and the style wanted for it; none for a value that has parts. -/
def scalar? : Value → Option (List Char × Style)
  | .null => some ("null".toList, .plain)
  | .bool b => some ((if b then "true" else "false").toList, .plain)
  | .int n => some ((intText n).toList, .plain)
  | .float x => some (x.text.toList, .plain)
  | .str t => some (t.toList, textStyle t)
  | _ => none

/-! ## Tags -/

/-- A character that a tag shows as it is. -/
def isTagChar (c : Char) : Bool :=
  c.isAlphanum || c ∈ "-_;/?:@&=+$,.~*'()[]".toList

/-- A character of a tag: itself, or its bytes behind percent signs. -/
def tagChar (c : Char) : List Char :=
  if isTagChar c then [c]
  else c.toString.toUTF8.toList.flatMap fun b => '%' :: hexadecimal 2 b.toNat

/-- A tag. -/
def tagText (tag : String) : List Char :=
  match tag.toList with
  | ['!'] => "!<%21>".toList
  | '!' :: name => '!' :: name.flatMap tagChar
  | cs => '!' :: '<' :: cs.flatMap tagChar ++ ['>']

/-! ## Values -/

/-- Why a value has no YAML text. -/
inductive WriteError where
  /-- A tag stands right inside another. -/
  | nestedTags
deriving DecidableEq, Repr

def WriteError.message : WriteError → String
  | .nestedTags =>
    "Failed to serialize document: serializing nested enums in YAML is not supported yet"

/-- Where a value is written. -/
inductive Slot where
  /-- The document. -/
  | root
  /-- Behind the dash of an item. -/
  | item
  /-- Behind the question mark of a long key, or the colon below it. -/
  | long
  /-- Behind a key. -/
  | entry
deriving DecidableEq, Repr

/-- A value that is written in one piece: a scalar, or an empty collection. -/
def piece? (indent : Nat) : Value → Option (List Char)
  | .seq [] => some ['[', ']']
  | .map [] => some ['\x7b', '\x7d']
  | v => (scalar? v).map fun s => scalarIn (chooseStyle s.2 s.1) indent s.1

/-- The tag in front of something that is written in one piece. -/
def tagBefore (tag : Option String) (cs : List Char) : List Char :=
  match tag with
  | none => cs
  | some t => tagText t ++ ' ' :: cs

/-- The text with its last line ended. -/
def lineEnded (cs : List Char) : List Char :=
  if cs.getLast?.any isBreak then cs else cs ++ ['\n']

/-- What is written in a slot in front of a value. -/
def Slot.gap : Slot → List Char
  | .root => []
  | _ => [' ']

/-- What stands in front of the lines of a collection. The first of them goes on in the line of an
untagged collection's mark, unless that is a key. -/
def Slot.opening (slot : Slot) : (tag : Option String) → List Char
  | some t => slot.gap ++ tagText t ++ ['\n']
  | none =>
    match slot with
    | .entry => ['\n']
    | _ => slot.gap

/-- Whether the first line of a collection goes on in the line of its mark. -/
def Slot.isCompact (slot : Slot) (tag : Option String) : Bool :=
  tag = none && slot ≠ .entry

/-- The indentation of the entries of a mapping. -/
def Slot.entryIndent (slot : Slot) (indent : Nat) : Nat :=
  if slot = .root then indent else indent + 2

/-- The indentation of the items of a sequence; below a key they are not indented. -/
def Slot.itemIndent (slot : Slot) (tag : Option String) (indent : Nat) : Nat :=
  match slot, tag with
  | .root, _ | .entry, _ | .long, some _ => indent
  | _, _ => indent + 2

/-- The bytes of a key that fits in one line, its tag included. -/
def keySize? : Value → Option Nat
  | .seq [] | .map [] => some 0
  | .tagged t v => (keySize? v).map fun n => t.utf8ByteSize + n
  | v => (scalar? v).bind fun s =>
    if s.1.any isBreak then none else some (String.ofList s.1).utf8ByteSize

/-- The text of a key that is written in front of its colon, of at most 128 bytes. -/
def shortKey? (indent : Nat) (v : Value) : Option (List Char) :=
  match keySize? v with
  | none => none
  | some n =>
    if n > 128 then none
    else match v with
    | .tagged t content => (piece? (indent + 2) content).map (tagBefore (some t))
    | v => piece? (indent + 2) v

mutual

/-- A value in a slot, up to the end of its last line. The slot stands in a line with the given
indentation. -/
def node (slot : Slot) (indent : Nat) (tag : Option String) : Value → Except WriteError (List Char)
  | .tagged t v =>
    match tag with
    | some _ => .error .nestedTags
    | none => node slot indent (some t) v
  | .seq items =>
    if items.isEmpty then .ok (lineEnded (slot.gap ++ tagBefore tag ['[', ']']))
    else do
      let lines ← itemLines (slot.isCompact tag) (slot.itemIndent tag indent) items
      return slot.opening tag ++ lines
  | .map entries =>
    if entries.isEmpty then .ok (lineEnded (slot.gap ++ tagBefore tag ['\x7b', '\x7d']))
    else do
      let lines ← entryLines (slot.isCompact tag) (slot.entryIndent indent) entries
      return slot.opening tag ++ lines
  | v => .ok (lineEnded (slot.gap ++ tagBefore tag ((piece? (indent + 2) v).getD [])))

/-- The items of a sequence. `compact` is whether the first one goes on in a line. -/
def itemLines (compact : Bool) (indent : Nat) : List Value → Except WriteError (List Char)
  | [] => .ok []
  | v :: rest => do
    let line ← node .item indent none v
    let rest ← itemLines false indent rest
    return (if compact then [] else indentation indent) ++ '-' :: line ++ rest

/-- The entries of a mapping. `compact` is whether the first one goes on in a line. -/
def entryLines (compact : Bool) (indent : Nat) :
    List (Value × Value) → Except WriteError (List Char)
  | [] => .ok []
  | (k, v) :: rest => do
    let lead := if compact then [] else indentation indent
    let line ← match shortKey? indent k with
      | some key => do
        let value ← node .entry indent none v
        pure (key ++ ':' :: value)
      | none => do
        let key ← node .long indent none k
        let value ← node .long indent none v
        pure ('?' :: key ++ indentation indent ++ ':' :: value)
    let rest ← entryLines false indent rest
    return lead ++ line ++ rest

end

/-- The YAML text of a value. -/
def write (v : Value) : Except WriteError String :=
  String.ofList <$> node .root 0 none v

end JobConfig.Yaml

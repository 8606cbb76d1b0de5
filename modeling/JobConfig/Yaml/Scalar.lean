import JobConfig.Text.Escape
import JobConfig.Yaml.Spot

/-!
# The text of scalars

How the text of a scalar is read off its characters: plain (`scanPlain`), between quotes
(`scanQuoted`), and as a block (`scanBlock`). Each gives the text and what follows it, or nothing
if the scalar is not well-formed. Between words a line break counts as a space, and each further
break as itself (`Gap.text`).
-/

namespace JobConfig.Yaml

/-! ## Gaps -/

/-- What stands between two words of a scalar: blanks of one line, or line breaks. -/
structure Gap where
  blanks : List Char
  breaks : List Char
deriving DecidableEq, Repr

namespace Gap

def none : Gap := ⟨[], []⟩

/-- A gap in which a line has ended. -/
def endsLine (g : Gap) : Bool := !g.breaks.isEmpty

/-- The text that breaks stand for. -/
def fold : List Char → List Char
  | [] => []
  | '\n' :: [] => [' ']
  | '\n' :: more => more
  | breaks => breaks

/-- The text that a gap stands for. -/
def text (g : Gap) : List Char :=
  if g.endsLine then fold g.breaks else g.blanks

/-- Reads blanks and breaks. At the beginning of a line a tab in a column before `column` is an
error. -/
def scan (column : Nat) : Gap → List Spot → Option (Gap × List Spot)
  | g, [] => some (g, [])
  | g, s :: rest =>
    if isBreak s.char then scan column ⟨[], g.breaks ++ [s.char]⟩ rest
    else if isWhite s.char then
      if !g.endsLine then scan column ⟨g.blanks ++ [s.char], []⟩ rest
      else if s.char = '\t' ∧ s.column < column then Option.none
      else scan column g rest
    else some (g, s :: rest)

end Gap

/-! ## Plain scalars -/

/-- A word of a plain scalar, up to a separator or an indicator. In brackets a colon in front of
an indicator is an error. -/
def plainWord (inFlow : Bool) : List Spot → Option (List Char × List Spot)
  | [] => some ([], [])
  | s :: rest =>
    let flowNext := match rest with
      | [] => false
      | n :: _ => isFlowIndicator n.char || n.char = '?'
    if isSeparator s.char then some ([], s :: rest)
    else if s.char = ':' && separatorAhead rest then some ([], s :: rest)
    else if inFlow && s.char = ':' && flowNext then none
    else if inFlow && isFlowIndicator s.char then some ([], s :: rest)
    else (plainWord inFlow rest).map fun w => (s.char :: w.1, w.2)

/-- A scalar that has been read. -/
structure Scanned where
  text : List Char
  /-- Whether a line has ended behind the text. -/
  endsLine : Bool
  rest : List Spot
deriving DecidableEq, Repr

/-- The rest of a plain scalar, behind the text `before` and a gap. -/
def plainFrom (inFlow : Bool) (indent : Nat) :
    (fuel : Nat) → (before : List Char) → Gap → List Spot → Option Scanned
  | 0, _, _, _ => none
  | fuel + 1, before, gap, spots => do
    if documentBoundary spots || charAhead '#' spots then
      return ⟨before, gap.endsLine, spots⟩
    let (word, rest) ← plainWord inFlow spots
    if word.isEmpty then
      return ⟨before, gap.endsLine, rest⟩
    let text := before ++ gap.text ++ word
    let (next, after) ← Gap.scan indent .none rest
    if after.isEmpty || next = .none || (!inFlow && columnBelow indent after) then
      return ⟨text, next.endsLine, after⟩
    plainFrom inFlow indent fuel text next after

/-- A plain scalar. `indent` is the column that its further lines have to reach; in brackets they
may stand anywhere. -/
def scanPlain (inFlow : Bool) (indent : Nat) (spots : List Spot) : Option Scanned :=
  plainFrom inFlow indent (spots.length + 1) [] .none spots

/-! ## Quoted scalars -/

/-- Why a word between quotes ends. -/
inductive WordEnd where
  /-- The closing quote is next. -/
  | quote
  /-- A separator, or nothing, is next. -/
  | gap
  /-- A line break that does not count has been passed. -/
  | joined
deriving DecidableEq, Repr

/-- A word between single quotes, where a quote is written twice. -/
def singleWord : List Spot → List Char × WordEnd × List Spot
  | [] => ([], .gap, [])
  | s :: rest =>
    if isSeparator s.char then ([], .gap, s :: rest)
    else if s.char = '\'' then
      match rest with
      | [] => ([], .quote, s :: rest)
      | n :: after =>
        if n.char = '\'' then
          let w := singleWord after
          ('\'' :: w.1, w.2)
        else ([], .quote, s :: n :: after)
    else
      let w := singleWord rest
      (s.char :: w.1, w.2)

/-- What a character behind a backslash stands for. -/
def escaped? (c : Char) : Option Escaped :=
  match c with
  | '0' => some (.char '\x00')
  | 'a' => some (.char '\x07')
  | 'b' => some (.char '\x08')
  | 't' | '\t' => some (.char '\t')
  | 'n' => some (.char '\n')
  | 'v' => some (.char '\x0b')
  | 'f' => some (.char '\x0c')
  | 'r' => some (.char '\r')
  | 'e' => some (.char '\x1b')
  | ' ' => some (.char ' ')
  | '"' => some (.char '"')
  | '/' => some (.char '/')
  | '\\' => some (.char '\\')
  | 'N' => some (.char '\x85')
  | '_' => some (.char '\xa0')
  | 'L' => some (.char '\u2028')
  | 'P' => some (.char '\u2029')
  | 'x' => some (.codePoint 2)
  | 'u' => some (.codePoint 4)
  | 'U' => some (.codePoint 8)
  | _ => none

/-- A word between double quotes, where a backslash begins an escape. -/
def doubleWord : Escape → List Spot → Option (List Char × WordEnd × List Spot)
  | .outside, [] => some ([], .gap, [])
  | .outside, s :: rest =>
    if isSeparator s.char then some ([], .gap, s :: rest)
    else if s.char = '"' then some ([], .quote, s :: rest)
    else if s.char = '\\' then doubleWord .begun rest
    else (doubleWord .outside rest).map fun w => (s.char :: w.1, w.2)
  | .begun, s :: rest =>
    if isBreak s.char then some ([], .joined, rest)
    else match escaped? s.char with
    | none => none
    | some (.char c) => (doubleWord .outside rest).map fun w => (c :: w.1, w.2)
    | some (.codePoint n) => doubleWord (.digits n 0) rest
  | .digits left value, s :: rest =>
    match digitValue? 16 s.char with
    | none => none
    | some d =>
      let value := value * 16 + d
      if left ≤ 1 then
        match charOf? value with
        | none => none
        | some c => (doubleWord .outside rest).map fun w => (c :: w.1, w.2)
      else doubleWord (.digits (left - 1) value) rest
  | _, [] => none

/-- The rest of a scalar between quotes, and what follows the closing one. -/
def quotedFrom (word : List Spot → Option (List Char × WordEnd × List Spot)) :
    (fuel : Nat) → List Spot → Option (List Char × List Spot)
  | 0, _ => none
  | fuel + 1, spots => do
    if spots.isEmpty || documentBoundary spots then none
    let (text, why, rest) ← word spots
    match why with
    | .quote => return (text, rest.drop 1)
    | .gap =>
      let (gap, rest) ← Gap.scan 0 .none rest
      let (more, rest) ← quotedFrom word fuel rest
      return (text ++ gap.text ++ more, rest)
    | .joined =>
      let (gap, rest) ← Gap.scan 0 ⟨[], ['\n']⟩ rest
      let (more, rest) ← quotedFrom word fuel rest
      return (text ++ gap.breaks.drop 1 ++ more, rest)

/-- A scalar behind an opening quote. -/
def scanQuoted (double : Bool) (spots : List Spot) : Option (List Char × List Spot) :=
  let word := if double then doubleWord .outside else fun s => some (singleWord s)
  quotedFrom word (spots.length + 1) spots

/-! ## Block scalars -/

/-- What becomes of the line breaks at the end of a block. -/
inductive Chomping where
  /-- The last one is kept. -/
  | clip
  /-- None is kept. -/
  | strip
  /-- All are kept. -/
  | keep
deriving DecidableEq, Repr

/-- The sign for what becomes of line breaks, if there is one. -/
def chomping? : List Spot → Option (Chomping × List Spot)
  | s :: rest =>
    if s.char = '+' then some (.keep, rest)
    else if s.char = '-' then some (.strip, rest)
    else none
  | [] => none

/-- The digit for the indentation, if there is one. Zero is an error. -/
def indentDigit : List Spot → Option (Nat × List Spot)
  | s :: rest =>
    if s.char = '0' then none
    else if s.char.isDigit then some (s.char.toNat - 48, rest)
    else some (0, s :: rest)
  | [] => some (0, [])

/-- The two signs behind the mark of a block, in either order. No digit counts as zero. -/
def blockHeader (spots : List Spot) : Option (Chomping × Nat × List Spot) :=
  match chomping? spots with
  | some (chomp, rest) => (indentDigit rest).map fun d => (chomp, d)
  | none => do
    let (digit, rest) ← indentDigit spots
    if digit = 0 then return (.clip, 0, rest)
    match chomping? rest with
    | some (chomp, rest) => return (chomp, digit, rest)
    | none => return (.clip, digit, rest)

/-- What follows the rest of a line that has at most a comment. -/
def lineEnd (spots : List Spot) : Option (List Spot) :=
  let rest := spots.dropWhile fun s => isWhite s.char
  let rest := if charAhead '#' rest then rest.dropWhile fun s => !isBreak s.char else rest
  match rest with
  | [] => some []
  | s :: after => if isBreak s.char then some after else none

/-- Line breaks, and the indentation before them and before what follows. -/
structure Margin where
  breaks : List Char
  /-- The largest indentation. -/
  width : Nat
  rest : List Spot
deriving DecidableEq, Repr

/-- Reads empty lines and the indentation of the next line, up to `indent`, or as far as it goes
if that is zero. A tab in it is an error. -/
def margin (indent : Nat) : (breaks : List Char) → (width : Nat) → List Spot → Option Margin
  | breaks, width, [] => some ⟨breaks, width, []⟩
  | breaks, width, s :: rest =>
    let inside := indent = 0 || s.column < indent
    if inside && s.char = ' ' then margin indent breaks width rest
    else if inside && s.char = '\t' then none
    else if isBreak s.char then margin indent (breaks ++ [s.char]) (max width s.column) rest
    else some ⟨breaks, max width s.column, s :: rest⟩

/-- The lines of a block read so far. -/
structure Block where
  text : List Char
  /-- The break that ended the last line. -/
  lead : List Char
  /-- Whether the last line began with a blank. -/
  blank : Bool
  /-- The breaks of the empty lines behind it. -/
  trail : List Char
deriving DecidableEq, Repr

namespace Block

/-- What a line that begins with a blank or not is joined to. Unless the block is `literal`, the
break between two lines that begin with none is a space, or nothing if empty lines follow it. -/
def joint (literal blank : Bool) (b : Block) : List Char :=
  if !literal && b.lead = ['\n'] && !b.blank && !blank then
    if b.trail.isEmpty then [' '] else b.trail
  else b.lead ++ b.trail

def chomped (chomp : Chomping) (b : Block) : List Char :=
  match chomp with
  | .strip => b.text
  | .clip => b.text ++ b.lead
  | .keep => b.text ++ b.lead ++ b.trail

end Block

/-- The lines of a block, behind those that have been read. -/
def blockLines (literal : Bool) (indent : Nat) :
    (fuel : Nat) → Block → List Spot → Option (Block × List Spot)
  | 0, _, _ => none
  | _ + 1, b, [] => some (b, [])
  | fuel + 1, b, s :: rest =>
    if s.column ≠ indent then some (b, s :: rest)
    else do
      let blank := isWhite s.char
      let line := (s :: rest).takeWhile fun s => !isBreak s.char
      let after := (s :: rest).dropWhile fun s => !isBreak s.char
      let text := b.text ++ b.joint literal blank ++ chars line
      let m ← margin indent [] 0 (after.drop 1)
      blockLines literal indent fuel ⟨text, chars (after.take 1), blank, m.breaks⟩ m.rest

/-- A scalar behind the mark of a block. `base` is the least column of its lines. -/
def scanBlock (literal : Bool) (base : Nat) (spots : List Spot) :
    Option (List Char × List Spot) := do
  let (chomp, digit, rest) ← blockHeader spots
  let rest ← lineEnd rest
  let given := if digit = 0 then 0 else base - 1 + digit
  let m ← margin given [] 0 rest
  let indent := if given = 0 then max (max m.width base) 1 else given
  let (b, rest) ← blockLines literal indent (rest.length + 1) ⟨[], [], false, m.breaks⟩ m.rest
  return (b.chomped chomp, rest)

end JobConfig.Yaml

import JobConfig.Yaml.Token

/-!
# Reading tokens

`Token.scan?` reads the tokens of a text. What indentation means is told by tokens that begin and
end block collections. A key is known by the colon behind it: where one may begin the scanner
remembers the place (`KeyMark`), and the colon puts the tokens that begin the entry in front of
what has been read since. Such a key has to be in one line and not too long.
-/

namespace JobConfig.Yaml

/-- The longest key without a mark in front of it. -/
def keyLimit : Nat := 1024

/-- A place where a key may have begun. -/
structure KeyMark where
  /-- The number of tokens in front of it. -/
  position : Nat
  /-- Whether nothing else can stand here. -/
  required : Bool
  spot : Spot
deriving DecidableEq, Repr

/-- How far the tokens of a text have been read. -/
structure Scanner where
  spots : List Spot
  tokens : List Token
  /-- The columns of the open block collections, the innermost first. -/
  indents : List Nat
  /-- Whether a key may begin here. -/
  keyAllowed : Bool
  /-- A key that may have begun in the innermost collection. -/
  keyMark : Option KeyMark
  /-- The same for the collections around it, as far as brackets are open. -/
  outerMarks : List (Option KeyMark)
deriving DecidableEq, Repr

namespace Scanner

def start (spots : List Spot) : Scanner :=
  ⟨spots, [], [], true, none, []⟩

/-- Whether brackets are open. -/
def inFlow (st : Scanner) : Bool := !st.outerMarks.isEmpty

/-- The least column of what is inside the innermost block collection. -/
def base (st : Scanner) : Nat :=
  match st.indents with
  | [] => 0
  | i :: _ => i + 1

/-- Adds a token at the end and goes on behind it. -/
def emitAt (st : Scanner) (t : Token) (rest : List Spot) : Scanner :=
  { st with tokens := st.tokens ++ [t], spots := rest }

/-! ## Space between tokens -/

/-- Passes over blanks, line breaks and comments. `allowed` is whether a key may begin, as it may
again behind a line break outside of brackets; where it may, a tab is no blank. -/
def skipGap (inFlow : Bool) : (allowed comment : Bool) → List Spot → Bool × List Spot
  | allowed, _, [] => (allowed, [])
  | allowed, comment, s :: rest =>
    if isBreak s.char then skipGap inFlow (allowed || !inFlow) false rest
    else if comment then skipGap inFlow allowed true rest
    else if s.char = ' ' then skipGap inFlow allowed false rest
    else if s.char = '\t' && (inFlow || !allowed) then skipGap inFlow allowed false rest
    else if s.char = '\ufeff' && s.column = 0 then skipGap inFlow allowed false rest
    else if s.char = '#' then skipGap inFlow allowed true rest
    else (allowed, s :: rest)

def skip (st : Scanner) : Scanner :=
  let (allowed, rest) := skipGap st.inFlow st.keyAllowed false st.spots
  { st with keyAllowed := allowed, spots := rest }

/-! ## Keys -/

/-- Forgets that a key may have begun. -/
def dropKey (st : Scanner) : Option Scanner :=
  if st.keyMark.any KeyMark.required then none else some { st with keyMark := none }

/-- Remembers that a key may begin at a spot. -/
def saveKey (st : Scanner) (s : Spot) : Option Scanner :=
  if !st.keyAllowed then some st
  else do
    let st ← st.dropKey
    let required := !st.inFlow && st.indents.head? = some s.column
    return { st with keyMark := some ⟨st.tokens.length, required, s⟩ }

/-- Whether a key that has begun at the mark cannot end here. -/
def isStale (s : Spot) (k : KeyMark) : Bool :=
  k.spot.line < s.line || k.spot.index + keyLimit < s.index

/-- Forgets keys that cannot end here. -/
def forgetStale (st : Scanner) (s : Spot) : Option Scanner :=
  let marks := st.keyMark :: st.outerMarks
  if marks.any fun m => m.any fun k => isStale s k && k.required then none
  else
    let keep (m : Option KeyMark) : Option KeyMark := m.filter fun k => !isStale s k
    some { st with keyMark := keep st.keyMark, outerMarks := st.outerMarks.map keep }

/-! ## Indentation -/

/-- Begins a block collection in a column, if it is further in than the innermost one. Its first
token goes in front of the token at `position`. -/
def indentTo (st : Scanner) (column : Nat) (position : Nat) (t : Token) : Scanner :=
  if st.inFlow || column < st.base then st
  else { st with indents := column :: st.indents, tokens := st.tokens.insertIdx position t }

/-- The number of block collections that end in front of a column. -/
def deeper (indents : List Nat) (column : Nat) : Nat :=
  (indents.takeWhile fun i => column < i).length

/-- Ends the innermost block collections. -/
def close (st : Scanner) (count : Nat) : Scanner :=
  { st with
    indents := st.indents.drop count,
    tokens := st.tokens ++ List.replicate count .blockEnd }

/-- Ends the block collections that are further in than a column. -/
def closeTo (st : Scanner) (column : Nat) : Scanner :=
  if st.inFlow then st else st.close (deeper st.indents column)

/-- Ends all block collections, before the end of a document. -/
def closeAll (st : Scanner) : Option Scanner :=
  let st := if st.inFlow then st else st.close st.indents.length
  ({ st with keyAllowed := false } : Scanner).dropKey

/-! ## Tokens -/

/-- A directive. -/
def directive (st : Scanner) (rest : List Spot) : Option Scanner := do
  let st ← st.closeAll
  let (t, rest) ← scanDirective rest
  return st.emitAt t rest

/-- A mark between documents. -/
def documentMark (st : Scanner) (t : Token) : Option Scanner := do
  let st ← st.closeAll
  return st.emitAt t (st.spots.drop 3)

/-- An opening bracket. -/
def openFlow (st : Scanner) (s : Spot) (rest : List Spot) (t : Token) : Option Scanner := do
  let st ← st.saveKey s
  let st := { st with keyMark := none, outerMarks := st.keyMark :: st.outerMarks }
  return { st with keyAllowed := true }.emitAt t rest

/-- A closing bracket. -/
def closeFlow (st : Scanner) (rest : List Spot) (t : Token) : Option Scanner := do
  let st ← st.dropKey
  let st := match st.outerMarks with
    | [] => st
    | m :: ms => { st with keyMark := m, outerMarks := ms }
  return { st with keyAllowed := false }.emitAt t rest

/-- A comma. -/
def comma (st : Scanner) (rest : List Spot) : Option Scanner := do
  let st ← st.dropKey
  return { st with keyAllowed := true }.emitAt .comma rest

/-- Begins a block collection at a mark, which can only stand where a key can. -/
def openBlock (st : Scanner) (s : Spot) (t : Token) : Option Scanner :=
  if st.inFlow then some st
  else if st.keyAllowed then some (st.indentTo s.column st.tokens.length t)
  else none

/-- The dash of an item. -/
def item (st : Scanner) (s : Spot) (rest : List Spot) : Option Scanner := do
  let st ← st.openBlock s .blockSeq
  let st ← st.dropKey
  return { st with keyAllowed := true }.emitAt .item rest

/-- The question mark of a key. -/
def key (st : Scanner) (s : Spot) (rest : List Spot) : Option Scanner := do
  let st ← st.openBlock s .blockMap
  let st ← st.dropKey
  return { st with keyAllowed := !st.inFlow }.emitAt .key rest

/-- The colon of a value. -/
def value (st : Scanner) (s : Spot) (rest : List Spot) : Option Scanner :=
  match st.keyMark with
  | some k =>
    let st := { st with tokens := st.tokens.insertIdx k.position .key }
    let st := st.indentTo k.spot.column k.position .blockMap
    some ({ st with keyMark := none, keyAllowed := false }.emitAt .value rest)
  | none => do
    let st ← st.openBlock s .blockMap
    return { st with keyAllowed := !st.inFlow }.emitAt .value rest

/-- A token that may be a key, or the beginning of one. -/
def content (st : Scanner) (s : Spot) (scanned : Option (Token × List Spot)) : Option Scanner := do
  let st ← st.saveKey s
  let (t, rest) ← scanned
  return { st with keyAllowed := false }.emitAt t rest

/-- A name behind its mark. -/
def named (token : String → Token) (rest : List Spot) : Option (Token × List Spot) :=
  (anchorName rest).map fun n => (token n.1, n.2)

def quoted (double : Bool) (rest : List Spot) : Option (Token × List Spot) :=
  (scanQuoted double rest).map fun q => (.scalar .quoted (String.ofList q.1), q.2)

/-- A block scalar behind its mark. -/
def block (st : Scanner) (literal : Bool) (rest : List Spot) : Option Scanner := do
  let st ← st.dropKey
  let (text, rest) ← scanBlock literal st.base rest
  let style := if literal then ScalarStyle.literal else .folded
  return { st with keyAllowed := true }.emitAt (.scalar style (String.ofList text)) rest

/-- A plain scalar. A key may begin behind it only if it has ended a line. -/
def plain (st : Scanner) (s : Spot) : Option Scanner := do
  let st ← st.saveKey s
  let p ← scanPlain st.inFlow st.base st.spots
  return { st with keyAllowed := p.endsLine }.emitAt (.scalar .plain (String.ofList p.text)) p.rest

/-- A character that cannot begin a plain scalar, at least not in front of a blank. -/
def isIndicator (c : Char) : Bool :=
  isFlowIndicator c ||
    c ∈ ['-', '?', ':', '#', '&', '*', '!', '|', '>', '\'', '"', '%', '@', '\x60']

/-- Whether a plain scalar begins at a spot. -/
def beginsPlain (inFlow : Bool) (s : Spot) (rest : List Spot) : Bool :=
  let blankNext := rest.head?.any fun n => isWhite n.char
  (!isSeparator s.char && !isIndicator s.char) || (s.char = '-' && !blankNext) ||
    (!inFlow && (s.char = '?' || s.char = ':') && !separatorAhead rest)

/-- Reads the token at a spot. -/
def token (st : Scanner) (s : Spot) (rest : List Spot) : Option Scanner :=
  let marks := st.inFlow || separatorAhead rest
  if s.column = 0 && s.char = '%' then st.directive rest
  else if documentMarkAhead '-' (s :: rest) then st.documentMark .documentStart
  else if documentMarkAhead '.' (s :: rest) then st.documentMark .documentEnd
  else if s.char = '[' then st.openFlow s rest .flowSeq
  else if s.char = '\x7b' then st.openFlow s rest .flowMap
  else if s.char = ']' then st.closeFlow rest .flowSeqEnd
  else if s.char = '\x7d' then st.closeFlow rest .flowMapEnd
  else if s.char = ',' then st.comma rest
  else if s.char = '-' && separatorAhead rest then st.item s rest
  else if s.char = '?' && marks then st.key s rest
  else if s.char = ':' && marks then st.value s rest
  else if s.char = '*' then st.content s (named .alias rest)
  else if s.char = '&' then st.content s (named .anchor rest)
  else if s.char = '!' then st.content s (scanTag st.inFlow (s :: rest))
  else if s.char = '|' && !st.inFlow then st.block true rest
  else if s.char = '>' && !st.inFlow then st.block false rest
  else if s.char = '\'' then st.content s (quoted false rest)
  else if s.char = '"' then st.content s (quoted true rest)
  else if beginsPlain st.inFlow s rest then st.plain s
  else none

/-- Reads the tokens that are left. -/
def run : (fuel : Nat) → Scanner → Option (List Token)
  | 0, _ => none
  | fuel + 1, st =>
    let st := st.skip
    match st.spots with
    | [] => st.closeAll.map Scanner.tokens
    | s :: rest => do
      let st ← st.forgetStale s
      let st ← (st.closeTo s.column).token s rest
      run fuel st

end Scanner

/-- The tokens of a text, if it can be divided into tokens. -/
def Token.scan? (text : List Char) : Option (List Token) := do
  let spots ← Spot.ofText? text
  (Scanner.start spots).run (spots.length + 1)

end JobConfig.Yaml

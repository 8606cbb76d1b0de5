import JobConfig.Dict
import JobConfig.Yaml.Scan

/-!
# Nodes

The tree that a YAML text describes. `Document.parse?` reads it off the tokens of the text; a text
that is not well-formed, or has more than one document, has none. An alias stays a reference to
the node of its anchor, which `Document.find?` gives, so a tree may refer to itself.
-/

namespace JobConfig.Yaml

/-- A node of a document. A tag is its full text. -/
inductive Node where
  | scalar (tag : Option String) (style : ScalarStyle) (text : String)
  | seq (tag : Option String) (items : List Node)
  | map (tag : Option String) (entries : List (Node × Node))
  /-- The node of the anchor with this number. -/
  | alias (number : Nat)
  /-- What a text without documents has in place of a node. -/
  | absent
deriving Repr, Inhabited

namespace Node

/-- What stands where nothing is written. -/
def empty : Node := .scalar none .plain ""

end Node

/-! ## Anchors -/

/-- The anchors of a document. Names have numbers, and so have anchored nodes; of two nodes with
one number the one that begins later counts. -/
structure Anchors where
  /-- The number that a name has at this point. -/
  numbers : List (String × Nat)
  /-- How many anchored nodes have begun. -/
  begun : Nat
  /-- Which node a number stands for, by its place among the anchored nodes. -/
  places : List (Nat × Nat)
  /-- The anchored nodes that have ended, by their places. -/
  nodes : List (Nat × Node)
deriving Repr, Inhabited

namespace Anchors

def none : Anchors := ⟨[], 0, [], []⟩

/-- The value of the first entry under a number. -/
def at? {α : Type} (number : Nat) : List (Nat × α) → Option α
  | [] => Option.none
  | (n, a) :: rest => if n = number then some a else at? number rest

/-- Begins an anchored node, whose number is the number of names so far. -/
def enter (a : Anchors) (name : String) : Anchors :=
  let number := a.numbers.length
  ⟨setEntry name number a.numbers, a.begun + 1, (number, a.begun) :: a.places, a.nodes⟩

/-- Ends the anchored node of a place. -/
def leave (a : Anchors) (place : Nat) (n : Node) : Anchors :=
  { a with nodes := (place, n) :: a.nodes }

/-- The node that a number stands for. -/
def find? (a : Anchors) (number : Nat) : Option Node :=
  (at? number a.places).bind fun place => at? place a.nodes

end Anchors

/-! ## Parsing -/

/-- The stems of the tag handles that need no directive. -/
def commonHandles : List (String × String) :=
  [("!", "!"), ("!!", "tag:yaml.org,2002:")]

/-- What is left to parse, and what has been learnt. -/
structure Parser where
  tokens : List Token
  handles : List (String × String)
  anchors : Anchors
deriving Repr, Inhabited

namespace Parser

/-- Whether the next token is one of some. -/
def next (p : Parser) (ts : List Token) : Bool :=
  p.tokens.head?.any (· ∈ ts)

/-- Passes over a token. -/
def skip (p : Parser) : Parser :=
  { p with tokens := p.tokens.drop 1 }

/-- Passes over a token that has to be there. -/
def expect (p : Parser) (t : Token) : Option Parser :=
  if p.next [t] then some p.skip else none

/-- An anchor and a tag in front of a node, in either order. -/
def properties (p : Parser) : Option String × Option (String × String) × Parser :=
  match p.tokens with
  | .anchor a :: .tag h n :: rest => (some a, some (h, n), { p with tokens := rest })
  | .anchor a :: rest => (some a, none, { p with tokens := rest })
  | .tag h n :: .anchor a :: rest => (some a, some (h, n), { p with tokens := rest })
  | .tag h n :: rest => (none, some (h, n), { p with tokens := rest })
  | _ => (none, none, p)

/-- The full text of a tag; an unknown handle has none. -/
def tagText? (p : Parser) : String × String → Option String
  | (handle, name) =>
    if handle.isEmpty then some name
    else (valueAt? handle p.handles).map fun stem => stem ++ name

/-- The node of an alias whose anchor is known. -/
def aliasNode (p : Parser) (name : String) : Option (Node × Parser) :=
  (valueAt? name p.anchors.numbers).map fun n => (.alias n, p.skip)

/-- Ends an anchored node. -/
def close (place : Option Nat) (r : Node × Parser) : Node × Parser :=
  match place with
  | none => r
  | some i => (r.1, { r.2 with anchors := r.2.anchors.leave i r.1 })

/-- The tag of a scalar; a mark alone is none. -/
def scalarTag (tag : Option String) : Option String :=
  tag.filter fun t => t ≠ "!"

mutual

/-- A node. `block` is whether a block collection may stand here, and `below` whether the items
of a sequence may begin without one, below a key. -/
def node (block below : Bool) : (fuel : Nat) → Parser → Option (Node × Parser)
  | 0, _ => none
  | fuel + 1, p =>
    match p.tokens with
    | .alias name :: _ => p.aliasNode name
    | _ => do
      let (anchor, mark, p) := p.properties
      let tag ← match mark with
        | none => some none
        | some m => (p.tagText? m).map some
      let place := anchor.map fun _ => p.anchors.begun
      let p := match anchor with
        | none => p
        | some name => { p with anchors := p.anchors.enter name }
      let r ← content block below (anchor.isSome || mark.isSome) tag fuel p
      return close place r

/-- A node behind its anchor and tag; `marked` is whether it has one of them. -/
def content (block below marked : Bool) (tag : Option String) :
    (fuel : Nat) → Parser → Option (Node × Parser)
  | 0, _ => none
  | fuel + 1, p =>
    match p.tokens with
    | .scalar style text :: _ => some (.scalar (scalarTag tag) style text, p.skip)
    | .flowSeq :: _ => do
      let (items, p) ← flowItems true fuel p.skip
      return (.seq tag items, p)
    | .flowMap :: _ => do
      let (entries, p) ← flowEntries true fuel p.skip
      return (.map tag entries, p)
    | _ =>
      if below && p.next [.item] then do
        let (items, p) ← looseItems fuel p
        return (.seq tag items, p)
      else if block && p.next [.blockSeq] then do
        let (items, p) ← blockItems fuel p.skip
        return (.seq tag items, p)
      else if block && p.next [.blockMap] then do
        let (entries, p) ← blockEntries fuel p.skip
        return (.map tag entries, p)
      else if marked then some (.scalar tag .plain "", p)
      else none

/-- A node, unless one of some tokens is next. -/
def nodeUnless (stops : List Token) (block below : Bool) :
    (fuel : Nat) → Parser → Option (Node × Parser)
  | 0, _ => none
  | fuel + 1, p => if p.next stops then some (.empty, p) else node block below fuel p

/-- The items of a block sequence. -/
def blockItems : (fuel : Nat) → Parser → Option (List Node × Parser)
  | 0, _ => none
  | fuel + 1, p =>
    if p.next [.item] then do
      let (n, p) ← nodeUnless [.item, .blockEnd] true false fuel p.skip
      let (rest, p) ← blockItems fuel p
      return (n :: rest, p)
    else (p.expect .blockEnd).map fun p => ([], p)

/-- The items of a sequence that is not indented below its key. -/
def looseItems : (fuel : Nat) → Parser → Option (List Node × Parser)
  | 0, _ => none
  | fuel + 1, p =>
    if p.next [.item] then do
      let (n, p) ← nodeUnless [.item, .key, .value, .blockEnd] true false fuel p.skip
      let (rest, p) ← looseItems fuel p
      return (n :: rest, p)
    else some ([], p)

/-- The entries of a block mapping. -/
def blockEntries : (fuel : Nat) → Parser → Option (List (Node × Node) × Parser)
  | 0, _ => none
  | fuel + 1, p =>
    if p.next [.key] then do
      let (k, p) ← nodeUnless [.key, .value, .blockEnd] true true fuel p.skip
      let (v, p) ← if p.next [.value] then
          nodeUnless [.key, .value, .blockEnd] true true fuel p.skip
        else some (.empty, p)
      let (rest, p) ← blockEntries fuel p
      return ((k, v) :: rest, p)
    else (p.expect .blockEnd).map fun p => ([], p)

/-- The items of a sequence in brackets. An item may be a mapping of one entry. -/
def flowItems (first : Bool) : (fuel : Nat) → Parser → Option (List Node × Parser)
  | 0, _ => none
  | fuel + 1, p =>
    if p.next [.flowSeqEnd] then some ([], p.skip)
    else do
      let p ← if first then some p else p.expect .comma
      if p.next [.flowSeqEnd] then return ([], p.skip)
      let (n, p) ← if p.next [.key] then flowPair fuel p.skip else node false false fuel p
      let (rest, p) ← flowItems false fuel p
      return (n :: rest, p)

/-- A mapping of one entry in a sequence in brackets. A missing key takes the next token with
it. -/
def flowPair : (fuel : Nat) → Parser → Option (Node × Parser)
  | 0, _ => none
  | fuel + 1, p => do
    let (k, p) ← if p.next [.value, .comma, .flowSeqEnd] then some (.empty, p.skip)
      else node false false fuel p
    let (v, p) ← if p.next [.value] then
        nodeUnless [.comma, .flowSeqEnd] false false fuel p.skip
      else some (.empty, p)
    return (.map none [(k, v)], p)

/-- The entries of a mapping in braces. -/
def flowEntries (first : Bool) : (fuel : Nat) → Parser → Option (List (Node × Node) × Parser)
  | 0, _ => none
  | fuel + 1, p =>
    if p.next [.flowMapEnd] then some ([], p.skip)
    else do
      let p ← if first then some p else p.expect .comma
      if p.next [.flowMapEnd] then return ([], p.skip)
      let (entry, p) ← if p.next [.key] then do
          let (k, p) ← nodeUnless [.value, .comma, .flowMapEnd] false false fuel p.skip
          let (v, p) ← if p.next [.value] then
              nodeUnless [.comma, .flowMapEnd] false false fuel p.skip
            else some (.empty, p)
          pure ((k, v), p)
        else do
          let (k, p) ← node false false fuel p
          pure ((k, .empty), p)
      let (rest, p) ← flowEntries false fuel p
      return (entry :: rest, p)

end

/-- The fuel that a node with the tokens that follow needs at most. -/
def fuel (p : Parser) : Nat := 4 * p.tokens.length + 8

end Parser

/-! ## Documents -/

/-- A document: its node and the nodes that its aliases stand for. -/
structure Document where
  root : Node
  anchors : Anchors
deriving Repr, Inhabited

namespace Document

/-- The node that an alias stands for. -/
def find? (d : Document) (number : Nat) : Option Node :=
  d.anchors.find? number

/-- The directives in front of a document. `version` is whether one has named the version. -/
def directives : (version : Bool) → (handles : List (String × String)) → List Token →
    Option (List (String × String) × List Token)
  | version, handles, .version major minor :: rest =>
    if version || major ≠ 1 || (minor ≠ 1 && minor ≠ 2) then none
    else directives true handles rest
  | version, handles, .handle name stem :: rest =>
    if (valueAt? name handles).isSome then none
    else directives version (handles ++ [(name, stem)]) rest
  | _, handles, rest => some (handles, rest)

/-- The node of a document with marks around it. -/
def content (handles : List (String × String)) (tokens : List Token) : Option (Node × Parser) :=
  let p : Parser := ⟨tokens, handles ++ commonHandles, .none⟩
  if tokens.isEmpty || p.next [.documentStart, .documentEnd] then some (.empty, p)
  else p.node true false p.fuel

/-- The tokens behind the marks that end a document. -/
def afterEnds (tokens : List Token) : List Token :=
  tokens.dropWhile fun t => t = .documentEnd

/-- The only document of some tokens. -/
def ofTokens? (tokens : List Token) : Option Document := do
  if tokens.isEmpty then return ⟨.absent, .none⟩
  let (handles, rest) ← directives false [] tokens
  let (root, p) ← match rest with
    | .documentStart :: rest => content handles rest
    | _ =>
      if rest.length < tokens.length then none
      else
        let p : Parser := ⟨rest, commonHandles, .none⟩
        p.node true false p.fuel
  if (afterEnds p.tokens).isEmpty then return ⟨root, p.anchors⟩ else none

/-- The document that a text describes. -/
def parse? (text : String) : Option Document :=
  (Token.scan? text.toList).bind ofTokens?

end Document

end JobConfig.Yaml

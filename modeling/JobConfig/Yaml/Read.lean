import JobConfig.Reading.Source
import JobConfig.Yaml.Node
import JobConfig.Yaml.Plain

/-!
# Reading YAML texts

A node of a YAML text is a source: a `Site`. It differs from a value in memory: errors tell the
place they arise at; a text is read off any scalar as it is written; a written null stands for no
container, while nothing at all stands for an empty one; and a tag of the document's own names
the variant of a choice. Collections can be nested to a depth of `depthLimit`.

`readText` reads what a text describes, once the whole text is known to be well-formed.
-/

namespace JobConfig.Yaml

/-! ## Scalars -/

/-- The tags that say what a scalar stands for. -/
def coreTag (name : String) : String :=
  "tag:yaml.org,2002:" ++ name

/-- The name that a tag of the document's own gives: what follows its exclamation mark. -/
def localTag? (tag : Option String) : Option String :=
  tag.bind fun t =>
    match t.toList with
    | ['!'] => some t
    | '!' :: name => some (String.ofList name)
    | _ => none

/-- What a scalar with a core tag has to be. -/
def tagged? (expected : String) (text : String) (p : Option Plain) : Except Cause Plain :=
  match p with
  | some p => .ok p
  | none => .error (.invalidValue (.str text) expected)

/-- What a scalar stands for: what its core tag says, or else the text, which without quotes may
be something else. -/
def Plain.ofScalar (tag : Option String) (style : ScalarStyle) (text : String) :
    Except Cause Plain :=
  if tag = some (coreTag "bool") then tagged? "a boolean" text ((bool? text).map .bool)
  else if tag = some (coreTag "int") then
    tagged? "an integer" text ((integer? text.toList).bind Plain.ofInt?)
  else if tag = some (coreTag "float") then tagged? "a float" text ((float? text).map .float)
  else if tag = some (coreTag "null") then
    tagged? "null" text (if isNull text then some .null else none)
  else if style = .plain ∧ (tag = none ∨ (localTag? tag).isSome) then .ok (Plain.of text)
  else .ok .str

/-- How a scalar is named where something else was expected. -/
def Plain.found (text : String) : Plain → Found
  | .null => .unit
  | .bool b => .bool b
  | .int n => .int n
  | .wide n => .wide n
  | .float x => .float x
  | .str => .str text

/-- The value that a scalar is, where `expected` names what may stand. -/
def Plain.toValue (expected text : String) : Plain → Read Value
  | .null => .ok .null
  | .bool b => .ok (.bool b)
  | .int n => .ok (.int n)
  | .wide n => Read.fail (.invalidType (.wide n) expected)
  | .float x => .ok (.float x)
  | .str => .ok (.str text)

/-- Whether a scalar is read as a flag or a number: unless it has quotes, or is a block without
the core tag that says so. -/
def readsAs (name : String) (tag : Option String) (style : ScalarStyle) : Bool :=
  style = .plain || (style = .literal && tag = some (coreTag name))

/-! ## Sites -/

/-- How deep collections may be nested. -/
def depthLimit : Nat := 128

/-- A node in its document. -/
structure Site where
  document : Document
  node : Node
  place : Place
  /-- How many more collections may be opened. -/
  depth : Nat
deriving Repr, Inhabited

/-- A node, or the node that it is an alias of. -/
def Document.resolve (d : Document) : Node → Node
  | .alias number => (d.find? number).getD .absent
  | n => n

/-- The step from a mapping to the value under a key. -/
def keyStep : Node → PlaceStep
  | .scalar _ _ text => .key text
  | _ => .unnamed

namespace Site

def root (d : Document) : Site :=
  ⟨d, d.root, [], depthLimit⟩

/-- What stands at the site. -/
def content (s : Site) : Node :=
  s.document.resolve s.node

/-- Reports an error at the site, unless it has a place. -/
def here {α : Type} (s : Site) (r : Read α) : Read α :=
  Read.placed (some s.place) r

/-- The error for a node that is not what was expected. -/
def misfit {α : Type} (s : Site) (expected : String) : Read α :=
  s.here <|
    match s.content with
    | .scalar tag style text =>
      match Plain.ofScalar tag style text with
      | .ok p => Read.fail (.invalidType (p.found text) expected)
      | .error cause => Read.fail cause
    | .seq _ _ => Read.fail (.invalidType .seq expected)
    | .map _ _ => Read.fail (.invalidType .map expected)
    | _ => Read.fail (.invalidType .unit expected)

/-- Nothing at all, which stands for an empty container. -/
def isEmpty (s : Site) : Bool :=
  match s.content with
  | .absent => true
  | .scalar _ style text => style = .plain && text.isEmpty
  | _ => false

/-- The site of a node inside. -/
def inside (s : Site) (steps : Place) (n : Node) : Site :=
  ⟨s.document, n, s.place ++ steps, s.depth - 1⟩

def itemSites (s : Site) : (index : Nat) → List Node → List Site
  | _, [] => []
  | i, n :: rest => s.inside [.item i] n :: itemSites s (i + 1) rest

def entrySites (s : Site) (entries : List (Node × Node)) : List (Site × Site) :=
  entries.map fun e => (s.inside [] e.1, s.inside [keyStep e.1] e.2)

/-- The error for a collection that is too deep, which tells no place. -/
def tooDeep {α : Type} : Read α :=
  .error ⟨.tooDeep, some []⟩

/-- Opens a collection, if it is not too deep. -/
def opened {α : Type} (s : Site) (a : α) : Read α :=
  if s.depth = 0 then tooDeep else .ok a

/-! ## What a node reads as -/

def readStr (expected : String) (s : Site) : Read String :=
  match s.content with
  | .scalar _ _ text => .ok text
  | _ => s.misfit expected

def readBool (s : Site) : Read Bool :=
  match s.content with
  | .scalar tag style text =>
    if readsAs "bool" tag style then
      match bool? text with
      | some b => .ok b
      | none => s.misfit "a boolean"
    else s.misfit "a boolean"
  | _ => s.misfit "a boolean"

/-- The number that a text without a minus sign is. -/
def unsignedNumber? (text : String) : Option Int :=
  if text.toList.head? = some '-' then none
  else match (integer? text.toList).bind Plain.ofInt? with
  | some (.int n) => some n
  | _ => none

def readParallelism (s : Site) : Read Parallelism :=
  let expected := "a nonzero u32"
  match s.content with
  | .scalar tag style text =>
    if readsAs "int" tag style then
      match unsignedNumber? text with
      | none => s.misfit expected
      | some n =>
        match Parallelism.ofInt? n with
        | some p => .ok p
        | none => s.here (Read.fail (.invalidValue (.int n) expected))
    else s.misfit expected
  | _ => s.misfit expected

def readFloat (s : Site) : Read Double :=
  match s.content with
  | .scalar tag style text =>
    if readsAs "float" tag style then
      match float? text with
      | some x => .ok x
      | none => s.misfit "f64"
    else s.misfit "f64"
  | _ => s.misfit "f64"

/-- An optional value is left out by a plain null, or by nothing. With the tag of null it has to
be one. -/
def isUnset (s : Site) : Read Bool :=
  match s.content with
  | .absent => .ok true
  | .scalar tag style text =>
    if style ≠ .plain then .ok false
    else match tag with
    | none => .ok (text.isEmpty || isNull text)
    | some t =>
      if t ≠ coreTag "null" then .ok false
      else if isNull text then .ok true
      else Read.fail (.invalidValue (.str text) "null")
  | _ => .ok false

def readItems (s : Site) : Read (List Site) :=
  match s.content with
  | .seq _ items => s.opened (s.itemSites 0 items)
  | _ => if s.isEmpty then .ok [] else s.misfit "a sequence"

def readEntries (expected : String) (s : Site) : Read (List (Site × Site)) :=
  match s.content with
  | .map _ entries => s.opened (s.entrySites entries)
  | _ => if s.isEmpty then .ok [] else s.misfit expected

/-- A variant without data: nothing, or a plain null. -/
def readUnit (s : Site) : Read Unit :=
  match s.content with
  | .scalar _ style text =>
    if style = .plain && (text.isEmpty || isNull text) then .ok ()
    else s.here (Read.fail (.invalidValue (.str text) "null"))
  | _ => s.misfit "unit"

/-- The tag of a node, if it is one of the document's own. -/
def ownTag? (s : Site) : Option String :=
  match s.content with
  | .scalar tag _ _ | .seq tag _ | .map tag _ => localTag? tag
  | _ => none

/-- A constant is written as its name, or as a tag with that name on nothing. -/
def readChoice {α : Type} (named : List (String × α)) (s : Site) : Read α :=
  let find (name : String) : Read α :=
    match valueAt? name named with
    | some a => .ok a
    | none => Read.fail (.unknownVariant name (named.map Prod.fst))
  match s.ownTag? with
  | some name => do
    let a ← find name
    s.readUnit
    return a
  | none =>
    match s.content with
    | .scalar _ _ text => s.here (find text)
    | _ => s.misfit "a YAML tag starting with '!'"

/-! ## Whole values -/

/-- How a node is made a value. -/
structure Reading where
  /-- Whether tags of the document's own, and distinct keys, matter. -/
  exact : Bool
  /-- What may stand anywhere. -/
  expected : String

/-- The value of a mapping's entries, which are read one after the other. -/
def entryValues (distinct : Bool) (read : Site → Read Value) :
    (before : List (Value × Value)) → List (Site × Site) → Read (List (Value × Value))
  | before, [] => .ok before
  | before, (k, v) :: rest => do
    let key ← read k
    if distinct && Value.hasKey key before then Read.fail (.duplicateKey key)
    let value ← read v
    entryValues distinct read (before ++ [(key, value)]) rest

/-- The value of a node without its own tag. `read` reads what is inside a collection. -/
def untaggedValue (r : Reading) (read : Site → Read Value) (s : Site) : Read Value :=
  match s.content with
  | .scalar tag style text =>
    match Plain.ofScalar tag style text with
    | .ok p => p.toValue r.expected text
    | .error cause => Read.fail cause
  | .seq _ items => do
    let sites ← s.opened (s.itemSites 0 items)
    let values ← sites.mapM read
    return .seq values
  | .map _ entries => do
    let sites ← s.opened (s.entrySites entries)
    let values ← entryValues r.exact read [] sites
    return .map values
  | _ => .ok .null

/-- The value of a node. `read` reads what is inside a collection. -/
def valueWith (r : Reading) (read : Site → Read Value) (s : Site) : Read Value :=
  s.here <|
    match s.ownTag? with
    | none => untaggedValue r read s
    | some name =>
      if r.exact then (.tagged ("!" ++ name)) <$> untaggedValue r read s
      else Read.fail .taggedChoice

/-- The value of a node in which collections are nested to a depth. -/
def valueAt (r : Reading) : (depth : Nat) → Site → Read Value
  | 0 => valueWith r fun _ => tooDeep
  | depth + 1 => valueWith r (valueAt r depth)

end Site

instance : Source Site where
  place? s := some s.place
  str := Site.readStr "a string"
  bool := Site.readBool
  parallelism := Site.readParallelism
  float := Site.readFloat
  isUnset := Site.isUnset
  items := Site.readItems
  entries := Site.readEntries
  fieldName := Site.readStr "field identifier"
  choice := Site.readChoice
  shape s := Site.valueAt ⟨false, "any value"⟩ s.depth s
  value s := Site.valueAt ⟨true, "any YAML value"⟩ s.depth s

/-- Reads what a text describes. -/
def readText {α : Type} (read : Site → Read α) (text : String) : Except TextError α :=
  match Document.parse? text with
  | none => .error .malformed
  | some d => (read (.root d)).mapError .unfit

end JobConfig.Yaml

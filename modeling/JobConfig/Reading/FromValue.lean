import JobConfig.Reading.Record

/-!
# Reading values in memory

A `Value` is a source without places. Where a scalar, a sequence, a mapping or a record is wanted
the tags around a value are passed over, and null stands for the empty sequence and the empty
mapping. Where the shape of the value decides (`Source.shape`) a tag at any depth is an error.
-/

namespace JobConfig

namespace Value

/-- How a value is named where something else was expected. -/
def found : Value → Found
  | .null => .unit
  | .bool b => .bool b
  | .int n => .int n
  | .float x => .float x
  | .str t => .str t
  | .seq _ => .seq
  | .map _ => .map
  | .tagged _ _ => .tagged

/-- The error for a value that is not what was expected. -/
def misfit {α : Type} (v : Value) (expected : String) : Read α :=
  Read.fail (.invalidType v.found expected)

/-! ## What a value reads as -/

def readStr (v : Value) : Read String :=
  match v.untag with
  | .str t => .ok t
  | u => u.misfit "a string"

def readBool (v : Value) : Read Bool :=
  match v.untag with
  | .bool b => .ok b
  | u => u.misfit "a boolean"

def readParallelism (v : Value) : Read Parallelism :=
  match v.untag with
  | .int n =>
    match Parallelism.ofInt? n with
    | some p => .ok p
    | none => Read.fail (.invalidValue (.int n) "a nonzero u32")
  | u => u.misfit "a nonzero u32"

def readFloat (v : Value) : Read Double :=
  match v.untag with
  | .int n => .ok (.ofInt n)
  | .float x => .ok x
  | u => u.misfit "f64"

def readItems (v : Value) : Read (List Value) :=
  match v.untag with
  | .seq items => .ok items
  | .null => .ok []
  | u => u.misfit "a sequence"

def readEntries (expected : String) (v : Value) : Read (List (Value × Value)) :=
  match v.untag with
  | .map entries => .ok entries
  | .null => .ok []
  | u => u.misfit expected

def readFieldName (v : Value) : Read String :=
  match v.untag with
  | .str t => .ok t
  | u => u.misfit "field identifier"

/-- The name a tag gives: what follows its exclamation mark. -/
def tagName (tag : String) : String :=
  if tag = "!" then tag else String.ofList (tag.toList.drop 1)

/-- A constant is written as its name, or as a tag with that name on nothing. -/
def readChoice {α : Type} (named : List (String × α)) (v : Value) : Read α :=
  let find (name : String) : Read α :=
    match valueAt? name named with
    | some a => .ok a
    | none => Read.fail (.unknownVariant name (named.map Prod.fst))
  match v with
  | .str name => find name
  | .tagged tag content => do
    let a ← find (tagName tag)
    match content.untag with
    | .null => return a
    | u => u.misfit "unit"
  | u => u.misfit "a Value::Tagged enum"

mutual

/-- Whether a tag occurs in a value. -/
def hasTag : Value → Bool
  | .tagged _ _ => true
  | .seq items => hasTagItems items
  | .map entries => hasTagEntries entries
  | _ => false

def hasTagItems : List Value → Bool
  | [] => false
  | v :: rest => hasTag v || hasTagItems rest

def hasTagEntries : List (Value × Value) → Bool
  | [] => false
  | (k, v) :: rest => hasTag k || hasTag v || hasTagEntries rest

end

def readShape (v : Value) : Read Value :=
  if v.hasTag then Read.fail .taggedChoice else .ok v

end Value

instance : Source Value where
  place? _ := none
  str := Value.readStr
  bool := Value.readBool
  parallelism := Value.readParallelism
  float := Value.readFloat
  isUnset v := .ok (v = .null)
  items := Value.readItems
  entries := Value.readEntries
  fieldName := Value.readFieldName
  choice := Value.readChoice
  shape := Value.readShape
  value := .ok

end JobConfig

import JobConfig.Reading.Source

/-!
# Records

A record is read from a mapping with the names of its fields for keys. `Fields σ α` describes the
fields of a record `α`, built up from `required`, `optional` and `defaulted` fields by
`Fields.map` and `Fields.and`; `Fields.read` reads it.

Entries are looked at in their order in the mapping. The first one that is not a field, repeats a
field or does not fit its field is the error; only then are missing fields noticed, in the order
of their description. So the record that is read does not depend on the order of the entries.
-/

namespace JobConfig

/-- The fields of a record. -/
structure Fields (σ α : Type) where
  /-- The names of the fields, in order. -/
  names : List String
  /-- Whether a value fits the field of a name. -/
  check : String → σ → Read Unit
  /-- The record, from the value of each field that is there. -/
  build : (String → Option σ) → Read α

namespace Fields

variable {σ α β : Type}

/-- The outcome of reading, without the value. -/
def outcome (r : Read α) : Read Unit :=
  r.map fun _ => ()

/-- One field of the given name; `absent` is what it reads as when it is not there. -/
def field (name : String) (read : σ → Read α) (absent : Read α) : Fields σ α where
  names := [name]
  check other s := if other = name then outcome (read s) else .ok ()
  build find := (find name).elim absent read

/-- A field that has to be there. -/
def required (name : String) (read : σ → Read α) : Fields σ α :=
  field name read (Read.fail (.missingField name))

/-- A field that may be missing, or be there and unset. -/
def optional [Source σ] (name : String) (read : σ → Read α) : Fields σ (Option α) :=
  field name (Source.readOptional read) (.ok none)

/-- A field that has a value of its own when it is missing. -/
def defaulted (name : String) (read : σ → Read α) (absent : α) : Fields σ α :=
  field name read (.ok absent)

/-- The fields of a record that is made from another. -/
def map (f : α → β) (fs : Fields σ α) : Fields σ β where
  names := fs.names
  check := fs.check
  build find := (fs.build find).map f

/-- The fields of a record whose last component is one more field. -/
def and (fs : Fields σ (α → β)) (gs : Fields σ α) : Fields σ β where
  names := fs.names ++ gs.names
  check name s := do
    fs.check name s
    gs.check name s
  build find := do
    let f ← fs.build find
    let a ← gs.build find
    return f a

/-- The field values of a mapping, by name, in the order of its entries. When `strict`, an entry
that is not a field is an error; otherwise it is left out. `seen` holds those already found. -/
def collect [Source σ] (fs : Fields σ α) (strict : Bool) :
    (seen : List (String × σ)) → List (σ × σ) → Read (List (String × σ))
  | seen, [] => .ok seen
  | seen, (k, v) :: rest => do
    let name ← Source.fieldName k
    if name ∈ fs.names then
      if name ∈ entryKeys seen then Read.fail (.duplicateField name)
      else
        fs.check name v
        collect fs strict (seen ++ [(name, v)]) rest
    else if strict then Read.fail (.unknownField name fs.names)
    else collect fs strict seen rest

/-- Reads the record called `kind`. -/
def read [Source σ] (fs : Fields σ α) (kind : String) (strict : Bool) (s : σ) : Read α :=
  Source.within s do
    let es ← Source.entries ("struct " ++ kind) s
    let found ← fs.collect strict [] es
    fs.build fun name => valueAt? name found

end Fields

end JobConfig

import JobConfig.Component
import JobConfig.Parameter.Literal
import JobConfig.Text.Blank

/-!
# Parameters

A job declares the parameters it accepts. A `Declaration` says what a parameter takes; a
`Parameter` is a named declaration that breaks no rule: `declare` gives one exactly when
`Declaration.violation?` finds nothing wrong. `Parameter.reject?` says why a value cannot be
supplied for a parameter.
-/

namespace JobConfig

/-- What a parameter takes. -/
inductive ParameterType where
  | string
  | boolean
  | integer
  | enum
  | environment
deriving DecidableEq, Repr

namespace ParameterType

/-- The types, in the order in which messages list their names. -/
def all : List ParameterType :=
  [.string, .boolean, .integer, .enum, .environment]

/-- The written name of a type. -/
def name : ParameterType → String
  | .string => "string"
  | .boolean => "boolean"
  | .integer => "integer"
  | .enum => "enum"
  | .environment => "environment"

/-- Reads a type by its name. -/
def read {σ : Type} [Source σ] (s : σ) : Read ParameterType :=
  Source.choice (all.map fun t => (t.name, t)) s

/-- Whether a literal has the shape of the type: texts for all but flags and integers. -/
def accepts : ParameterType → Literal → Bool
  | .string, .str _ => true
  | .enum, .str _ => true
  | .environment, .str _ => true
  | .boolean, .bool _ => true
  | .integer, .int _ => true
  | _, _ => false

/-- The component that a parameter of the type is. -/
def component : ParameterType → Component
  | .string => .stringParameter
  | .boolean => .booleanParameter
  | .integer => .integerParameter
  | .enum => .enumParameter
  | .environment => .environmentParameter

end ParameterType

/-! ## Errors -/

/-- What carries a name that is checked. -/
inductive NameOwner where
  | job
  | parameter
deriving DecidableEq, Repr

/-- Why a job or a parameter cannot be built. -/
inductive BuildError where
  | invalidName (owner : NameOwner) (name : String)
  | duplicateName (name : String)
  | missingEnumValues (name : String)
  | invalidEnumDefault (name value : String) (allowed : List String)
  | typeMismatch (name : String) (expected : ParameterType) (found : String)
  | unexpectedEnumValues (name : String) (type : ParameterType)
deriving DecidableEq, Repr

def NameOwner.text : NameOwner → String
  | .job => "job"
  | .parameter => "parameter"

def BuildError.message : BuildError → String
  | .invalidName owner name =>
    "Invalid " ++ owner.text ++ " name " ++ quoted name ++
      ": names must be non-empty and contain no whitespace"
  | .duplicateName name => "Parameter " ++ name ++ " is already declared"
  | .missingEnumValues name =>
    "Enum parameter " ++ name ++ " must declare at least one allowed value"
  | .invalidEnumDefault name value allowed =>
    "Value " ++ quoted value ++ " of enum parameter " ++ name ++ " is not one of " ++
      quotedList allowed
  | .typeMismatch name expected found =>
    "Parameter " ++ name ++ " of type " ++ expected.name ++ " cannot take a " ++ found ++ " value"
  | .unexpectedEnumValues name type =>
    "Parameter " ++ name ++ " of type " ++ type.name ++ " cannot declare enum values"

/-! ## Declarations -/

/-- What is said of one parameter. -/
structure Declaration where
  type : ParameterType
  default : Option Literal
  description : Option String
  /-- The values an enum allows. -/
  allowed : Option (List String)
deriving DecidableEq, Repr

namespace Declaration

/-- A declaration as it is written: the fields that are set. -/
def toValue (d : Declaration) : Value :=
  .record [
    ("type", some (.str d.type.name)),
    ("default", d.default.map Literal.toValue),
    ("description", d.description.map .str),
    ("enum", d.allowed.map .strs)]

/-- The fields of a declaration. -/
def fields {σ : Type} [Source σ] : Fields σ Declaration :=
  Fields.required "type" ParameterType.read |>.map Declaration.mk
    |>.and (.optional "default" Literal.read)
    |>.and (.optional "description" Source.str)
    |>.and (.optional "enum" (Source.readList Source.str))

/-- Reads a declaration; entries that are none of its fields are passed over. -/
def read {σ : Type} [Source σ] (s : σ) : Read Declaration :=
  fields.read "ParameterContents" false s

/-- Why `value` does not do for a parameter of this name and declaration, if it does not: it needs
the shape of the type and, for an enum, to be one of the allowed values. -/
def reject? (d : Declaration) (name : String) (value : Literal) : Option BuildError :=
  if d.type.accepts value then
    match d.allowed, value with
    | some allowed, .str given =>
      if given ∈ allowed then none else some (.invalidEnumDefault name given allowed)
    | _, _ => none
  else some (.typeMismatch name d.type value.kindName)

/-- Whether allowed values are given as the type wants: some for an enum, none for the others. -/
def enumViolation? (d : Declaration) (name : String) : Option BuildError :=
  match d.type, d.allowed with
  | .enum, some (_ :: _) => none
  | .enum, _ => some (.missingEnumValues name)
  | _, none => none
  | type, some _ => some (.unexpectedEnumValues name type)

/-- The first rule that a named declaration breaks: on its name, on allowed values, on its
default. -/
def violation? (d : Declaration) (name : String) : Option BuildError :=
  if isName name.toList then
    match d.enumViolation? name with
    | some e => some e
    | none => d.default.bind (d.reject? name)
  else some (.invalidName .parameter name)

end Declaration

/-! ## Parameters -/

/-- A named declaration that breaks no rule. -/
structure Parameter where
  name : String
  declaration : Declaration
  valid : declaration.violation? name = none
deriving DecidableEq

namespace Parameter

/-- The parameter with a name and a declaration, or the rule that they break. -/
def declare (name : String) (d : Declaration) : Except BuildError Parameter :=
  match h : d.violation? name with
  | none => .ok ⟨name, d, h⟩
  | some e => .error e

/-! ### One constructor per type -/

def string (name : String) (default description : Option String) : Except BuildError Parameter :=
  declare name ⟨.string, default.map .str, description, none⟩

def boolean (name : String) (default : Option Bool) (description : Option String) :
    Except BuildError Parameter :=
  declare name ⟨.boolean, default.map .bool, description, none⟩

def integer (name : String) (default : Option Int64) (description : Option String) :
    Except BuildError Parameter :=
  declare name ⟨.integer, default.map .int, description, none⟩

/-- A parameter that names an environment variable. -/
def environment (name : String) (default description : Option String) :
    Except BuildError Parameter :=
  declare name ⟨.environment, default.map .str, description, none⟩

def enumeration (name : String) (allowed : List String) (default description : Option String) :
    Except BuildError Parameter :=
  declare name ⟨.enum, default.map .str, description, some allowed⟩

/-! ### Use -/

def type (p : Parameter) : ParameterType :=
  p.declaration.type

/-- The component that the parameter is. -/
def component (p : Parameter) : Component :=
  p.type.component

/-- Whether a value has to be supplied wherever the parameter's owner is used. -/
def isRequired (p : Parameter) : Bool :=
  p.declaration.default.isNone

/-- Why a value cannot be supplied for the parameter, if it cannot. -/
def reject? (p : Parameter) (value : Literal) : Option BuildError :=
  p.declaration.reject? p.name value

/-- The parameter as it is written below its name. -/
def contents (p : Parameter) : Value :=
  p.declaration.toValue

/-- The parameter as it is written, with its name. -/
def generate (p : Parameter) : Value :=
  .keyed p.name p.contents

/-! ### What is declared -/

theorem declare_eq_ok_iff {name : String} {d : Declaration} {p : Parameter} :
    declare name d = .ok p ↔ p.name = name ∧ p.declaration = d := by
  unfold declare
  split
  · rename_i h
    constructor
    · intro e
      cases e
      exact ⟨rfl, rfl⟩
    · rintro ⟨rfl, rfl⟩
      rfl
  · rename_i e h
    constructor
    · intro e
      cases e
    · rintro ⟨rfl, rfl⟩
      rw [p.valid] at h
      cases h

theorem declare_eq_error_iff {name : String} {d : Declaration} {e : BuildError} :
    declare name d = .error e ↔ d.violation? name = some e := by
  unfold declare
  split
  · rename_i h
    simp [h]
  · rename_i e' h
    simp [h]

/-- Declaring a parameter's own name and declaration gives it back. -/
theorem declare_self (p : Parameter) : declare p.name p.declaration = .ok p :=
  declare_eq_ok_iff.mpr ⟨rfl, rfl⟩

end Parameter

end JobConfig

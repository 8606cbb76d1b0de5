import JobConfig.Parameter.Listing
import JobConfig.Template

/-!
# Generation contexts

A `Context` says how components are generated. A templated context leaves references to
parameters as they are. A flattening one resolves them against the parameters in scope: a value
supplied for the parameter comes first, its default second (`Context.lookup`).

`resolve` resolves the references of a text, `resolveValue` those in all texts of a value, at any
depth, keys of mappings apart; there a text that is nothing but one reference becomes the
parameter's value with its own type. Both do nothing outside a scope or without flattening.
-/

namespace JobConfig

/-- Why a reference has no value. -/
inductive Unresolved where
  | undeclared
  | noValue
  | notListed
deriving DecidableEq, Repr

/-- Why a component cannot be generated. -/
inductive GenerateError where
  | undefinedExecutor (job : String)
  | unresolved (reference : String) (reason : Unresolved)
  | invalidOverride (reference : String) (cause : BuildError)
  | duplicateJob (name : String)
deriving DecidableEq, Repr

def Unresolved.text : Unresolved → String
  | .undeclared => "no parameter with this name is declared"
  | .noValue => "the parameter has no default and no override was supplied"
  | .notListed => "not in lookup"

def GenerateError.message : GenerateError → String
  | .undefinedExecutor job => "Job " ++ job ++ " has no resolvable executor"
  | .unresolved reference reason => "Cannot resolve " ++ quoted reference ++ ": " ++ reason.text
  | .invalidOverride reference cause =>
    "Invalid override for parameter " ++ reference ++ ": " ++ cause.message
  | .duplicateJob name => "Job " ++ name ++ " appears more than once in the document"

/-- The outcome of generating. -/
abbrev Generated (α : Type) := Except GenerateError α

/-! ## Values with references -/

namespace Value

variable {ε : Type}

/-- A text with its references resolved: one reference and no more becomes the value itself. -/
def resolveText (lookup : String → Except ε Literal) (text : String) : Except ε Value :=
  match Template.soleReference? text with
  | some name => Literal.toValue <$> lookup name
  | none => do
    let filled ← Template.substitute text fun name => Literal.text <$> lookup name
    return .str (filled.getD text)

mutual

/-- A value with the references in its texts resolved, from left to right. -/
def resolve (lookup : String → Except ε Literal) : Value → Except ε Value
  | .str text => resolveText lookup text
  | .seq items => do
    let items ← resolveItems lookup items
    return .seq items
  | .map entries => do
    let entries ← resolveEntries lookup entries
    return .map entries
  | v => .ok v

def resolveItems (lookup : String → Except ε Literal) : List Value → Except ε (List Value)
  | [] => .ok []
  | v :: rest => do
    let v ← resolve lookup v
    let rest ← resolveItems lookup rest
    return v :: rest

def resolveEntries (lookup : String → Except ε Literal) :
    List (Value × Value) → Except ε (List (Value × Value))
  | [] => .ok []
  | (k, v) :: rest => do
    let v ← resolve lookup v
    let rest ← resolveEntries lookup rest
    return (k, v) :: rest

end

end Value

/-! ## Contexts -/

/-- How components are generated. -/
structure Context where
  flatten : Bool
  /-- The values supplied for parameters. -/
  overrides : Dict Literal
  /-- The parameters that references are to. -/
  scope : Option Parameters
deriving DecidableEq

namespace Context

/-- A context without overrides and scope. -/
def new (flatten : Bool) : Context :=
  ⟨flatten, ∅, none⟩

/-- Parameters and references stay in what is generated. -/
def templated : Context := new false

/-- References are resolved, and parameters are left out of what is generated. -/
def flattened : Context := new true

/-- Supplies a value for a parameter, in place of any supplied before. -/
def withOverride (ctx : Context) (name : String) (value : Literal) : Context :=
  { ctx with overrides := ctx.overrides.insert name value }

/-- The context with references to `parameters`. -/
def withScope (ctx : Context) (parameters : Parameters) : Context :=
  { ctx with scope := some parameters }

/-- The scope, if references are resolved at all. -/
def activeScope (ctx : Context) : Option Parameters :=
  if ctx.flatten then ctx.scope else none

/-- The value a reference stands for. -/
def lookup (ctx : Context) (parameters : Parameters) (name : String) : Generated Literal :=
  match parameters.get? name with
  | none => .error (.unresolved name .undeclared)
  | some p =>
    match ctx.overrides.get? name with
    | some value =>
      match p.reject? value with
      | some cause => .error (.invalidOverride name cause)
      | none => .ok value
    | none =>
      match p.declaration.default with
      | some value => .ok value
      | none => .error (.unresolved name .noValue)

/-- The text with its references resolved, each value interpolated as text. -/
def resolve (ctx : Context) (text : String) : Generated String :=
  match ctx.activeScope with
  | none => .ok text
  | some parameters => do
    let filled ← Template.substitute text fun name => Literal.text <$> ctx.lookup parameters name
    return filled.getD text

/-- The value with the references in its texts resolved. -/
def resolveValue (ctx : Context) (value : Value) : Generated Value :=
  match ctx.activeScope with
  | none => .ok value
  | some parameters => value.resolve (ctx.lookup parameters)

end Context

/-- The text with the references replaced from a table of answers, and the names asked for. -/
def Template.substituteFrom (table : List (String × String)) (text : String) :
    Generated (Option String) × List String :=
  let answer (name : String) : ExceptT GenerateError (StateM (List String)) String := do
    modify (· ++ [name])
    match valueAt? name table with
    | some given => return given
    | none => throw (.unresolved name .notListed)
  (Template.substitute text answer).run.run []

end JobConfig

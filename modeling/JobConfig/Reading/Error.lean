import JobConfig.Text.Quoted
import JobConfig.Value

/-!
# Errors of reading

Why data does not fit the definition it is read as. A `ReadError` is a cause and, when the data
comes from a text, the place in it that the error is reported at. `ReadError.message` is the whole
text: the place, unless it is the outermost one, then the cause.
-/

namespace JobConfig

/-- What was found in place of what was expected. -/
inductive Found where
  | bool (b : Bool)
  | int (n : Int)
  | wide (n : Int)
  | float (x : Double)
  | str (text : String)
  | unit
  | seq
  | map
  | tagged
deriving DecidableEq, Repr

/-- Why data cannot be read. -/
inductive Cause where
  | missingField (name : String)
  | unknownField (name : String) (known : List String)
  | duplicateField (name : String)
  | unknownVariant (name : String) (known : List String)
  | invalidType (found : Found) (expected : String)
  | invalidValue (found : Found) (expected : String)
  | noVariant (choice : String)
  | taggedChoice
  | duplicateKey (key : Value)
  | tooDeep
deriving DecidableEq, Repr

/-- One step from a value to a value inside it. -/
inductive PlaceStep where
  | item (index : Nat)
  | key (name : String)
  | unnamed
deriving DecidableEq, Repr

/-- A value inside a document: the steps to it, outermost first. -/
abbrev Place := List PlaceStep

/-- A cause, and the place it is reported at once that is known. -/
structure ReadError where
  cause : Cause
  place : Option Place
deriving DecidableEq, Repr

/-- The outcome of reading. -/
abbrev Read (α : Type) := Except ReadError α

/-! ## Texts -/

/-- A name between backquotes. -/
def backquoted (name : String) : String :=
  "`" ++ name ++ "`"

def Found.text : Found → String
  | .bool b => "boolean " ++ backquoted (if b then "true" else "false")
  | .int n => "integer " ++ backquoted (intText n)
  | .wide n =>
    "integer " ++ backquoted (intText n) ++ (if n < 0 then " as i128" else " as u128")
  | .float x => "floating point " ++ backquoted x.plainText
  | .str t => "string " ++ quoted t
  | .unit => "unit value"
  | .seq => "sequence"
  | .map => "map"
  | .tagged => "enum"

/-- What was expected where one of some names has to stand. -/
def expectedNames : List String → String
  | [] => "there are no fields"
  | [a] => "expected " ++ backquoted a
  | [a, b] => "expected " ++ backquoted a ++ " or " ++ backquoted b
  | names => "expected one of " ++ ", ".intercalate (names.map backquoted)

/-- How a repeated key is named. -/
def duplicateKeyText : Value → String
  | .null => "with null key"
  | .bool b => "with key " ++ backquoted (if b then "true" else "false")
  | .int n => "with key " ++ intText n
  | .float x => "with key " ++ x.text
  | .str t => "with key " ++ quoted t
  | _ => "in YAML map"

def Cause.message : Cause → String
  | .missingField name => "missing field " ++ backquoted name
  | .unknownField name known => "unknown field " ++ backquoted name ++ ", " ++ expectedNames known
  | .duplicateField name => "duplicate field " ++ backquoted name
  | .unknownVariant name known =>
    "unknown variant " ++ backquoted name ++ ", " ++ expectedNames known
  | .invalidType found expected => "invalid type: " ++ found.text ++ ", expected " ++ expected
  | .invalidValue found expected => "invalid value: " ++ found.text ++ ", expected " ++ expected
  | .noVariant choice => "data did not match any variant of untagged enum " ++ choice
  | .taggedChoice => "untagged and internally tagged enums do not support enum input"
  | .duplicateKey key => "duplicate entry " ++ duplicateKeyText key
  | .tooDeep => "recursion limit exceeded"

/-- The text of a place below the place with text `before`. -/
def placeText (before : String) : Place → String
  | [] => before
  | .item i :: rest => placeText (before ++ "[" ++ intText i ++ "]") rest
  | .key name :: rest => placeText (if before = "" then name else before ++ "." ++ name) rest
  | .unnamed :: rest => placeText (if before = "" then "?" else before ++ ".?") rest

def ReadError.message (e : ReadError) : String :=
  match e.place with
  | none | some [] => e.cause.message
  | some place => placeText "" place ++ ": " ++ e.cause.message

/-- Why a text cannot be read: it is not well-formed, or its data does not fit. -/
inductive TextError where
  | malformed
  | unfit (error : ReadError)
deriving DecidableEq, Repr

/-! ## Raising and placing -/

/-- An error whose place is not known yet. -/
def Read.fail {α : Type} (cause : Cause) : Read α :=
  .error ⟨cause, none⟩

/-- Reports an error that has no place yet at the given one. -/
def Read.placed {α : Type} (place : Option Place) : Read α → Read α
  | .error ⟨cause, none⟩ => .error ⟨cause, place⟩
  | r => r

@[simp] theorem Read.placed_none {α : Type} (r : Read α) : Read.placed none r = r := by
  unfold Read.placed
  split
  · rfl
  · rfl

end JobConfig

import JobConfig.Reading.FromValue

/-!
# Literals

A `Literal` is what a parameter can stand for: a flag, a 64-bit integer or a text. It is written
as the plain scalar it is, and read by its shape, so `true`, `3` and `"3"` are three different
literals.
-/

namespace JobConfig

/-- A parameter's default, or a value supplied for it. -/
inductive Literal where
  | bool (b : Bool)
  | int (n : Int64)
  | str (text : String)
deriving DecidableEq, Repr

namespace Literal

/-- The name of a literal's shape. -/
def kindName : Literal → String
  | .bool _ => "boolean"
  | .int _ => "integer"
  | .str _ => "string"

/-- The text a literal is interpolated as. -/
def text : Literal → String
  | .bool b => if b then "true" else "false"
  | .int n => intText n.toInt
  | .str t => t

/-- The text of a textual literal. -/
def str? : Literal → Option String
  | .str t => some t
  | _ => none

def toValue : Literal → Value
  | .bool b => .bool b
  | .int n => .int n.toInt
  | .str t => .str t

/-- The literal that a value is, if it is one: an integer has to fit 64 bits with sign. -/
def ofValue? : Value → Option Literal
  | .bool b => some (.bool b)
  | .int n => if fitsInt64 n then some (.int (Int64.ofInt n)) else none
  | .str t => some (.str t)
  | _ => none

/-- Reads a literal by its shape. -/
def read {σ : Type} [Source σ] (s : σ) : Read Literal := do
  let v ← Source.shape s
  match ofValue? v with
  | some l => return l
  | none => Read.fail (.noVariant "ParameterValue")

@[simp] theorem ofValue?_toValue (l : Literal) : ofValue? l.toValue = some l := by
  cases l with
  | bool b => rfl
  | int n =>
    simp only [toValue, ofValue?, if_pos (fitsInt64_toInt n), Int64.ofInt_toInt]
  | str t => rfl

end Literal

end JobConfig

import JobConfig.Decimal.Reading

/-!
# Plain scalars

What an unquoted scalar of a YAML text stands for, by the core rules of YAML 1.2: null, a flag, an
integer, a float, or else the text itself. Integers may have a sign and a base (`0x`, `0o`, `0b`);
decimal digits behind a leading zero are a text. `Plain.of` decides, and `readsAsText` says which
texts a writer can leave unquoted without changing what they stand for.
-/

namespace JobConfig.Yaml

/-- What a plain scalar stands for. An integer that no 64-bit type holds is `wide`. -/
inductive Plain where
  | null
  | bool (b : Bool)
  | int (n : Int)
  | wide (n : Int)
  | float (x : Double)
  | str
deriving DecidableEq, Repr

/-! ## Numbers -/

/-- Several decimal digits of which the first is zero: a text and no number. -/
def hasLeadingZero (cs : List Char) : Bool :=
  match unsigned cs with
  | '0' :: d :: rest => (d :: rest).all Char.isDigit
  | _ => false

/-- The number that digits stand for, with a base in front of them or without. -/
def natural? : List Char → Option Nat
  | '0' :: 'x' :: rest => digits? 16 rest
  | '0' :: 'o' :: rest => digits? 8 rest
  | '0' :: 'b' :: rest => digits? 2 rest
  | cs => if hasLeadingZero cs then none else digits? 10 cs

/-- The integer that a plain scalar is, if it is one. -/
def integer? : List Char → Option Int
  | '-' :: rest => (natural? rest).map fun n => -(n : Int)
  | '+' :: rest => (natural? rest).map fun n => (n : Int)
  | cs => (natural? cs).map fun n => (n : Int)

/-- The finite number that a decimal stands for, if the format has one. -/
def finite? (negative : Bool) (cs : List Char) : Option Double :=
  (decimal? cs).bind fun d =>
    let x := Double.ofDecimal negative d.digits d.exponent
    if x.isInfinite then none else some x

/-- The number that a plain scalar is, if it is one that is no integer. -/
def float? (text : String) : Option Double :=
  if text ∈ [".inf", ".Inf", ".INF", "+.inf", "+.Inf", "+.INF"] then some (.infinity false)
  else if text ∈ ["-.inf", "-.Inf", "-.INF"] then some (.infinity true)
  else if text ∈ [".nan", ".NaN", ".NAN"] then some .nan
  else match text.toList with
    | '-' :: rest => finite? true rest
    | '+' :: rest => finite? false rest
    | cs => finite? false cs

/-! ## Scalars -/

def isNull (text : String) : Bool :=
  text ∈ ["null", "Null", "NULL", "~"]

def bool? (text : String) : Option Bool :=
  if text ∈ ["true", "True", "TRUE"] then some true
  else if text ∈ ["false", "False", "FALSE"] then some false
  else none

/-- An integer, by the type that holds it; beyond 128 bits it is no integer. -/
def Plain.ofInt? (n : Int) : Option Plain :=
  if -(Nat.pow 2 63 : Int) ≤ n ∧ n < Nat.pow 2 64 then some (.int n)
  else if -(Nat.pow 2 127 : Int) ≤ n ∧ n < Nat.pow 2 128 then some (.wide n)
  else none

/-- What a plain scalar stands for. -/
def Plain.of (text : String) : Plain :=
  if text.isEmpty || isNull text then .null
  else match bool? text with
  | some b => .bool b
  | none =>
    match (integer? text.toList).bind Plain.ofInt? with
    | some p => p
    | none =>
      if hasLeadingZero text.toList then .str
      else match float? text with
      | some x => .float x
      | none => .str

/-- Whether a text left unquoted would be taken for itself, and for a text. -/
def readsAsText (text : String) : Bool :=
  Plain.of text = .str && !hasLeadingZero text.toList

end JobConfig.Yaml

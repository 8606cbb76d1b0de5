import JobConfig.Parameter.Literal
import JobConfig.Yaml.Read

/-!
# Overrides

A value for a parameter, as it is given on the command line: `NAME=VALUE`. The value is read as
YAML, so that flags and integers can be given; what is no literal then is taken as it stands.
-/

namespace JobConfig.CommandLine

/-- Why an argument is no override. -/
inductive OverrideError where
  | noSeparator (argument : String)
  | noName (argument : String)
deriving DecidableEq, Repr

def OverrideError.message : OverrideError → String
  | .noSeparator a => "expected NAME=VALUE, got " ++ backquoted a
  | .noName a => "missing parameter name in " ++ backquoted a

/-- What stands in front of the first equals sign, and behind it. -/
def splitAtEquals : List Char → Option (List Char × List Char)
  | [] => none
  | c :: rest =>
    if c = '=' then some ([], rest)
    else (splitAtEquals rest).map fun s => (c :: s.1, s.2)

/-- The literal that a text stands for. -/
def literalOf (text : String) : Literal :=
  match Yaml.readText Literal.read text with
  | .ok l => l
  | .error _ => .str text

/-- A parameter's name and the value for it. -/
def readOverride (argument : String) : Except OverrideError (String × Literal) :=
  match splitAtEquals argument.toList with
  | none => .error (.noSeparator argument)
  | some (name, value) =>
    if name.isEmpty then .error (.noName argument)
    else .ok (String.ofList name, literalOf (String.ofList value))

end JobConfig.CommandLine

import JobConfig.CommandLine.Override

/-!
# Arguments

The commands, their switches, and how a list of arguments is read as a command
(`Command.ofArguments`). A switch's value stands behind an equals sign, or is the next argument;
in the second case it is looked at when the next switch is known, or the arguments end. An
argument that the command has no place for is the error, whatever is still to be looked at.
-/

namespace JobConfig.CommandLine

/-! ## Commands -/

/-- A command with what it needs to know. -/
inductive Command where
  | generate (root : String) (flatten : Bool) (overrides : List (String × Literal))
      (output : Option String)
  | check (root : String)
deriving DecidableEq, Repr

/-- The directory that a command works in. -/
def Command.root : Command → String
  | .generate root _ _ _ => root
  | .check root => root

/-- What follows the name of the program. -/
inductive Verb where
  | generate
  | check
deriving DecidableEq, Repr

def Verb.name : Verb → String
  | .generate => "generate"
  | .check => "check"

def Verb.all : List Verb := [.generate, .check]

def Verb.ofName? (name : String) : Option Verb :=
  Verb.all.find? fun v => v.name = name

/-- The name of the command that shows help. -/
def helpName : String := "help"

/-- A switch behind a command. -/
inductive Switch where
  | root
  | flatten
  | set
  | output
  | help
deriving DecidableEq, Repr

namespace Switch

/-- The name behind two dashes. -/
def long : Switch → String
  | .root => "root"
  | .flatten => "flatten"
  | .set => "set"
  | .output => "output"
  | .help => "help"

/-- The letter behind one dash. -/
def short? : Switch → Option Char
  | .output => some 'o'
  | .help => some 'h'
  | _ => none

def takesValue : Switch → Bool
  | .root | .set | .output => true
  | .flatten | .help => false

end Switch

/-- The switches of a command. -/
def Verb.switches : Verb → List Switch
  | .generate => [.root, .flatten, .set, .output, .help]
  | .check => [.root, .help]

/-- Why arguments are no command. -/
inductive UsageError where
  | missingCommand
  | unknownCommand (name : String)
  | unknownArgument (argument : String)
  /-- A switch that may be given once is given again. -/
  | repeatedSwitch (s : Switch)
  /-- A switch that takes no value is given one. -/
  | unexpectedValue (s : Switch)
  | missingValue (s : Switch)
  | invalidOverride (cause : OverrideError)
  /-- Help is asked for. -/
  | help
deriving DecidableEq, Repr

def UsageError.message : UsageError → String
  | .missingCommand => "a command is required"
  | .unknownCommand name => "unrecognized command " ++ quoted name
  | .unknownArgument a => "unexpected argument " ++ quoted a
  | .repeatedSwitch s => "--" ++ s.long ++ " cannot be used more than once"
  | .unexpectedValue s => "--" ++ s.long ++ " takes no value"
  | .missingValue s => "--" ++ s.long ++ " needs a value"
  | .invalidOverride e => e.message
  | .help => "Usage: generate [--root DIR] [--flatten] [--set NAME=VALUE]... [--output FILE]\n" ++
      "       check [--root DIR]"

/-! ## The shape of an argument -/

/-- The name and the value of an argument that begins with two dashes. -/
def longParts? (argument : String) : Option (String × Option String) :=
  match argument.toList with
  | '-' :: '-' :: cs =>
    match splitAtEquals cs with
    | none => some (String.ofList cs, none)
    | some (name, value) => some (String.ofList name, some (String.ofList value))
  | _ => none

/-- The letter of an argument that begins with one dash, and what follows it. -/
def shortParts? (argument : String) : Option (Char × List Char) :=
  match argument.toList with
  | '-' :: c :: rest => if c = '-' then none else some (c, rest)
  | _ => none

/-- The value behind a letter, perhaps after an equals sign. -/
def shortValue? : List Char → Option String
  | [] => none
  | '=' :: rest => some (String.ofList rest)
  | cs => some (String.ofList cs)

/-! ## Switches -/

/-- A switch whose value is not looked at yet. -/
structure Pending where
  switch : Switch
  value : Option String
deriving DecidableEq, Repr

/-- What the switches read so far have set. -/
structure Settled where
  root : Option String
  flatten : Bool
  overrides : List (String × Literal)
  output : Option String
  pending : Option Pending
deriving DecidableEq, Repr

/-- The outcome of reading arguments. -/
abbrev Parsed (α : Type) := Except UsageError α

namespace Settled

def start : Settled := ⟨none, false, [], none, none⟩

/-- A path for a switch that may have one. -/
def onePath (s : Switch) (old : Option String) (value : String) : Parsed (Option String) :=
  if old.isSome then .error (.repeatedSwitch s)
  else if value.isEmpty then .error (.missingValue s)
  else .ok (some value)

/-- A switch with its value. -/
def apply (st : Settled) (s : Switch) (value : String) : Parsed Settled :=
  match s with
  | .root => do
    let root ← onePath s st.root value
    return { st with root }
  | .output => do
    let output ← onePath s st.output value
    return { st with output }
  | .set => do
    let o ← (readOverride value).mapError .invalidOverride
    return { st with overrides := st.overrides ++ [o] }
  | .flatten | .help => .error (.unexpectedValue s)

/-- A switch without a value. -/
def flag (st : Settled) (s : Switch) : Parsed Settled :=
  match s with
  | .help => .error .help
  | .flatten =>
    if st.flatten then .error (.repeatedSwitch s) else .ok { st with flatten := true }
  | .root | .set | .output => .error (.missingValue s)

/-- Looks at the value of the last switch. -/
def settle (st : Settled) : Parsed Settled :=
  match st.pending with
  | none => .ok st
  | some ⟨s, none⟩ => .error (.missingValue s)
  | some ⟨s, some value⟩ => { st with pending := none }.apply s value

/-- A switch, and the value that is part of its argument. -/
def read (st : Settled) (s : Switch) (value : Option String) : Parsed Settled := do
  let st ← st.settle
  match value with
  | some v => st.apply s v
  | none => if s.takesValue then return { st with pending := some ⟨s, none⟩ } else st.flag s

/-- An argument that is no switch: the value of the one before it, if that needs one. -/
def word (st : Settled) (argument : String) : Parsed Settled :=
  match st.pending with
  | some ⟨s, none⟩ => .ok { st with pending := some ⟨s, some argument⟩ }
  | _ => .error (.unknownArgument argument)

/-- An argument of a command with some switches. -/
def argument (switches : List Switch) (st : Settled) (a : String) : Parsed Settled :=
  match longParts? a with
  | some (name, value) =>
    match switches.find? fun s => s.long = name with
    | none => .error (.unknownArgument a)
    | some s =>
      if value.isSome && !s.takesValue then .error (.unexpectedValue s) else st.read s value
  | none =>
    match shortParts? a with
    | some (c, rest) =>
      match switches.find? fun s => s.short? = some c with
      | none => .error (.unknownArgument a)
      | some s => st.read s (if s.takesValue then shortValue? rest else none)
    | none => st.word a

/-- The arguments of a command. Nothing may stand behind two dashes alone. -/
def arguments (switches : List Switch) : Settled → List String → Parsed Settled
  | st, [] => st.settle
  | st, a :: rest =>
    if a = "--" then
      match rest with
      | [] => st.settle
      | b :: _ => .error (.unknownArgument b)
    else do
      let st ← argument switches st a
      arguments switches st rest

end Settled

/-! ## Command lines -/

/-- The directory that a command works in unless it is told another. -/
def defaultRoot : String := "."

/-- The command that a verb and its arguments are. -/
def Verb.command (v : Verb) (args : List String) : Parsed Command := do
  let st ← Settled.arguments v.switches .start args
  let root := st.root.getD defaultRoot
  match v with
  | .generate => return .generate root st.flatten st.overrides st.output
  | .check => return .check root

/-- What asking for help about a command answers. -/
def helpAbout : List String → UsageError
  | [] => .help
  | name :: rest =>
    if (Verb.ofName? name).isNone && name ≠ helpName then .unknownCommand name
    else match rest with
    | [] => .help
    | other :: _ => .unknownCommand other

/-- An argument in front of which there is no command. -/
def noCommand (a : String) : UsageError :=
  match longParts? a with
  | some (name, value) =>
    if name ≠ Switch.help.long then .unknownArgument a
    else if value.isSome then .unexpectedValue .help
    else .help
  | none =>
    match shortParts? a with
    | some (c, _) => if Switch.help.short? = some c then .help else .unknownArgument a
    | none => .unknownCommand a

/-- The command that some arguments are. -/
def Command.ofArguments : List String → Parsed Command
  | [] => .error .missingCommand
  | a :: rest =>
    match Verb.ofName? a with
    | some v => v.command rest
    | none =>
      if a = helpName then .error (helpAbout rest)
      else if a = "--" then
        match rest with
        | [] => .error .missingCommand
        | b :: _ =>
          if (Verb.ofName? b).isSome || b = helpName then .error (.unknownArgument b)
          else .error (.unknownCommand b)
      else .error (noCommand a)

end JobConfig.CommandLine

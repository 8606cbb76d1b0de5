import JobConfig.Step

/-!
# Executors

Where a job runs: in containers, on a machine image, on macOS, or in an executor that is declared
elsewhere and referred to by name. `Executor.fragment` gives the entries that a job takes over
into its own contents: one for the executor, and one for its resource class if it has one.
-/

namespace JobConfig

/-! ## Kinds of executors -/

/-- A container image and how to run it. -/
structure DockerImage where
  image : String
  name : Option String := none
  entrypoint : Option (List String) := none
  command : Option (List String) := none
  user : Option String := none
  environment : Dict String := ∅
deriving DecidableEq, Repr

/-- A machine image. -/
structure MachineSettings where
  image : String
  dockerLayerCaching : Option Bool := none
deriving DecidableEq, Repr

/-- A version of Xcode. -/
structure MacosSettings where
  xcode : String
deriving DecidableEq, Repr

/-- Where a job runs. Of several container images the first is the primary one. -/
inductive Executor where
  | docker (images : List DockerImage) (resourceClass : Option String)
  | machine (settings : MachineSettings) (resourceClass : Option String)
  | macos (settings : MacosSettings) (resourceClass : Option String)
  | reusable (name : String) (arguments : Dict Literal)
deriving DecidableEq, Repr

/-! ## Reading -/

section Fields

variable {σ : Type} [Source σ]

def DockerImage.fields : Fields σ DockerImage :=
  Fields.required "image" Source.str |>.map DockerImage.mk
    |>.and (.optional "name" Source.str)
    |>.and (.optional "entrypoint" (Source.readList Source.str))
    |>.and (.optional "command" (Source.readList Source.str))
    |>.and (.optional "user" Source.str)
    |>.and (.defaulted "environment" (Source.readDict Source.str) ∅)

def MachineSettings.fields : Fields σ MachineSettings :=
  Fields.required "image" Source.str |>.map MachineSettings.mk
    |>.and (.optional "docker_layer_caching" Source.bool)

def MacosSettings.fields : Fields σ MacosSettings :=
  Fields.required "xcode" Source.str |>.map MacosSettings.mk

def DockerImage.read (s : σ) : Read DockerImage :=
  DockerImage.fields.read "DockerImage" true s

def MachineSettings.read (s : σ) : Read MachineSettings :=
  MachineSettings.fields.read "MachineParameters" true s

def MacosSettings.read (s : σ) : Read MacosSettings :=
  MacosSettings.fields.read "MacosParameters" true s

end Fields

/-! ## Writing -/

def DockerImage.toValue (i : DockerImage) : Value :=
  .record [
    ("image", some (.str i.image)),
    ("name", i.name.map .str),
    ("entrypoint", i.entrypoint.map .strs),
    ("command", i.command.map .strs),
    ("user", i.user.map .str),
    ("environment", environmentValue i.environment)]

def MachineSettings.toValue (m : MachineSettings) : Value :=
  .record [
    ("image", some (.str m.image)),
    ("docker_layer_caching", m.dockerLayerCaching.map .bool)]

def MacosSettings.toValue (m : MacosSettings) : Value :=
  .record [("xcode", some (.str m.xcode))]

/-- Entries with the references in their values resolved, one after the other. -/
def Context.resolveEntries (ctx : Context) :
    List (String × Value) → Generated (List (String × Value))
  | [] => .ok []
  | (name, value) :: rest => do
    let value ← ctx.resolveValue value
    let rest ← ctx.resolveEntries rest
    return (name, value) :: rest

namespace Executor

/-- The component that an executor is. -/
def component : Executor → Component
  | .docker .. => .dockerExecutor
  | .machine .. => .machineExecutor
  | .macos .. => .macosExecutor
  | .reusable .. => .reusableExecutor

/-- The executor with one more container beside the primary one. -/
def withService (image : DockerImage) : Executor → Executor
  | .docker images c => .docker (images ++ [image]) c
  | e => e

/-- The executor with an argument set. -/
def withArgument (argument : String) (value : Literal) : Executor → Executor
  | .reusable name arguments => .reusable name (arguments.insert argument value)
  | e => e

/-- The executor with its resource class set; a reusable one has none of its own. -/
def withResourceClass (c : String) : Executor → Executor
  | .docker images _ => .docker images (some c)
  | .machine m _ => .machine m (some c)
  | .macos m _ => .macos m (some c)
  | .reusable name arguments => .reusable name arguments

def resourceClass : Executor → Option String
  | .docker _ c => c
  | .machine _ c => c
  | .macos _ c => c
  | .reusable .. => none

/-- How a reusable executor is referred to: by its name alone, or by a mapping that starts with
its name and goes on with its arguments. An argument called `name` takes the name's place. -/
def reference (name : String) (arguments : Dict Literal) : Value :=
  if arguments.isEmpty then .str name
  else
    .ofEntries (arguments.entries.foldl (fun d a => d.insert a.1 a.2.toValue)
      ((∅ : Dict Value).insert "name" (.str name))).entries

/-- The key and the value that say what the executor is. -/
def description : Executor → String × Value
  | .docker images _ => ("docker", .seq (images.map DockerImage.toValue))
  | .machine m _ => ("machine", m.toValue)
  | .macos m _ => ("macos", m.toValue)
  | .reusable name arguments => ("executor", reference name arguments)

/-- The entries of an executor as they are written. -/
def written (e : Executor) : List (String × Value) :=
  e.description :: (e.resourceClass.map fun c => ("resource_class", Value.str c)).toList

/-- The entries that a job takes over, their references resolved as the context says. -/
def fragment (e : Executor) (ctx : Context) : Generated (List (String × Value)) :=
  ctx.resolveEntries e.written

/-- The executor's entries as a mapping. -/
def contents (e : Executor) (ctx : Context) : Generated Value :=
  Value.ofEntries <$> e.fragment ctx

end Executor

end JobConfig

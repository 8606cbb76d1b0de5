import JobConfig.Document

/-!
# Definitions

What the files of a project say: the global `Settings`, and the definitions of executors and of
jobs. Definitions are read in the form in which the components they define are written.
-/

namespace JobConfig

/-! ## Settings -/

/-- The global settings of a project. -/
structure Settings where
  /-- The version of the schema, at the top of every document. -/
  version : Double
  /-- Whether documents are flattened when nothing else is asked for. -/
  flatten : Bool
deriving DecidableEq, Repr

namespace Settings

/-- The version that documents have when the settings give none: 2.1. -/
def defaultVersion : Double :=
  .ofDecimal false 21 (-1)

instance : Inhabited Settings := ⟨defaultVersion, false⟩

def fields {σ : Type} [Source σ] : Fields σ Settings :=
  Fields.defaulted "version" Source.float defaultVersion |>.map Settings.mk
    |>.and (.defaulted "flatten" Source.bool false)

/-- Reads settings; entries that are none of their fields are passed over. -/
def read {σ : Type} [Source σ] (s : σ) : Read Settings :=
  fields.read "GlobalConfig" false s

def toValue (s : Settings) : Value :=
  .ofEntries [("version", .float s.version), ("flatten", .bool s.flatten)]

end Settings

/-! ## Executors -/

/-- The definition of an executor. One that can be built has exactly one of the three kinds. -/
structure ExecutorDefinition where
  name : String
  docker : Option (List DockerImage)
  machine : Option MachineSettings
  macos : Option MacosSettings
  resourceClass : Option String
deriving DecidableEq, Repr

namespace ExecutorDefinition

def fields {σ : Type} [Source σ] : Fields σ ExecutorDefinition :=
  Fields.required "name" Source.str |>.map ExecutorDefinition.mk
    |>.and (.optional "docker" (Source.readList DockerImage.read))
    |>.and (.optional "machine" MachineSettings.read)
    |>.and (.optional "macos" MacosSettings.read)
    |>.and (.optional "resource_class" Source.str)

def read {σ : Type} [Source σ] (s : σ) : Read ExecutorDefinition :=
  fields.read "ExecutorDefinition" true s

/-- The executor that is defined, if it is exactly one: containers with at least one image, a
machine, or macOS. -/
def executor? (d : ExecutorDefinition) : Option Executor :=
  match d.docker, d.machine, d.macos with
  | some (image :: more), none, none => some (.docker (image :: more) d.resourceClass)
  | none, some m, none => some (.machine m d.resourceClass)
  | none, none, some m => some (.macos m d.resourceClass)
  | _, _, _ => none

end ExecutorDefinition

/-! ## Jobs -/

/-- How a job names its executor: by a name alone, or by a mapping of a name and arguments. -/
inductive ExecutorReference where
  | name (name : String)
  | invocation (arguments : Dict Literal)
deriving DecidableEq, Repr

namespace ExecutorReference

/-- The arguments that the entries of a mapping give, if their keys are texts and their values
literals. -/
def arguments? : List (Value × Value) → Option (List (String × Literal))
  | [] => some []
  | (.str k, v) :: rest => do
    let l ← Literal.ofValue? v
    let rest ← arguments? rest
    return (k, l) :: rest
  | _ => none

/-- The reference that a value is, if it is one. -/
def ofValue? : Value → Option ExecutorReference
  | .str n => some (.name n)
  | .map entries => (arguments? entries).map fun es => .invocation (Dict.ofList es)
  | _ => none

/-- Reads a reference by its shape. -/
def read {σ : Type} [Source σ] (s : σ) : Read ExecutorReference := do
  let v ← Source.shape s
  match ofValue? v with
  | some r => return r
  | none => Read.fail (.noVariant "ExecutorReference")

end ExecutorReference

/-- The definition of a job. Its steps are read only when the job is built. -/
structure JobDefinition where
  name : String
  executor : ExecutorReference
  steps : List Value
  /-- The parameters; a job that has this section, even an empty one, is parameterized. -/
  parameters : Option (Dict Declaration)
  parallelism : Option Parallelism
  environment : Dict String
  shell : Option String
  workingDirectory : Option String
deriving DecidableEq, Repr

namespace JobDefinition

def fields {σ : Type} [Source σ] : Fields σ JobDefinition :=
  Fields.required "name" Source.str |>.map JobDefinition.mk
    |>.and (.required "executor" ExecutorReference.read)
    |>.and (.defaulted "steps" (Source.readList Source.value) [])
    |>.and (.optional "parameters" (Source.readDict Declaration.read))
    |>.and (.optional "parallelism" Source.parallelism)
    |>.and (.defaulted "environment" (Source.readDict Source.str) ∅)
    |>.and (.optional "shell" Source.str)
    |>.and (.optional "working_directory" Source.str)

def read {σ : Type} [Source σ] (s : σ) : Read JobDefinition :=
  fields.read "JobDefinition" true s

/-- The settings of the job that is defined. -/
def properties (d : JobDefinition) : JobProperties :=
  ⟨d.parallelism, d.environment, d.shell, d.workingDirectory⟩

end JobDefinition

end JobConfig

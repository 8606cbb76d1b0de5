import JobConfig.Context

/-!
# Steps

The steps of a job: eight kinds, each with a record of settings. A step is written as a mapping of
one entry, its kind to its settings, or as the bare kind when nothing is set (`Step.written`), and
`Step.ofValue` reads either form. Generating a step resolves the references in what is written.
-/

namespace JobConfig

/-- When a step is run. -/
inductive RunWhen where
  | always
  | onSuccess
  | onFail
deriving DecidableEq, Repr

def RunWhen.all : List RunWhen :=
  [.always, .onSuccess, .onFail]

def RunWhen.name : RunWhen → String
  | .always => "always"
  | .onSuccess => "on_success"
  | .onFail => "on_fail"

/-- Variables written as a mapping; no entry at all when there are none. -/
def environmentValue (environment : Dict String) : Option Value :=
  if environment.isEmpty then none
  else some (.ofEntries (environment.map Value.str).entries)

/-! ## Settings -/

/-- Settings of a step that checks out the code. -/
structure CheckoutStep where
  path : Option String := none
deriving DecidableEq, Repr

/-- Settings of a step that runs a shell command. -/
structure RunStep where
  command : String
  name : Option String := none
  shell : Option String := none
  environment : Dict String := ∅
  background : Option Bool := none
  workingDirectory : Option String := none
  noOutputTimeout : Option String := none
  runWhen : Option RunWhen := none
deriving DecidableEq, Repr

/-- Settings of a step that saves paths under a cache key. -/
structure SaveCacheStep where
  key : String
  paths : List String
  name : Option String := none
  runWhen : Option RunWhen := none
deriving DecidableEq, Repr

/-- Settings of a step that restores the first cache found under some keys. -/
structure RestoreCacheStep where
  keys : List String
  name : Option String := none
deriving DecidableEq, Repr

/-- Settings of a step that keeps paths for later jobs. -/
structure PersistToWorkspaceStep where
  root : String
  paths : List String
deriving DecidableEq, Repr

/-- Settings of a step that fetches what earlier jobs kept. -/
structure AttachWorkspaceStep where
  directory : String
deriving DecidableEq, Repr

/-- Settings of a step that uploads artifacts. -/
structure StoreArtifactsStep where
  path : String
  destination : Option String := none
deriving DecidableEq, Repr

/-- Settings of a step that uploads test results. -/
structure StoreTestResultsStep where
  path : String
deriving DecidableEq, Repr

/-- A step of a job. -/
inductive Step where
  | checkout (settings : CheckoutStep)
  | run (settings : RunStep)
  | saveCache (settings : SaveCacheStep)
  | restoreCache (settings : RestoreCacheStep)
  | persistToWorkspace (settings : PersistToWorkspaceStep)
  | attachWorkspace (settings : AttachWorkspaceStep)
  | storeArtifacts (settings : StoreArtifactsStep)
  | storeTestResults (settings : StoreTestResultsStep)
deriving DecidableEq, Repr

/-! ## Writing -/

def RunWhen.toValue (w : RunWhen) : Value :=
  .str w.name

def CheckoutStep.entries (s : CheckoutStep) : List (String × Value) :=
  Value.setFields [("path", s.path.map .str)]

def RunStep.entries (s : RunStep) : List (String × Value) :=
  Value.setFields [
    ("command", some (.str s.command)),
    ("name", s.name.map .str),
    ("shell", s.shell.map .str),
    ("environment", environmentValue s.environment),
    ("background", s.background.map .bool),
    ("working_directory", s.workingDirectory.map .str),
    ("no_output_timeout", s.noOutputTimeout.map .str),
    ("when", s.runWhen.map RunWhen.toValue)]

def SaveCacheStep.entries (s : SaveCacheStep) : List (String × Value) :=
  Value.setFields [
    ("key", some (.str s.key)),
    ("paths", some (.strs s.paths)),
    ("name", s.name.map .str),
    ("when", s.runWhen.map RunWhen.toValue)]

def RestoreCacheStep.entries (s : RestoreCacheStep) : List (String × Value) :=
  Value.setFields [("keys", some (.strs s.keys)), ("name", s.name.map .str)]

def PersistToWorkspaceStep.entries (s : PersistToWorkspaceStep) : List (String × Value) :=
  Value.setFields [("root", some (.str s.root)), ("paths", some (.strs s.paths))]

def AttachWorkspaceStep.entries (s : AttachWorkspaceStep) : List (String × Value) :=
  Value.setFields [("at", some (.str s.directory))]

def StoreArtifactsStep.entries (s : StoreArtifactsStep) : List (String × Value) :=
  Value.setFields [("path", some (.str s.path)), ("destination", s.destination.map .str)]

def StoreTestResultsStep.entries (s : StoreTestResultsStep) : List (String × Value) :=
  Value.setFields [("path", some (.str s.path))]

namespace Step

/-- The written name of a step's kind. -/
def kind : Step → String
  | .checkout _ => "checkout"
  | .run _ => "run"
  | .saveCache _ => "save_cache"
  | .restoreCache _ => "restore_cache"
  | .persistToWorkspace _ => "persist_to_workspace"
  | .attachWorkspace _ => "attach_workspace"
  | .storeArtifacts _ => "store_artifacts"
  | .storeTestResults _ => "store_test_results"

/-- The component that a step is. -/
def component : Step → Component
  | .checkout _ => .checkout
  | .run _ => .run
  | .saveCache _ => .saveCache
  | .restoreCache _ => .restoreCache
  | .persistToWorkspace _ => .persistToWorkspace
  | .attachWorkspace _ => .attachWorkspace
  | .storeArtifacts _ => .storeArtifacts
  | .storeTestResults _ => .storeTestResults

/-- The settings that are set, as they are written. -/
def entries : Step → List (String × Value)
  | .checkout s => s.entries
  | .run s => s.entries
  | .saveCache s => s.entries
  | .restoreCache s => s.entries
  | .persistToWorkspace s => s.entries
  | .attachWorkspace s => s.entries
  | .storeArtifacts s => s.entries
  | .storeTestResults s => s.entries

/-- A step as it is written: the bare kind when nothing is set. -/
def written (s : Step) : Value :=
  match s.entries with
  | [] => .str s.kind
  | set => .keyed s.kind (.ofEntries set)

/-- The step in a document, its references resolved as the context says. -/
def contents (s : Step) (ctx : Context) : Generated Value :=
  ctx.resolveValue s.written

end Step

/-! ## Reading -/

/-- Why a value is not a step. -/
inductive StepError where
  | unknownKind (kind : String)
  | kindNotText
  | malformed
  | parameters (kind : String) (cause : ReadError)
deriving DecidableEq, Repr

def StepError.message : StepError → String
  | .unknownKind kind => "Unknown step kind " ++ quoted kind
  | .kindNotText => "Malformed step: step kind must be a string"
  | .malformed => "Malformed step: expected a step name or a single-key mapping"
  | .parameters kind cause => "Invalid parameters for " ++ kind ++ " step: " ++ cause.message

section Fields

variable {σ : Type} [Source σ]

/-- Reads when a step is run. -/
def RunWhen.read (s : σ) : Read RunWhen :=
  Source.choice (RunWhen.all.map fun w => (w.name, w)) s

def CheckoutStep.fields : Fields σ CheckoutStep :=
  Fields.optional "path" Source.str |>.map CheckoutStep.mk

def RunStep.fields : Fields σ RunStep :=
  Fields.required "command" Source.str |>.map RunStep.mk
    |>.and (.optional "name" Source.str)
    |>.and (.optional "shell" Source.str)
    |>.and (.defaulted "environment" (Source.readDict Source.str) ∅)
    |>.and (.optional "background" Source.bool)
    |>.and (.optional "working_directory" Source.str)
    |>.and (.optional "no_output_timeout" Source.str)
    |>.and (.optional "when" RunWhen.read)

def SaveCacheStep.fields : Fields σ SaveCacheStep :=
  Fields.required "key" Source.str |>.map SaveCacheStep.mk
    |>.and (.required "paths" (Source.readList Source.str))
    |>.and (.optional "name" Source.str)
    |>.and (.optional "when" RunWhen.read)

def RestoreCacheStep.fields : Fields σ RestoreCacheStep :=
  Fields.required "keys" (Source.readList Source.str) |>.map RestoreCacheStep.mk
    |>.and (.optional "name" Source.str)

def PersistToWorkspaceStep.fields : Fields σ PersistToWorkspaceStep :=
  Fields.required "root" Source.str |>.map PersistToWorkspaceStep.mk
    |>.and (.required "paths" (Source.readList Source.str))

def AttachWorkspaceStep.fields : Fields σ AttachWorkspaceStep :=
  Fields.required "at" Source.str |>.map AttachWorkspaceStep.mk

def StoreArtifactsStep.fields : Fields σ StoreArtifactsStep :=
  Fields.required "path" Source.str |>.map StoreArtifactsStep.mk
    |>.and (.optional "destination" Source.str)

def StoreTestResultsStep.fields : Fields σ StoreTestResultsStep :=
  Fields.required "path" Source.str |>.map StoreTestResultsStep.mk

end Fields

namespace Step

/-- Reads the settings of a step of the given kind; `none` for a kind that does not exist. -/
def readSettings? (kind : String) (settings : Value) : Option (Read Step) :=
  match kind with
  | "checkout" => some (.checkout <$> CheckoutStep.fields.read "CheckoutParameters" true settings)
  | "run" => some (.run <$> RunStep.fields.read "RunParameters" true settings)
  | "save_cache" =>
    some (.saveCache <$> SaveCacheStep.fields.read "SaveCacheParameters" true settings)
  | "restore_cache" =>
    some (.restoreCache <$> RestoreCacheStep.fields.read "RestoreCacheParameters" true settings)
  | "persist_to_workspace" =>
    some (.persistToWorkspace <$>
      PersistToWorkspaceStep.fields.read "PersistToWorkspaceParameters" true settings)
  | "attach_workspace" =>
    some (.attachWorkspace <$>
      AttachWorkspaceStep.fields.read "AttachWorkspaceParameters" true settings)
  | "store_artifacts" =>
    some (.storeArtifacts <$>
      StoreArtifactsStep.fields.read "StoreArtifactsParameters" true settings)
  | "store_test_results" =>
    some (.storeTestResults <$>
      StoreTestResultsStep.fields.read "StoreTestResultsParameters" true settings)
  | _ => none

/-- The kind and the settings that a value gives: a bare kind has no settings. -/
def split : Value → Except StepError (String × Value)
  | .str kind => .ok (kind, .map [])
  | .map [(.str kind, settings)] => .ok (kind, settings)
  | .map [_] => .error .kindNotText
  | _ => .error .malformed

/-- Reads a step; no settings at all (`null`) are the empty ones. -/
def ofValue (v : Value) : Except StepError Step := do
  let (kind, settings) ← split v
  let settings := if settings = .null then .map [] else settings
  match readSettings? kind settings with
  | none => .error (.unknownKind kind)
  | some (.ok step) => .ok step
  | some (.error cause) => .error (.parameters kind cause)

end Step

end JobConfig

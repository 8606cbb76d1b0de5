import JobConfig.Executor

/-!
# Jobs

A `Job` is a list of steps that run in an executor. The executor is shared and not owned: a job
holds the `Handle` of the very instance it was built on, and whoever generates the job says which
instances are still held (`Held`). A job whose executor nobody holds any more cannot be generated.

A `ParameterizedJob` adds the parameters that the job accepts. Templated, it is written with a
`parameters` section; flattened, its references are resolved against them and the section is left
out. `AnyJob` is either kind.
-/

namespace JobConfig

/-- The identity of an executor instance. -/
structure Handle where
  number : Nat
deriving DecidableEq, Repr

/-- Which executor instances are held, by handle. -/
abbrev Held := Handle → Option Executor

/-- An executor instance that is held. -/
structure HeldExecutor where
  handle : Handle
  executor : Executor
deriving DecidableEq, Repr

/-- The executor instances of a list. -/
def Held.ofList (es : List HeldExecutor) : Held := fun h =>
  (es.find? fun e => e.handle = h).map HeldExecutor.executor

theorem Held.ofList_eq_none_iff {es : List HeldExecutor} {h : Handle} :
    Held.ofList es h = none ↔ ∀ e ∈ es, e.handle ≠ h := by
  simp [ofList]

theorem Held.mem_of_ofList {es : List HeldExecutor} {h : Handle} {x : Executor}
    (hx : Held.ofList es h = some x) : ⟨h, x⟩ ∈ es := by
  obtain ⟨e, he, rfl⟩ := Option.map_eq_some_iff.mp hx
  have hh : e.handle = h := by simpa using List.find?_some he
  exact hh ▸ List.mem_of_find?_eq_some he

/-- A handle that no instance of a list has. -/
def Handle.fresh (es : List HeldExecutor) : Handle :=
  ⟨es.foldr (fun e n => max (e.handle.number + 1) n) 0⟩

/-- The optional settings of a job. -/
structure JobProperties where
  parallelism : Option Parallelism := none
  environment : Dict String := ∅
  shell : Option String := none
  workingDirectory : Option String := none
deriving DecidableEq, Repr

/-- The settings that are set, as they are written. -/
def JobProperties.written (p : JobProperties) : List (String × Value) :=
  Value.setFields [
    ("parallelism", p.parallelism.map fun n => .int n.count.toNat),
    ("environment", environmentValue p.environment),
    ("shell", p.shell.map .str),
    ("working_directory", p.workingDirectory.map .str)]

/-- Steps that run in order in an executor. -/
structure Job where
  name : String
  executor : Handle
  steps : List Step
  properties : JobProperties
  named : isName name.toList = true
deriving DecidableEq

namespace Job

/-- A job with all its settings, if its name can be one. -/
def withProperties (name : String) (executor : Handle) (steps : List Step)
    (properties : JobProperties) : Except BuildError Job :=
  if h : isName name.toList = true then .ok ⟨name, executor, steps, properties, h⟩
  else .error (.invalidName .job name)

theorem executor_of_withProperties {name : String} {executor : Handle} {steps : List Step}
    {properties : JobProperties} {j : Job}
    (h : withProperties name executor steps properties = .ok j) : j.executor = executor := by
  unfold withProperties at h
  split at h
  · cases h
    rfl
  · cases h

/-- A job without steps and settings, if its name can be one. -/
def new (name : String) (executor : Handle) : Except BuildError Job :=
  withProperties name executor [] {}

/-! ## Changing a job -/

/-- The job with one more step at its end. -/
def addStep (j : Job) (s : Step) : Job :=
  { j with steps := j.steps ++ [s] }

/-- The job with a variable set. -/
def setVariable (j : Job) (name value : String) : Job :=
  { j with properties.environment := j.properties.environment.insert name value }

def setParallelism (j : Job) (p : Parallelism) : Job :=
  { j with properties.parallelism := some p }

def setShell (j : Job) (shell : String) : Job :=
  { j with properties.shell := some shell }

def setWorkingDirectory (j : Job) (path : String) : Job :=
  { j with properties.workingDirectory := some path }

/-! ## Generating -/

/-- The steps, one after the other. -/
def stepContents (ctx : Context) : List Step → Generated (List Value)
  | [] => .ok []
  | s :: rest => do
    let s ← s.contents ctx
    let rest ← stepContents ctx rest
    return s :: rest

/-- The entries of the job: its executor's, its steps, and the settings that are set. -/
def entries (j : Job) (held : Held) (ctx : Context) : Generated (List (String × Value)) :=
  match held j.executor with
  | none => .error (.undefinedExecutor j.name)
  | some executor => do
    let fragment ← executor.fragment ctx
    let steps ← stepContents ctx j.steps
    let settings ← ctx.resolveEntries j.properties.written
    return fragment ++ ("steps", .seq steps) :: settings

/-- The job as it is written below its name. -/
def contents (j : Job) (held : Held) (ctx : Context) : Generated Value :=
  Value.ofEntries <$> j.entries held ctx

end Job

/-! ## Parameterized jobs -/

/-- A job and the parameters it accepts. -/
structure ParameterizedJob where
  job : Job
  parameters : Parameters
deriving DecidableEq

namespace ParameterizedJob

/-- A parameterized job without parameters, steps and settings, if its name can be one. -/
def new (name : String) (executor : Handle) : Except BuildError ParameterizedJob := do
  let job ← Job.new name executor
  return ⟨job, ∅⟩

/-- The job accepting one more parameter. -/
def addParameter (j : ParameterizedJob) (p : Parameter) : Except BuildError ParameterizedJob := do
  let parameters ← j.parameters.add p
  return { j with parameters }

/-- The job accepting one more parameter, which is declared on the way. -/
def defineParameter (j : ParameterizedJob) (name : String) (d : Declaration) :
    Except BuildError ParameterizedJob := do
  let p ← Parameter.declare name d
  j.addParameter p

/-- The entries of the job, with its parameters at the end unless they are resolved. -/
def entries (j : ParameterizedJob) (held : Held) (ctx : Context) :
    Generated (List (String × Value)) :=
  if ctx.flatten then j.job.entries held (ctx.withScope j.parameters)
  else do
    let entries ← j.job.entries held ctx
    return entries ++ [("parameters", j.parameters.contents)]

/-- The job as it is written below its name. -/
def contents (j : ParameterizedJob) (held : Held) (ctx : Context) : Generated Value :=
  Value.ofEntries <$> j.entries held ctx

end ParameterizedJob

/-! ## Either kind -/

/-- A plain or a parameterized job. -/
inductive AnyJob where
  | plain (job : Job)
  | parameterized (job : ParameterizedJob)
deriving DecidableEq

namespace AnyJob

/-- The job without its parameters. -/
def job : AnyJob → Job
  | .plain j => j
  | .parameterized j => j.job

def name (j : AnyJob) : String :=
  j.job.name

/-- The component that a job is. -/
def component : AnyJob → Component
  | .plain _ => .job
  | .parameterized _ => .parameterizedJob

/-- The parameters of a parameterized job. -/
def parameters? : AnyJob → Option Parameters
  | .plain _ => none
  | .parameterized j => some j.parameters

/-- The job with its steps and settings changed. -/
def modify (f : Job → Job) : AnyJob → AnyJob
  | .plain j => .plain (f j)
  | .parameterized j => .parameterized { j with job := f j.job }

/-- The job as it is written below its name. -/
def contents (j : AnyJob) (held : Held) (ctx : Context) : Generated Value :=
  match j with
  | .plain j => j.contents held ctx
  | .parameterized j => j.contents held ctx

/-- The job as it is written, with its name. -/
def generate (j : AnyJob) (held : Held) (ctx : Context) : Generated Value :=
  Value.keyed j.name <$> j.contents held ctx

end AnyJob

end JobConfig

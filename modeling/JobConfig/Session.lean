import JobConfig.Project.Definition

/-!
# Sessions

A `Session` holds executors, steps and jobs under ids of the caller's choice, and `Session.run`
carries out one operation on it. An executor that is registered is a new instance; several ids can
hold the same instance, and it is gone when none does. An operation that fails, or that only looks,
leaves the session as it was.
-/

namespace JobConfig

/-- The state of a session. -/
structure Session where
  /-- The number of the next executor instance. -/
  next : Nat
  executors : Dict HeldExecutor
  steps : Dict Step
  jobs : Dict AnyJob
deriving DecidableEq

namespace Session

/-- The session in which nothing has happened yet. -/
def empty : Session :=
  ⟨0, ∅, ∅, ∅⟩

instance : Inhabited Session := ⟨empty⟩

/-- The executor instances that some id holds. -/
def held (s : Session) : Held :=
  .ofList (s.executors.entries.map Prod.snd)

/-! ## Operations -/

/-- What a step is added from. -/
inductive StepSource where
  /-- The step under an id. -/
  | stored (id : String)
  /-- A value that is read as a step. -/
  | value (v : Value)
  /-- A shell command. -/
  | run (settings : RunStep)
deriving DecidableEq, Repr

/-- The settings a job is built with, and the ids of its steps. -/
structure JobSetup where
  properties : JobProperties
  steps : List String
deriving DecidableEq, Repr

/-- How a parameter is added to a job. -/
inductive ParameterSource where
  | declared (name : String) (d : Declaration)
  | built (p : Except BuildError Parameter)

/-- A change to the settings of a job. -/
inductive JobChange where
  | variable (name value : String)
  | parallelism (p : Parallelism)
  | shell (shell : String)
  | workingDirectory (path : String)
deriving DecidableEq, Repr

/-- An operation on a session. -/
inductive Op where
  | register (id : String) (executor : Executor)
  | hold (id other : String)
  | drop (id : String)
  | step (id : String) (v : Value)
  | job (id name executor : String) (parameterized : Bool) (setup : Option JobSetup)
  | cloneJob (job other : String)
  | parameterize (job : String) (parameters : List (Except BuildError Parameter))
  | addStep (job : String) (source : StepSource)
  | change (job : String) (c : JobChange)
  | addParameter (job : String) (p : ParameterSource)
  | info (job : String)
  | contents (job : String) (ctx : Context)
  | generate (job : String) (ctx : Context)
  | render (jobs : List String) (version : Double) (ctx : Context)

/-- What a job is like at the moment. -/
structure JobInfo where
  job : AnyJob
  executor : Option Component
deriving DecidableEq

/-- The answer to an operation that succeeds. -/
inductive Answer where
  | done
  | dropped (wasHeld : Bool)
  | info (i : JobInfo)
  | value (v : Value)
deriving DecidableEq

/-- Why an operation fails. -/
inductive Failure where
  | build (e : BuildError)
  | step (e : StepError)
  | generate (e : GenerateError)
  | notParameterized
  | unknownId (id : String)
deriving DecidableEq

/-! ## Carrying out operations -/

/-- The outcome of part of an operation. -/
abbrev Outcome (α : Type) := Except Failure α

/-- What is stored under an id. -/
def find {α : Type} (d : Dict α) (id : String) : Outcome α :=
  match d.get? id with
  | some a => .ok a
  | none => .error (.unknownId id)

/-- What is stored under several ids. -/
def findAll {α : Type} (d : Dict α) (ids : List String) : Outcome (List α) :=
  ids.mapM (find d)

/-- The job under `id` replaced. -/
def putJob (s : Session) (id : String) (j : AnyJob) : Session :=
  { s with jobs := s.jobs.insert id j }

/-- Parameters put together in order. -/
def buildParameters (ps : List (Except BuildError Parameter)) : Except BuildError Parameters := do
  let ps ← ps.mapM id
  Parameters.ofList ps

/-- The job that an operation builds. -/
def buildJob (s : Session) (name : String) (executor : Handle) (parameterized : Bool)
    (setup : Option JobSetup) : Outcome AnyJob := do
  let job ← match setup with
    | none => (Job.new name executor).mapError .build
    | some setup => do
      let steps ← findAll s.steps setup.steps
      (Job.withProperties name executor steps setup.properties).mapError .build
  return if parameterized then .parameterized ⟨job, ∅⟩ else .plain job

/-- The step that is added. -/
def stepOf (s : Session) : StepSource → Outcome Step
  | .stored id => find s.steps id
  | .value v => (Step.ofValue v).mapError .step
  | .run settings => .ok (.run settings)

def JobChange.apply : JobChange → Job → Job
  | .variable n v, j => j.setVariable n v
  | .parallelism p, j => j.setParallelism p
  | .shell s, j => j.setShell s
  | .workingDirectory p, j => j.setWorkingDirectory p

/-- The job accepting one more parameter. -/
def withParameter (j : ParameterizedJob) : ParameterSource → Except BuildError ParameterizedJob
  | .declared name d => j.defineParameter name d
  | .built p => do
    let p ← p
    j.addParameter p

/-- Carries out an operation; there is no new state when it fails. -/
def step (s : Session) : Op → Outcome (Session × Answer)
  | .register id executor =>
    let e : HeldExecutor := ⟨⟨s.next⟩, executor⟩
    .ok ({ s with next := s.next + 1, executors := s.executors.insert id e }, .done)
  | .hold id other => do
    let e ← find s.executors id
    return ({ s with executors := s.executors.insert other e }, .done)
  | .drop id =>
    .ok ({ s with executors := s.executors.erase id }, .dropped (s.executors.contains id))
  | .step id v => do
    let step ← (Step.ofValue v).mapError .step
    return ({ s with steps := s.steps.insert id step }, .done)
  | .job id name executor parameterized setup => do
    let e ← find s.executors executor
    let j ← s.buildJob name e.handle parameterized setup
    return (s.putJob id j, .done)
  | .cloneJob job other => do
    let j ← find s.jobs job
    return (s.putJob other j, .done)
  | .parameterize job ps => do
    let ps ← (buildParameters ps).mapError .build
    let j ← find s.jobs job
    return (s.putJob job (.parameterized ⟨j.job, ps⟩), .done)
  | .addStep job source => do
    let step ← s.stepOf source
    let j ← find s.jobs job
    return (s.putJob job (j.modify fun b => b.addStep step), .done)
  | .change job c => do
    let j ← find s.jobs job
    return (s.putJob job (j.modify c.apply), .done)
  | .addParameter job p => do
    let j ← find s.jobs job
    match j with
    | .plain _ => .error .notParameterized
    | .parameterized b => do
      let b ← (withParameter b p).mapError .build
      return (s.putJob job (.parameterized b), .done)
  | .info job => do
    let j ← find s.jobs job
    return (s, .info ⟨j, (s.held j.job.executor).map Executor.component⟩)
  | .contents job ctx => do
    let j ← find s.jobs job
    let v ← (j.contents s.held ctx).mapError .generate
    return (s, .value v)
  | .generate job ctx => do
    let j ← find s.jobs job
    let v ← (j.generate s.held ctx).mapError .generate
    return (s, .value v)
  | .render jobs version ctx => do
    let js ← findAll s.jobs jobs
    let v ← (Document.render version js s.held ctx).mapError .generate
    return (s, .value v)

/-- The state after an operation, and its answer. -/
def run (s : Session) (op : Op) : Session × Outcome Answer :=
  match s.step op with
  | .ok (s', a) => (s', .ok a)
  | .error e => (s, .error e)

/-- The answers to operations carried out one after the other, and the state at the end. -/
def runAll (s : Session) : List Op → Session × List (Outcome Answer)
  | [] => (s, [])
  | op :: rest =>
    let (s', a) := s.run op
    let (s'', as) := runAll s' rest
    (s'', a :: as)

end Session

end JobConfig

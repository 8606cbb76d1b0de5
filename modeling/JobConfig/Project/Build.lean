import JobConfig.Project.Definition

/-!
# From definitions to components

What loading a project makes of its definitions. A job's executor is one that the project defines,
or else an executor that is defined elsewhere (`ExecutorReference.choose`). Of several faults of a
job the first unreadable step counts, then its name, then its first invalid parameter
(`JobDefinition.build`).
-/

namespace JobConfig

/-- Why definitions that can be read make no project. -/
inductive Conflict where
  | repeatedExecutor (name : String)
  | severalKinds (name : String)
  | unnamedInvocation
  | unexpectedArguments (name : String)
deriving DecidableEq, Repr

def Conflict.message : Conflict → String
  | .repeatedExecutor name => "executor " ++ name ++ " is defined more than once"
  | .severalKinds name =>
    "executor " ++ name ++
      " must define exactly one of docker (with at least one image), machine or macos"
  | .unnamedInvocation => "executor invocation requires a string " ++ backquoted "name"
  | .unexpectedArguments name => "executor " ++ name ++ " does not accept arguments"

/-- Why a project cannot be loaded. `path` is the file that is at fault. -/
inductive LoadError where
  | unreadable (path : String)
  | settings (path : String) (cause : TextError)
  | definition (path : String) (cause : TextError)
  | conflict (path : String) (cause : Conflict)
  | component (path : String) (cause : BuildError)
  | step (path : String) (index : Nat) (cause : StepError)
deriving DecidableEq

namespace LoadError

/-- The file that is at fault. -/
def path : LoadError → String
  | .unreadable p | .settings p _ | .definition p _ | .conflict p _ | .component p _
  | .step p _ _ => p

/-- What is at fault, where the project says so in its own words. -/
def message : LoadError → String
  | .unreadable p => "Failed to read config file at " ++ p
  | .settings p e => "Failed to parse TOML file at " ++ p ++ textError e
  | .definition p e => "Failed to parse YAML file at " ++ p ++ textError e
  | .conflict p e => "Invalid configuration in " ++ p ++ ": " ++ e.message
  | .component p e => "Invalid component in " ++ p ++ ": " ++ e.message
  | .step p i e => "Invalid step " ++ intText i ++ " in " ++ p ++ ": " ++ e.message
where
  textError : TextError → String
    | .malformed => ""
    | .unfit e => ": " ++ e.message

end LoadError

/-! ## Executors of jobs -/

/-- The executor of a job: one that the project defines, or one that is defined elsewhere. -/
inductive ExecutorChoice where
  | defined (executor : HeldExecutor)
  | elsewhere (executor : Executor)
deriving DecidableEq, Repr

/-- The executor that a reference means, among those that a project defines. Only executors that
are defined elsewhere take arguments. -/
def ExecutorReference.choose (defined : Dict HeldExecutor) :
    ExecutorReference → Except Conflict ExecutorChoice
  | .name n =>
    match defined.get? n with
    | some e => .ok (.defined e)
    | none => .ok (.elsewhere (.reusable n ∅))
  | .invocation arguments =>
    match arguments.get? "name" with
    | some (.str n) =>
      if defined.contains n then .error (.unexpectedArguments n)
      else .ok (.elsewhere (.reusable n (arguments.erase "name")))
    | _ => .error .unnamedInvocation

/-! ## Jobs -/

namespace JobDefinition

/-- The steps of a definition, the first of which has the given index. -/
def buildSteps (path : String) : (index : Nat) → List Value → Except LoadError (List Step)
  | _, [] => .ok []
  | i, v :: rest => do
    let step ← (Step.ofValue v).mapError (.step path i)
    let rest ← buildSteps path (i + 1) rest
    return step :: rest

/-- The parameters that a section declares, in order. -/
def buildParameters (declarations : Dict Declaration) : Except BuildError Parameters := do
  let ps ← declarations.entries.mapM fun e => Parameter.declare e.1 e.2
  Parameters.ofList ps

/-- The job that a definition describes, in an executor. -/
def build (path : String) (d : JobDefinition) (executor : Handle) : Except LoadError AnyJob := do
  let steps ← buildSteps path 0 d.steps
  let job ← (Job.withProperties d.name executor steps d.properties).mapError (.component path)
  match d.parameters with
  | none => return .plain job
  | some declarations =>
    let ps ← (buildParameters declarations).mapError (.component path)
    return .parameterized ⟨job, ps⟩

end JobDefinition

end JobConfig

/-!
# Kinds of components

Everything that can be generated reports one of a closed set of kinds, each with a fixed name, so
that whoever assembles a document can dispatch on the kind alone.
-/

namespace JobConfig

/-- The kinds of generated components. -/
inductive Component where
  | job
  | parameterizedJob
  | stringParameter
  | booleanParameter
  | integerParameter
  | enumParameter
  | environmentParameter
  | parametersList
  | dockerExecutor
  | machineExecutor
  | macosExecutor
  | reusableExecutor
  | checkout
  | run
  | saveCache
  | restoreCache
  | persistToWorkspace
  | attachWorkspace
  | storeArtifacts
  | storeTestResults
deriving DecidableEq, Repr

namespace Component

/-- The kinds, in the order in which messages list their names. -/
def all : List Component :=
  [.job, .parameterizedJob, .stringParameter, .booleanParameter, .integerParameter,
    .enumParameter, .environmentParameter, .parametersList, .dockerExecutor, .machineExecutor,
    .macosExecutor, .reusableExecutor, .checkout, .run, .saveCache, .restoreCache,
    .persistToWorkspace, .attachWorkspace, .storeArtifacts, .storeTestResults]

/-- The written name of a kind. -/
def name : Component → String
  | .job => "job"
  | .parameterizedJob => "parameterized-job"
  | .stringParameter => "string-parameter"
  | .booleanParameter => "boolean-parameter"
  | .integerParameter => "integer-parameter"
  | .enumParameter => "enum-parameter"
  | .environmentParameter => "environment-parameter"
  | .parametersList => "parameters-list"
  | .dockerExecutor => "docker-executor"
  | .machineExecutor => "machine-executor"
  | .macosExecutor => "macos-executor"
  | .reusableExecutor => "reusable-executor"
  | .checkout => "checkout"
  | .run => "run"
  | .saveCache => "save-cache"
  | .restoreCache => "restore-cache"
  | .persistToWorkspace => "persist-to-workspace"
  | .attachWorkspace => "attach-workspace"
  | .storeArtifacts => "store-artifacts"
  | .storeTestResults => "store-test-results"

/-- The kind with a written name. -/
def ofName? (name : String) : Option Component :=
  all.find? fun c => c.name = name

/-- Whether the kind is one of a parameter. -/
def isParameter : Component → Bool
  | .stringParameter | .booleanParameter | .integerParameter | .enumParameter
  | .environmentParameter => true
  | _ => false

theorem ofName?_name (c : Component) : ofName? c.name = some c := by
  cases c <;> decide

end Component

end JobConfig

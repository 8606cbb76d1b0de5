import JobConfig.Project.Build
import JobConfig.Project.Files
import JobConfig.Toml.Read
import JobConfig.Yaml.Read

/-!
# Projects

A `Project` is what the files of a project directory say: settings, executors and jobs. It holds
the executors of its jobs, those that it defines and those that its jobs refer to without.

`loadProject` loads one. The settings are read first, then the executors, then the jobs, the files
of each folder by their names; what is missing is empty. Entries of a folder whose names are not
those of definitions are passed over, and `Loading.skipped` lists them.
-/

namespace JobConfig

/-- A loaded project. -/
structure Project where
  settings : Settings
  /-- The executors that the project defines, by name. -/
  executors : Dict HeldExecutor
  /-- The executors that jobs refer to and the project does not define. -/
  references : List HeldExecutor
  jobs : List AnyJob
deriving DecidableEq

namespace Project

/-- The project without files. -/
def empty : Project :=
  ⟨default, ∅, [], []⟩

instance : Inhabited Project := ⟨empty⟩

/-- All executors that the project holds. -/
def holdings (p : Project) : List HeldExecutor :=
  p.executors.entries.map Prod.snd ++ p.references

def held (p : Project) : Held :=
  .ofList p.holdings

/-- The context to generate the project in: flattening as the settings say, unless `flatten`
says otherwise. -/
def context (p : Project) (flatten : Option Bool) : Context :=
  .new (flatten.getD p.settings.flatten)

/-- The document of all jobs of the project. -/
def render (p : Project) (ctx : Context) : Generated Value :=
  Document.render p.settings.version p.jobs p.held ctx

/-! ## Adding to a project -/

/-- The project with one more executor under a name. -/
def define (p : Project) (name : String) (e : Executor) : Project :=
  { p with executors := p.executors.insert name ⟨.fresh p.holdings, e⟩ }

/-- The project with one more executor that a job refers to. -/
def refer (p : Project) (e : Executor) : Project × HeldExecutor :=
  let h : HeldExecutor := ⟨.fresh p.holdings, e⟩
  ({ p with references := p.references ++ [h] }, h)

/-- The project with the executor that is defined in the file at `path`. -/
def addExecutor (p : Project) (path : String) (d : ExecutorDefinition) :
    Except LoadError Project :=
  if p.executors.contains d.name then .error (.conflict path (.repeatedExecutor d.name))
  else match d.executor? with
  | none => .error (.conflict path (.severalKinds d.name))
  | some e => .ok (p.define d.name e)

/-- The project with the job that is defined in the file at `path`. -/
def addJob (p : Project) (path : String) (d : JobDefinition) : Except LoadError Project := do
  let choice ← (d.executor.choose p.executors).mapError (.conflict path)
  let (p, h) := match choice with
    | .defined h => (p, h)
    | .elsewhere e => p.refer e
  let job ← d.build path h.handle
  return { p with jobs := p.jobs ++ [job] }

end Project

/-! ## Loading -/

/-- The definitions in a folder, sorted by name, with their paths. -/
def definitionFiles (base : String) (folder : FileTree) : List (String × FileTree) :=
  (folder.sorted.filter fun e => isDefinitionName e.1).map fun e => (base ++ e.1, e.2)

/-- The paths of the entries of a folder that are no definitions. -/
def skippedFiles (base : String) (folder : FileTree) : List String :=
  (folder.sorted.filter fun e => !isDefinitionName e.1).map fun e => base ++ e.1

/-- The definition in the file at `path`. -/
def readDefinition {α : Type} (read : Yaml.Site → Read α) (path : String) (t : FileTree) :
    Except LoadError α :=
  match t.text? with
  | none => .error (.unreadable path)
  | some text => (Yaml.readText read text).mapError (.definition path)

/-- The settings in the file at `path`; without the file they are the usual ones. -/
def readSettings (path : String) : Option FileTree → Except LoadError Settings
  | none => .ok default
  | some t =>
    match t.text? with
    | none => .error (.unreadable path)
    | some text => (Toml.readText Settings.read text).mapError (.settings path)

/-- Adds what the files of a folder define, one after the other. -/
def addAll {α : Type} (read : Yaml.Site → Read α)
    (add : Project → String → α → Except LoadError Project) :
    Project → List (String × FileTree) → Except LoadError Project
  | p, [] => .ok p
  | p, (path, t) :: rest => do
    let d ← readDefinition read path t
    let p ← add p path d
    addAll read add p rest

/-- The outcome of loading, and the paths of entries that have been passed over. -/
structure Loading where
  skipped : List String
  outcome : Except LoadError Project

/-- What is told about entries that have been passed over. -/
def Loading.warnings (l : Loading) : List String :=
  l.skipped.map fun path => "Skipping non-YAML file: " ++ path

/-- Loads the project in a directory, if there is one. `base` is what stands in front of the names
of its entries in paths. -/
def loadProject (base : String) (directory : Option FileTree) : Loading :=
  match directory with
  | none => ⟨[], .ok .empty⟩
  | some dir =>
    let executors := (dir.child? "executors").getD .emptyFolder
    let jobs := (dir.child? "jobs").getD .emptyFolder
    let executorBase := base ++ "executors/"
    let jobBase := base ++ "jobs/"
    match readSettings (base ++ "config.toml") (dir.child? "config.toml") with
    | .error e => ⟨[], .error e⟩
    | .ok settings =>
      let skipped := skippedFiles executorBase executors
      let start : Project := { settings, executors := ∅, references := [], jobs := [] }
      match addAll ExecutorDefinition.read Project.addExecutor start
          (definitionFiles executorBase executors) with
      | .error e => ⟨skipped, .error e⟩
      | .ok p =>
        ⟨skipped ++ skippedFiles jobBase jobs,
          addAll JobDefinition.read Project.addJob p (definitionFiles jobBase jobs)⟩

end JobConfig

import JobConfig.CommandLine.Arguments
import JobConfig.Project.Load
import JobConfig.Yaml.Write

/-!
# Running commands

What a command does with a project: `generate` writes the document, to a file or to the output,
and `check` renders it both ways without writing it. A `Report` is everything that running a
command shows. Files are looked at through `Surroundings`.
-/

namespace JobConfig.CommandLine

/-- What a command can see of the files around it. -/
structure Surroundings where
  /-- The project directory below a root, if there is one. -/
  directory : (root : String) → Option FileTree
  /-- What stands in front of the names of that directory's entries in paths. -/
  base : (root : String) → String
  /-- Whether a file can be written at a path. -/
  writable : (path : String) → Bool

/-- Why a command fails. -/
inductive Failure where
  | load (root : String) (cause : LoadError)
  | generate (cause : GenerateError)
  | text (cause : Yaml.WriteError)
  | write (path : String)
deriving DecidableEq

/-- What the command was about when it failed. -/
def Failure.context : Failure → String
  | .load root _ => "Failed to load project at " ++ root
  | .generate _ => "Failed to generate jobs document"
  | .text cause => cause.message
  | .write path => "Failed to write " ++ path

/-- The whole text of a failure. -/
def Failure.message (f : Failure) : String :=
  match f with
  | .load _ cause => f.context ++ ": " ++ cause.message
  | .generate cause => f.context ++ ": " ++ cause.message
  | .text _ | .write _ => f.context

/-- Everything that running a command shows. -/
structure Report where
  status : Except Failure Unit
  stdout : String
  stderr : String
  /-- The file that is written: its path and its text. -/
  written : Option (String × String)
  warnings : List String

namespace Report

/-- A report of success that shows nothing. -/
def silent (warnings : List String) : Report :=
  ⟨.ok (), "", "", none, warnings⟩

def failed (warnings : List String) (f : Failure) : Report :=
  { silent warnings with status := .error f }

end Report

/-- The warning about overrides that have no effect. -/
def ignoredOverrides : String :=
  "--set is ignored unless the document is flattened; pass --flatten or set flatten in config.toml"

/-- The context of a generation. The switch only ever turns flattening on. -/
def generateContext (p : Project) (flatten : Bool) (overrides : List (String × Literal)) :
    Context :=
  overrides.foldl (fun c o => c.withOverride o.1 o.2)
    (p.context (if flatten then some true else none))

/-- The text of the document of a project. -/
def documentText (p : Project) (ctx : Context) : Except Failure String := do
  let v ← (p.render ctx).mapError .generate
  (Yaml.write v).mapError .text

/-- Writes the document of a project. -/
def generate (env : Surroundings) (p : Project) (warnings : List String) (flatten : Bool)
    (overrides : List (String × Literal)) (output : Option String) : Report :=
  let ctx := generateContext p flatten overrides
  let warnings :=
    if !ctx.flatten && !overrides.isEmpty then warnings ++ [ignoredOverrides] else warnings
  match documentText p ctx with
  | .error f => .failed warnings f
  | .ok text =>
    match output with
    | none => { Report.silent warnings with stdout := text }
    | some path =>
      if env.writable path then
        { Report.silent warnings with
          stderr := "Generated " ++ intText p.jobs.length ++ " jobs to " ++ path ++ "\n",
          written := some (path, text) }
      else .failed warnings (.write path)

/-- Renders a project both ways, as flattening and templating go wrong differently. -/
def check (p : Project) (warnings : List String) : Report :=
  let rendered : Generated Unit := do
    let _ ← p.render .templated
    let _ ← p.render (p.context none)
  match rendered with
  | .error e => .failed warnings (.generate e)
  | .ok _ =>
    { Report.silent warnings with
      stdout := "OK " ++ intText p.jobs.length ++ " jobs, " ++
        intText p.executors.entries.length ++ " executors\n" }

/-- Loads the project below a root and goes on with it. -/
def withProject (env : Surroundings) (root : String)
    (run : Project → (warnings : List String) → Report) : Report :=
  let loading := loadProject (env.base root) (env.directory root)
  match loading.outcome with
  | .error e => .failed loading.warnings (.load root e)
  | .ok p => run p loading.warnings

/-- What running a command shows. -/
def Command.run (env : Surroundings) : Command → Report
  | .generate root flatten overrides output =>
    withProject env root fun p warnings =>
      CommandLine.generate env p warnings flatten overrides output
  | .check root => withProject env root CommandLine.check

end JobConfig.CommandLine

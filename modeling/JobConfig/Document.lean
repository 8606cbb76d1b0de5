import JobConfig.Job

/-!
# Documents

A document lists generated jobs under their names, behind the version of its schema. Names are
checked before the job they name is generated, so of two faults the first in the list counts.
-/

namespace JobConfig

namespace Document

/-- The jobs under their names, each generated on its own; `names` are those already there. -/
def jobEntries (held : Held) (ctx : Context) :
    (names : List String) → List AnyJob → Generated (List (String × Value))
  | _, [] => .ok []
  | names, j :: rest => do
    if j.name ∈ names then throw (.duplicateJob j.name)
    let contents ← j.contents held ctx
    let rest ← jobEntries held ctx (names ++ [j.name]) rest
    return (j.name, contents) :: rest

/-- The document of some jobs. -/
def render (version : Double) (jobs : List AnyJob) (held : Held) (ctx : Context) :
    Generated Value := do
  let entries ← jobEntries held ctx [] jobs
  return .ofEntries [("version", .float version), ("jobs", .ofEntries entries)]

end Document

end JobConfig

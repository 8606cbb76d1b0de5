import JobConfig.Parameter.Basic

/-!
# Parameter lists

The parameters that one job declares, in the order of their declaration. A name is declared once:
`add` refuses a second parameter of a name, and what was there stays.

A parameter is looked up by its name. The only operation that puts parameters into a list is `add`,
and it goes by the parameter's own name, so the names are not kept beside the parameters a second
time. A dictionary with the names for its keys that is filled in the same way comes to the same
(`Parameters.on_add_keyed`).
-/

namespace JobConfig

/-- The names of some parameters, in order. -/
def parameterNames (ps : List Parameter) : List String :=
  ps.map Parameter.name

/-- Parameters with distinct names, in order of declaration. -/
structure Parameters where
  items : List Parameter
  distinct : (parameterNames items).Nodup
deriving DecidableEq

namespace Parameters

/-- The list without parameters. -/
def empty : Parameters := ⟨[], List.nodup_nil⟩

instance : EmptyCollection Parameters := ⟨empty⟩

instance : Inhabited Parameters := ⟨empty⟩

def names (ps : Parameters) : List String :=
  parameterNames ps.items

def get? (ps : Parameters) (name : String) : Option Parameter :=
  ps.items.find? fun p => p.name = name

def contains (ps : Parameters) (name : String) : Bool :=
  name ∈ ps.names

def size (ps : Parameters) : Nat :=
  ps.items.length

def isEmpty (ps : Parameters) : Bool :=
  ps.items.isEmpty

/-- The list with one more parameter at its end. -/
def add (ps : Parameters) (p : Parameter) : Except BuildError Parameters :=
  if h : p.name ∈ ps.names then .error (.duplicateName p.name)
  else .ok ⟨ps.items ++ [p], by
    simp only [parameterNames, List.map_append, List.map_cons, List.map_nil]
    exact List.nodup_append.mpr ⟨ps.distinct, by simp, fun a ha b hb => by
      simp only [List.mem_singleton] at hb
      exact fun e => h (hb ▸ e ▸ ha)⟩⟩

/-- The parameters added one after the other; the first repeated name is the error. -/
def ofList (ps : List Parameter) : Except BuildError Parameters :=
  ps.foldlM add ∅

/-- The list as it is written: what each parameter declares, under its name. -/
def contents (ps : Parameters) : Value :=
  .ofEntries (ps.items.map fun p => (p.name, p.contents))

/-- The names of the parameters that have no default. -/
def required (ps : Parameters) : List String :=
  parameterNames (ps.items.filter Parameter.isRequired)

end Parameters

end JobConfig

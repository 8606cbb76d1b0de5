import JobConfig.Proofs.Building
import JobConfig.Proofs.Bystanders
import JobConfig.Proofs.DocumentOrder
import JobConfig.Proofs.Literals
import JobConfig.Proofs.TextFields
import Mathlib.Data.List.Permutation

/-!
# The order of definitions

The fields of a definition may be in any order: whatever definition is read of a mapping is read of
one with the same entries in another order (`Source.sameDefinitions_of_perm`), and so are the
settings of a step (`Step.readSettings?_of_perm`), also those of a step in a job
(`JobDefinition.build_withSteps`). What is generated from it is then the same, and so is the project
that a directory of definitions makes, whose texts have their fields in another order
(`outcome_of_reordered`). What is inside a definition keeps its order: its lists have the items, and
its dictionaries the names, as they stand there (`JobDefinition.InOrder` and its like).
-/

namespace JobConfig

open Source (IsMapping Under)

section Sources

variable {σ : Type} [Source σ]

/-! ## Reading definitions -/

/-- Whatever definition one of the sources is read as, the other one is read as, too. -/
structure Source.SameDefinitions (s t : σ) : Prop where
  job (d : JobDefinition) : JobDefinition.read s = .ok d ↔ JobDefinition.read t = .ok d
  executor (d : ExecutorDefinition) :
    ExecutorDefinition.read s = .ok d ↔ ExecutorDefinition.read t = .ok d
  declaration (d : Declaration) : Declaration.read s = .ok d ↔ Declaration.read t = .ok d
  dockerImage (d : DockerImage) : DockerImage.read s = .ok d ↔ DockerImage.read t = .ok d
  machine (d : MachineSettings) : MachineSettings.read s = .ok d ↔ MachineSettings.read t = .ok d
  macos (d : MacosSettings) : MacosSettings.read s = .ok d ↔ MacosSettings.read t = .ok d

variable {s t : σ} {es es' : List (σ × σ)}

theorem Fields.read_iff_of_perm {α : Type} {fs : Fields σ α} {kind : String} {strict : Bool}
    (hs : IsMapping s es) (ht : IsMapping t es') (hp : es.Perm es') (r : α) :
    fs.read kind strict s = .ok r ↔ fs.read kind strict t = .ok r :=
  ⟨read_of_perm hs ht hp, read_of_perm ht hs hp.symm⟩

/-- The entries of a definition may be in any order. -/
theorem Source.sameDefinitions_of_perm (hs : IsMapping s es) (ht : IsMapping t es')
    (hp : es.Perm es') : SameDefinitions s t where
  job := Fields.read_iff_of_perm hs ht hp
  executor := Fields.read_iff_of_perm hs ht hp
  declaration := Fields.read_iff_of_perm hs ht hp
  dockerImage := Fields.read_iff_of_perm hs ht hp
  machine := Fields.read_iff_of_perm hs ht hp
  macos := Fields.read_iff_of_perm hs ht hp

/-! ## Generating -/

/-- The source defines a job that generates this. -/
def JobDefinition.Generates (s : σ) (path : String) (executor : Handle) (held : Held)
    (ctx : Context) (contents : Generated Value) : Prop :=
  ∃ d j, JobDefinition.read s = .ok d ∧ d.build path executor = .ok j ∧
    j.contents held ctx = contents

/-- The source defines an executor that generates this. -/
def ExecutorDefinition.Generates (s : σ) (ctx : Context) (contents : Generated Value) : Prop :=
  ∃ d e, ExecutorDefinition.read s = .ok d ∧ d.executor? = some e ∧ e.contents ctx = contents

namespace Source.SameDefinitions

theorem job_generates_iff (h : SameDefinitions s t) {path : String} {executor : Handle}
    {held : Held} {ctx : Context} {contents : Generated Value} :
    JobDefinition.Generates s path executor held ctx contents ↔
      JobDefinition.Generates t path executor held ctx contents := by
  simp only [JobDefinition.Generates, h.job]

theorem executor_generates_iff (h : SameDefinitions s t) {ctx : Context}
    {contents : Generated Value} : ExecutorDefinition.Generates s ctx contents ↔
      ExecutorDefinition.Generates t ctx contents := by
  simp only [ExecutorDefinition.Generates, h.executor]

end Source.SameDefinitions

/-! ## What keeps its order -/

namespace Source

/-- The list has the items of the source, each as it reads, in their order. -/
def IsList {α : Type} (read : σ → Read α) (s : σ) (as : List α) : Prop :=
  ∃ is, items s = .ok is ∧ List.Forall₂ (fun i a => read i = .ok a) is as

/-- The dictionary has the entries of the source, each as it reads. Its names are in the order in
which they first occur. -/
def IsDict {α : Type} (read : σ → Read α) (s : σ) (d : Dict α) : Prop :=
  ∃ es bs, entries "a map" s = .ok es ∧
    List.Forall₂ (fun e b => str e.1 = .ok b.1 ∧ read e.2 = .ok b.2) es bs ∧
      d = Dict.ofList bs ∧ d.keys = (entryKeys bs).eraseDups

/-- The source is a mapping of literals, and the dictionary has them as arguments. Their names are
in the order in which they first occur. -/
def HasArguments (s : σ) (arguments : Dict Literal) : Prop :=
  ∃ as : List (String × Literal), shape s = .ok (.ofEntries (as.map fun a => (a.1, a.2.toValue))) ∧
    arguments = Dict.ofList as ∧ arguments.keys = (entryKeys as).eraseDups

variable {α : Type} {read : σ → Read α}

theorem isList_of_readList {as : List α} (h : readList read s = .ok as) : IsList read s as :=
  readList_eq_ok_iff.mp h

theorem isDict_of_readDict {d : Dict α} (h : readDict read s = .ok d) : IsDict read s d := by
  obtain ⟨es, bs, he, hbs, rfl⟩ := readDict_eq_ok_iff.mp h
  exact ⟨es, bs, he, hbs, rfl, Dict.keys_ofList bs⟩

theorem hasArguments_of_read {arguments : Dict Literal}
    (h : ExecutorReference.read s = .ok (.invocation arguments)) : HasArguments s arguments := by
  obtain ⟨v, hv, h⟩ := ExecutorReference.read_eq_ok_iff_shape.mp h
  obtain ⟨as, rfl, rfl⟩ := ExecutorReference.exists_arguments_of_ofValue? h
  exact ⟨as, hv, rfl, Dict.keys_ofList as⟩

end Source

open Source (IsList IsDict HasArguments)

namespace Fields

variable {α : Type} {name : String} {read : σ → Read α} {find : String → Option σ} {v : σ} {a : α}

/-- A record is built from what the entries have for its fields. -/
theorem exists_find_of_read {fs : Fields σ α} {kind : String} {strict : Bool}
    (hs : IsMapping s es) (h : fs.read kind strict s = .ok a) :
    ∃ find, fs.build find = .ok a ∧
      ∀ {name v}, fs.names.elem name = true → Under es name v → find name = some v := by
  obtain ⟨find, hb, hf⟩ := exists_build_of_read hs h
  exact ⟨find, hb, fun hn hu => (hf _ (List.mem_of_elem_eq_true hn) _).mpr hu⟩

omit [Source σ] in
/-- A field is read from the value that is there. -/
theorem read_of_build_field {absent : Read α} (hb : (field name read absent).build find = .ok a)
    (hv : find name = some v) : read v = .ok a := by
  have hb : (find name).elim absent read = .ok a := hb
  rwa [hv] at hb

theorem read_of_build_optional (hb : (optional name read).build find = .ok (some a))
    (hv : find name = some v) : read v = .ok a := by
  have hr : Source.readOptional read v = .ok (some a) := read_of_build_field hb hv
  obtain ⟨unset, -, h⟩ := bind_eq_ok.mp hr
  cases unset with
  | true => cases h
  | false =>
    obtain ⟨a', ha, h⟩ := map_eq_ok.mp h
    cases h
    exact ha

end Fields

/-- The steps, parameters, variables and arguments of the job are in the order in which they stand
among the entries that define it. -/
structure JobDefinition.InOrder (es : List (σ × σ)) (d : JobDefinition) : Prop where
  steps {v : σ} : Under es "steps" v → IsList Source.value v d.steps
  parameters {v : σ} {ps : Dict Declaration} : Under es "parameters" v → d.parameters = some ps →
    IsDict Declaration.read v ps
  environment {v : σ} : Under es "environment" v → IsDict Source.str v d.environment
  arguments {v : σ} {arguments : Dict Literal} : Under es "executor" v →
    d.executor = .invocation arguments → HasArguments v arguments

theorem JobDefinition.inOrder_of_read {d : JobDefinition} (hs : IsMapping s es)
    (h : JobDefinition.read s = .ok d) : d.InOrder es := by
  obtain ⟨find, hb, hf⟩ := Fields.exists_find_of_read hs h
  simp only [fields, Fields.build_and_eq_ok_iff, Fields.build_map_eq_ok_iff] at hb
  obtain ⟨_, ⟨_, ⟨_, ⟨_, ⟨_, ⟨_, ⟨_, ⟨name, -, rfl⟩, executor, hx, rfl⟩, steps, hsteps, rfl⟩,
    ps, hps, rfl⟩, parallelism, -, rfl⟩, environment, hv, rfl⟩, shell, -, rfl⟩, path, -, rfl⟩ := hb
  refine ⟨fun {v} hu => ?_, fun {v ps} hu he => ?_, fun {v} hu => ?_,
    fun {v arguments} hu he => ?_⟩
  · exact Source.isList_of_readList (Fields.read_of_build_field hsteps (hf rfl hu))
  · cases he
    exact Source.isDict_of_readDict (Fields.read_of_build_optional hps (hf rfl hu))
  · exact Source.isDict_of_readDict (Fields.read_of_build_field hv (hf rfl hu))
  · cases he
    exact Source.hasArguments_of_read (Fields.read_of_build_field hx (hf rfl hu))

/-- The images of the executor are in the order in which they stand among the entries that define
it. -/
def ExecutorDefinition.InOrder (es : List (σ × σ)) (d : ExecutorDefinition) : Prop :=
  ∀ v images, Under es "docker" v → d.docker = some images → IsList DockerImage.read v images

theorem ExecutorDefinition.inOrder_of_read {d : ExecutorDefinition} (hs : IsMapping s es)
    (h : ExecutorDefinition.read s = .ok d) : d.InOrder es := by
  obtain ⟨find, hb, hf⟩ := Fields.exists_find_of_read hs h
  simp only [fields, Fields.build_and_eq_ok_iff, Fields.build_map_eq_ok_iff] at hb
  obtain ⟨_, ⟨_, ⟨_, ⟨_, ⟨name, -, rfl⟩, docker, hd, rfl⟩, machine, -, rfl⟩, macos, -, rfl⟩,
    resourceClass, -, rfl⟩ := hb
  intro v images hu he
  cases he
  exact Source.isList_of_readList (Fields.read_of_build_optional hd (hf rfl hu))

/-- The texts and variables of the image are in the order in which they stand among its entries. -/
structure DockerImage.InOrder (es : List (σ × σ)) (i : DockerImage) : Prop where
  entrypoint {v : σ} {texts : List String} : Under es "entrypoint" v → i.entrypoint = some texts →
    IsList Source.str v texts
  command {v : σ} {texts : List String} : Under es "command" v → i.command = some texts →
    IsList Source.str v texts
  environment {v : σ} : Under es "environment" v → IsDict Source.str v i.environment

theorem DockerImage.inOrder_of_read {i : DockerImage} (hs : IsMapping s es)
    (h : DockerImage.read s = .ok i) : i.InOrder es := by
  obtain ⟨find, hb, hf⟩ := Fields.exists_find_of_read hs h
  simp only [fields, Fields.build_and_eq_ok_iff, Fields.build_map_eq_ok_iff] at hb
  obtain ⟨_, ⟨_, ⟨_, ⟨_, ⟨_, ⟨image, -, rfl⟩, name, -, rfl⟩, entrypoint, he, rfl⟩,
    command, hc, rfl⟩, user, -, rfl⟩, environment, hv, rfl⟩ := hb
  refine ⟨fun {v texts} hu ht => ?_, fun {v texts} hu ht => ?_, fun {v} hu => ?_⟩
  · cases ht
    exact Source.isList_of_readList (Fields.read_of_build_optional he (hf rfl hu))
  · cases ht
    exact Source.isList_of_readList (Fields.read_of_build_optional hc (hf rfl hu))
  · exact Source.isDict_of_readDict (Fields.read_of_build_field hv (hf rfl hu))

/-- The allowed values are in the order in which they stand among the entries of the declaration. -/
def Declaration.InOrder (es : List (σ × σ)) (d : Declaration) : Prop :=
  ∀ v allowed, Under es "enum" v → d.allowed = some allowed → IsList Source.str v allowed

theorem Declaration.inOrder_of_read {d : Declaration} (hs : IsMapping s es)
    (h : Declaration.read s = .ok d) : d.InOrder es := by
  obtain ⟨find, hb, hf⟩ := Fields.exists_find_of_read hs h
  simp only [fields, Fields.build_and_eq_ok_iff, Fields.build_map_eq_ok_iff] at hb
  obtain ⟨_, ⟨_, ⟨_, ⟨type, -, rfl⟩, default, -, rfl⟩, description, -, rfl⟩, allowed, ha, rfl⟩ := hb
  intro v texts hu he
  cases he
  exact Source.isList_of_readList (Fields.read_of_build_optional ha (hf rfl hu))

end Sources

/-! ## Steps -/

open Source (IsList IsDict)

theorem Value.isMapping (es : List (Value × Value)) : IsMapping (.map es) es :=
  fun _ => rfl

namespace Step

variable {es es' : List (Value × Value)} {kind : String} {step : Step}

/-- The settings of a step may be in any order. -/
theorem readSettings?_of_perm (hp : es.Perm es')
    (h : readSettings? kind (.map es) = some (.ok step)) :
    readSettings? kind (.map es') = some (.ok step) := by
  -- Each kind reads a record of its own, and makes a step of it.
  have hread {α : Type} {fs : Fields Value α} {name : String} {make : α → Step}
      (h : some (make <$> fs.read name true (.map es)) = some (.ok step)) :
      some (make <$> fs.read name true (.map es')) = some (.ok step) := by
    obtain ⟨a, ha, hm⟩ := map_eq_ok.mp (Option.some.inj h)
    have ha' := Fields.read_of_perm (Value.isMapping es) (Value.isMapping es') hp ha
    exact congrArg some (map_eq_ok.mpr ⟨a, ha', hm⟩)
  unfold readSettings? at h ⊢
  split at h
  all_goals first | exact hread h | cases h

theorem readSettings?_iff_of_perm (hp : es.Perm es') :
    readSettings? kind (.map es) = some (.ok step) ↔
      readSettings? kind (.map es') = some (.ok step) :=
  ⟨readSettings?_of_perm hp, readSettings?_of_perm hp.symm⟩

/-- The values are the same, but for the order of a step's settings. -/
inductive SameSettings : Value → Value → Prop
  | refl (v : Value) : SameSettings v v
  | keyed (kind : String) {es es' : List (Value × Value)} (hp : es.Perm es') :
    SameSettings (.keyed kind (.map es)) (.keyed kind (.map es'))

theorem SameSettings.ofValue {v w : Value} (h : SameSettings v w) (hv : Step.ofValue v = .ok step) :
    Step.ofValue w = .ok step := by
  cases h with
  | refl => exact hv
  | keyed kind hp =>
    rw [ofValue_keyed_eq_ok_iff (by simp)] at hv ⊢
    exact readSettings?_of_perm hp hv

/-- The variables, paths and keys of the step are in the order in which they stand among its
entries. -/
def InOrder (es : List (Value × Value)) : Step → Prop
  | .run s => ∀ v, Under es "environment" v → IsDict Source.str v s.environment
  | .saveCache s => ∀ v, Under es "paths" v → IsList Source.str v s.paths
  | .restoreCache s => ∀ v, Under es "keys" v → IsList Source.str v s.keys
  | .persistToWorkspace s => ∀ v, Under es "paths" v → IsList Source.str v s.paths
  | .checkout _ | .attachWorkspace _ | .storeArtifacts _ | .storeTestResults _ => True

variable {v : Value} {name : String}

theorem inOrder_run {s : RunStep} (hv : IsMapping v es)
    (h : RunStep.fields.read name true v = .ok s) : (run s).InOrder es := by
  obtain ⟨find, hb, hf⟩ := Fields.exists_find_of_read hv h
  simp only [RunStep.fields, Fields.build_and_eq_ok_iff, Fields.build_map_eq_ok_iff] at hb
  obtain ⟨_, ⟨_, ⟨_, ⟨_, ⟨_, ⟨_, ⟨_, ⟨command, -, rfl⟩, name, -, rfl⟩, shell, -, rfl⟩,
    environment, he, rfl⟩, background, -, rfl⟩, path, -, rfl⟩, timeout, -, rfl⟩,
    runWhen, -, rfl⟩ := hb
  intro t hu
  exact Source.isDict_of_readDict (Fields.read_of_build_field he (hf rfl hu))

theorem inOrder_saveCache {s : SaveCacheStep} (hv : IsMapping v es)
    (h : SaveCacheStep.fields.read name true v = .ok s) : (saveCache s).InOrder es := by
  obtain ⟨find, hb, hf⟩ := Fields.exists_find_of_read hv h
  simp only [SaveCacheStep.fields, Fields.build_and_eq_ok_iff, Fields.build_map_eq_ok_iff] at hb
  obtain ⟨_, ⟨_, ⟨_, ⟨key, -, rfl⟩, paths, hp, rfl⟩, name, -, rfl⟩, runWhen, -, rfl⟩ := hb
  intro t hu
  exact Source.isList_of_readList (Fields.read_of_build_field hp (hf rfl hu))

theorem inOrder_restoreCache {s : RestoreCacheStep} (hv : IsMapping v es)
    (h : RestoreCacheStep.fields.read name true v = .ok s) : (restoreCache s).InOrder es := by
  obtain ⟨find, hb, hf⟩ := Fields.exists_find_of_read hv h
  simp only [RestoreCacheStep.fields, Fields.build_and_eq_ok_iff, Fields.build_map_eq_ok_iff] at hb
  obtain ⟨_, ⟨keys, hk, rfl⟩, name, -, rfl⟩ := hb
  intro t hu
  exact Source.isList_of_readList (Fields.read_of_build_field hk (hf rfl hu))

theorem inOrder_persistToWorkspace {s : PersistToWorkspaceStep} (hv : IsMapping v es)
    (h : PersistToWorkspaceStep.fields.read name true v = .ok s) :
    (persistToWorkspace s).InOrder es := by
  obtain ⟨find, hb, hf⟩ := Fields.exists_find_of_read hv h
  simp only [PersistToWorkspaceStep.fields, Fields.build_and_eq_ok_iff,
    Fields.build_map_eq_ok_iff] at hb
  obtain ⟨_, ⟨root, -, rfl⟩, paths, hp, rfl⟩ := hb
  intro t hu
  exact Source.isList_of_readList (Fields.read_of_build_field hp (hf rfl hu))

theorem inOrder_of_readSettings? (hv : IsMapping v es)
    (h : readSettings? kind v = some (.ok step)) : step.InOrder es := by
  unfold readSettings? at h
  split at h
  case h_9 => cases h
  all_goals obtain ⟨s, hs, rfl⟩ := map_eq_ok.mp (Option.some.inj h)
  case h_2 => exact inOrder_run hv hs
  case h_3 => exact inOrder_saveCache hv hs
  case h_4 => exact inOrder_restoreCache hv hs
  case h_5 => exact inOrder_persistToWorkspace hv hs
  -- The other kinds have neither lists nor dictionaries.
  all_goals trivial

end Step

namespace JobDefinition

/-- The definition with other steps. -/
def withSteps (d : JobDefinition) (vs : List Value) : JobDefinition :=
  { d with steps := vs }

/-- The job that is built does not depend on the order of its steps' settings. -/
theorem build_withSteps {d : JobDefinition} {vs : List Value}
    (h : List.Forall₂ Step.SameSettings d.steps vs) {path : String} {executor : Handle} {j : AnyJob}
    (hb : d.build path executor = .ok j) : (d.withSteps vs).build path executor = .ok j := by
  obtain ⟨steps, b, hsteps, hj, hc⟩ := build_eq_ok_iff.mp hb
  refine build_eq_ok_iff.mpr ⟨steps, b, mapM_eq_ok_iff.mpr ?_, hj, hc⟩
  exact forall₂_transfer h (mapM_eq_ok_iff.mp hsteps) Step.SameSettings.ofValue

end JobDefinition

/-! ## Texts -/

namespace Fields.Local

open Yaml (Site)

/-- A required text, which most records begin with. -/
theorem str (name : String) : (Fields.required name Source.str : Fields Site String).Local :=
  required name .str

theorem optional_str (name : String) :
    (Fields.optional name Source.str : Fields Site (Option String)).Local :=
  optional name .str

theorem environment (name : String) :
    (Fields.defaulted name (Source.readDict Source.str) ∅ : Fields Site (Dict String)).Local :=
  defaulted name ∅ Yaml.Local.str.dict

theorem declaration : (Declaration.fields : Fields Site Declaration).Local :=
  required "type" (.choice _) |>.map Declaration.mk
    |>.and (optional "default" (.shape_bind _))
    |>.and (optional_str "description")
    |>.and (optional "enum" Yaml.Local.str.list)

theorem dockerImage : (DockerImage.fields : Fields Site DockerImage).Local :=
  str "image" |>.map DockerImage.mk
    |>.and (optional_str "name")
    |>.and (optional "entrypoint" Yaml.Local.str.list)
    |>.and (optional "command" Yaml.Local.str.list)
    |>.and (optional_str "user")
    |>.and (environment "environment")

theorem machine : (MachineSettings.fields : Fields Site MachineSettings).Local :=
  str "image" |>.map MachineSettings.mk
    |>.and (optional "docker_layer_caching" .bool)

theorem macos : (MacosSettings.fields : Fields Site MacosSettings).Local :=
  str "xcode" |>.map MacosSettings.mk

theorem executor : (ExecutorDefinition.fields : Fields Site ExecutorDefinition).Local :=
  str "name" |>.map ExecutorDefinition.mk
    |>.and (optional "docker" (dockerImage.read _ _).list)
    |>.and (optional "machine" (machine.read _ _))
    |>.and (optional "macos" (macos.read _ _))
    |>.and (optional_str "resource_class")

theorem job : (JobDefinition.fields : Fields Site JobDefinition).Local :=
  str "name" |>.map JobDefinition.mk
    |>.and (required "executor" (.shape_bind _))
    |>.and (defaulted "steps" [] Yaml.Local.value.list)
    |>.and (optional "parameters" (declaration.read _ _).dict)
    |>.and (optional "parallelism" .parallelism)
    |>.and (environment "environment")
    |>.and (optional_str "shell")
    |>.and (optional_str "working_directory")

end Fields.Local

variable {text text' : String}

theorem readText_job_iff (h : Yaml.Reordered text text') (d : JobDefinition) :
    Yaml.readText JobDefinition.read text = .ok d ↔
      Yaml.readText JobDefinition.read text' = .ok d :=
  ⟨Fields.Local.job.readText_of_reordered h, Fields.Local.job.readText_of_reordered h.symm⟩

theorem readText_executor_iff (h : Yaml.Reordered text text') (d : ExecutorDefinition) :
    Yaml.readText ExecutorDefinition.read text = .ok d ↔
      Yaml.readText ExecutorDefinition.read text' = .ok d :=
  ⟨Fields.Local.executor.readText_of_reordered h,
    Fields.Local.executor.readText_of_reordered h.symm⟩

/-! ## Project directories -/

section Directory

open FileTree

variable {d : Option FileTree} {f : Folder} {file : String}

/-- The text reads as a definition of the folder. -/
def Folder.Reads : Folder → String → Prop
  | executors, text => ∃ d, Yaml.readText ExecutorDefinition.read text = .ok d
  | jobs, text => ∃ d, Yaml.readText JobDefinition.read text = .ok d

/-- A definition is the same item whatever order its entries are in. -/
theorem Folder.load_item_of_reordered (h : Yaml.Reordered text text') (hr : f.Reads text)
    (path : String) (p : Project) :
    (f.item path (some text)).load p = (f.item path (some text')).load p := by
  have hread {α : Type} {read : Yaml.Site → Read α} {text : String} {d : α}
      (hd : Yaml.readText read text = .ok d) :
      readDefinition read path (.file (some text)) = .ok d := mapError_eq_ok.mpr hd
  cases f with
  | executors =>
    obtain ⟨d, hd⟩ := hr
    simp only [Folder.item, Item.load, hread hd, hread ((readText_executor_iff h d).mp hd)]
  | jobs =>
    obtain ⟨d, hd⟩ := hr
    simp only [Folder.item, Item.load, hread hd, hread ((readText_job_iff h d).mp hd)]

/-- A directory is loaded alike whatever order the entries of a definition are in. -/
theorem outcome_of_reordered (base : String) (hd : DistinctNames d)
    (hf : isDefinitionName file = true) (h : Yaml.Reordered text text') (hr : f.Reads text) :
    (loadProject base (some (putIn d f file (.file (some text))))).outcome =
      (loadProject base (some (putIn d f file (.file (some text'))))).outcome := by
  obtain ⟨front, after, hi⟩ := exists_items_putIn_file base hd f hf
  simp only [outcome_loadProject, hi, List.foldlM_append, List.foldlM_cons,
    Folder.load_item_of_reordered h hr]

end Directory

/-! ## Any order -/

/-- Of two mappings with the same entries, in any order, each reads as the definitions that the
other one reads as. So the jobs and executors that they define generate the same in every context.
The same goes for the settings of a step of any kind, so the job that the step is in is built alike.
Two texts that describe such mappings read as the same definitions, and a project directory that has
either of them in a file is loaded alike. What keeps its order is inside the definitions: their
lists, their dictionaries, and the arguments of executors. -/
theorem read_inAnyOrder :
    (∀ (σ : Type) [Source σ] (s t : σ) (es es' : List (σ × σ)), IsMapping s es → IsMapping t es' →
      es.Perm es' → Source.SameDefinitions s t ∧
        (∀ path executor held ctx contents,
          JobDefinition.Generates s path executor held ctx contents ↔
            JobDefinition.Generates t path executor held ctx contents) ∧
        ∀ ctx contents, ExecutorDefinition.Generates s ctx contents ↔
          ExecutorDefinition.Generates t ctx contents) ∧
    (∀ (es es' : List (Value × Value)) (kind : String) (step : Step), es.Perm es' →
      (Step.readSettings? kind (.map es) = some (.ok step) ↔
        Step.readSettings? kind (.map es') = some (.ok step)) ∧
      (Step.ofValue (.keyed kind (.map es)) = .ok step ↔
        Step.ofValue (.keyed kind (.map es')) = .ok step)) ∧
    (∀ (d : JobDefinition) (vs : List Value), List.Forall₂ Step.SameSettings d.steps vs →
      ∀ path executor j, d.build path executor = .ok j →
        (d.withSteps vs).build path executor = .ok j) ∧
    (∀ text text' : String, Yaml.Reordered text text' →
      (∀ d, Yaml.readText JobDefinition.read text = .ok d ↔
        Yaml.readText JobDefinition.read text' = .ok d) ∧
      (∀ d, Yaml.readText ExecutorDefinition.read text = .ok d ↔
        Yaml.readText ExecutorDefinition.read text' = .ok d) ∧
      ∀ (base : String) (directory : Option FileTree) (f : Folder) (file : String),
        FileTree.DistinctNames directory → isDefinitionName file = true → f.Reads text →
        let load (text : String) :=
          (loadProject base (some (FileTree.putIn directory f file (.file (some text))))).outcome
        load text = load text') ∧
    (∀ (σ : Type) [Source σ] (s : σ) (es : List (σ × σ)), IsMapping s es →
      (∀ d, JobDefinition.read s = .ok d → d.InOrder es) ∧
      (∀ d, ExecutorDefinition.read s = .ok d → d.InOrder es) ∧
      (∀ d, DockerImage.read s = .ok d → d.InOrder es) ∧
      ∀ d, Declaration.read s = .ok d → d.InOrder es) ∧
    ∀ (v : Value) (es : List (Value × Value)) (kind : String) (step : Step), IsMapping v es →
      Step.readSettings? kind v = some (.ok step) → step.InOrder es := by
  refine ⟨fun σ _ s t es es' hs ht hp => ?_, fun es es' kind step hp => ⟨?_, ?_⟩,
    fun d vs h path executor j => JobDefinition.build_withSteps h,
    fun text text' h => ⟨readText_job_iff h, readText_executor_iff h, ?_⟩,
    fun σ _ s es hs => ⟨?_, ?_, ?_, ?_⟩, fun v es kind step => Step.inOrder_of_readSettings?⟩
  · have h := Source.sameDefinitions_of_perm hs ht hp
    exact ⟨h, fun _ _ _ _ _ => h.job_generates_iff, fun _ _ => h.executor_generates_iff⟩
  · exact Step.readSettings?_iff_of_perm hp
  · rw [Step.ofValue_keyed_eq_ok_iff (by simp), Step.readSettings?_iff_of_perm hp,
      Step.ofValue_keyed_eq_ok_iff (by simp)]
  · exact fun base directory f file hd hf hr => outcome_of_reordered base hd hf h hr
  · exact fun d => JobDefinition.inOrder_of_read hs
  · exact fun d => ExecutorDefinition.inOrder_of_read hs
  · exact fun d => DockerImage.inOrder_of_read hs
  · exact fun d => Declaration.inOrder_of_read hs

/-- A job and a step whose entries are in the opposite order, as values and as a file. -/
theorem read_inAnyOrder_build :
    let job : List (Value × Value) :=
      [(.str "name", .str "build"), (.str "executor", .str "node"),
        (.str "steps", .strs ["checkout", "run"])]
    let run : List (Value × Value) := [(.str "command", .str "make"), (.str "name", .str "Build")]
    let d : JobDefinition :=
      ⟨"build", .name "node", [.str "checkout", .str "run"], none, none, ∅, none, none⟩
    let text := "name: build\nexecutor: node\n"
    let text' := "executor: node\nname: build\n"
    let load (text : String) := (loadProject ""
      (some (FileTree.putIn (some (.folder [])) .jobs "build.yaml" (.file (some text))))).outcome
    (job.Perm job.reverse ∧ JobDefinition.read (Value.map job) = .ok d ∧
      JobDefinition.read (Value.map job.reverse) = .ok d ∧ d.InOrder job) ∧
    Step.ofValue (.keyed "run" (.map run.reverse)) =
      .ok (.run { command := "make", name := some "Build" }) ∧
    Yaml.Reordered text text' ∧ Folder.jobs.Reads text ∧ load text = load text' := by
  have hre : Yaml.Reordered "name: build\nexecutor: node\n" "executor: node\nname: build\n" :=
    ⟨⟨.map none [(.scalar none .plain "name", .scalar none .plain "build"),
        (.scalar none .plain "executor", .scalar none .plain "node")], .none⟩,
      ⟨.map none [(.scalar none .plain "executor", .scalar none .plain "node"),
        (.scalar none .plain "name", .scalar none .plain "build")], .none⟩,
      by cbv, by cbv, ⟨none, none, _, _, rfl, rfl, .swap ..⟩, fun _ => rfl⟩
  intro job run d text text' load
  obtain ⟨hread, hstep, -, htext, horder, -⟩ := read_inAnyOrder
  have hp := (List.reverse_perm job).symm
  have hd : JobDefinition.read (Value.map job) = .ok d := by decide
  obtain ⟨hsame, -⟩ := hread Value (.map job) (.map job.reverse) job job.reverse
    (Value.isMapping _) (Value.isMapping _) hp
  obtain ⟨hjob, -⟩ := horder Value (.map job) job (Value.isMapping _)
  obtain ⟨-, hrun⟩ := hstep run run.reverse "run"
    (.run { command := "make", name := some "Build" }) (List.reverse_perm run).symm
  have hr : Folder.jobs.Reads text :=
    ⟨⟨"build", .name "node", [], none, none, ∅, none, none⟩, by decide +kernel⟩
  obtain ⟨-, -, hload⟩ := htext text text' hre
  refine ⟨⟨hp, hd, (hsame.job d).mp hd, hjob d hd⟩, hrun.mp (by decide), hre, hr, ?_⟩
  have hdir : FileTree.DistinctNames (some (.folder [])) :=
    FileTree.distinctNames_folder List.nodup_nil (List.forall_mem_nil _)
  exact hload "" _ .jobs "build.yaml" hdir (by decide) hr

end JobConfig

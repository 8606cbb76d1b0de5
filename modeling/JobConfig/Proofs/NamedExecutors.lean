import JobConfig.Proofs.BuildFaults
import JobConfig.Proofs.Bystanders

/-!
# Executors named in two ways

A job names its executor by a text, or by a mapping that has the name and may have arguments. A
mapping with the name alone (`ExecutorReference.nameOnly`) comes to the same as the text wherever
the project defines no executor of this name: the same reference is added, and the same job. Where
the project defines one the text means that one, and the mapping is refused, though it gives no
arguments. Both hold of a job that is added to a project (`Project.addJob_nameOnly_eq_iff`), and so
of its file in a project directory (`loadProject_nameOnly_iff`).
-/

namespace JobConfig

open FileTree

/-! ## References -/

namespace ExecutorReference

/-- The mapping that has a name and no arguments. -/
def nameOnly (name : String) : ExecutorReference :=
  .invocation (Dict.ofList [("name", .str name)])

variable {defined : Dict HeldExecutor} {name : String}

/-- A text always means an executor. -/
theorem exists_choose_name (defined : Dict HeldExecutor) (name : String) :
    ∃ choice, (ExecutorReference.name name).choose defined = .ok choice := by
  rw [choose]
  cases defined.get? name with
  | none => exact ⟨_, rfl⟩
  | some e => exact ⟨_, rfl⟩

theorem choose_name_of_notMem (h : name ∉ defined.keys) :
    (ExecutorReference.name name).choose defined = .ok (.elsewhere (.reusable name ∅)) := by
  have hn : defined.get? name = none := valueAt?_eq_none_iff.mpr h
  rw [choose, hn]

theorem choose_nameOnly_of_notMem (h : name ∉ defined.keys) :
    (nameOnly name).choose defined = .ok (.elsewhere (.reusable name ∅)) := by
  have hn : ¬ defined.contains name := mt Dict.contains_iff.mp h
  exact if_neg hn

/-- A mapping is refused for the name of an executor that is defined, whether or not it gives any
arguments. -/
theorem choose_invocation_of_mem {arguments : Dict Literal}
    (hn : arguments.get? "name" = some (.str name)) (h : name ∈ defined.keys) :
    (invocation arguments).choose defined = .error (.unexpectedArguments name) := by
  rw [choose, hn]
  exact if_pos (Dict.contains_iff.mpr h)

end ExecutorReference

/-! ## Jobs -/

/-- The definition with another executor. -/
def JobDefinition.inExecutor (d : JobDefinition) (r : ExecutorReference) : JobDefinition :=
  { d with executor := r }

@[simp] theorem JobDefinition.executor_inExecutor (d : JobDefinition) (r : ExecutorReference) :
    (d.inExecutor r).executor = r :=
  rfl

/-- What a definition says of its executor has no part in how the job is built. -/
theorem JobDefinition.build_inExecutor (path : String) (d : JobDefinition) (r : ExecutorReference)
    (executor : Handle) : (d.inExecutor r).build path executor = d.build path executor :=
  rfl

namespace Project

variable {p p' : Project} {path name : String} {d : JobDefinition}

/-- Adding a job does not fail for an executor that is named by a text. -/
theorem addJob_name_ne_conflict {c : Conflict} :
    p.addJob path (d.inExecutor (.name name)) ≠ .error (.conflict path c) := by
  intro h
  obtain ⟨choice, hc⟩ := ExecutorReference.exists_choose_name p.executors name
  rw [addJob_eq, JobDefinition.executor_inExecutor, hc, mapError_ok, ok_bind, bind_eq_error] at h
  rcases h with h | ⟨j, -, h⟩
  · cases JobDefinition.firstFault_of_build h
  · cases h

theorem addJob_nameOnly_of_notMem (h : name ∉ p.executors.keys) :
    p.addJob path (d.inExecutor (.nameOnly name)) = p.addJob path (d.inExecutor (.name name)) := by
  have hc : (ExecutorReference.nameOnly name).choose p.executors =
      (ExecutorReference.name name).choose p.executors := by
    rw [ExecutorReference.choose_nameOnly_of_notMem h, ExecutorReference.choose_name_of_notMem h]
  simp only [addJob_eq, JobDefinition.executor_inExecutor, hc, JobDefinition.build_inExecutor]

theorem addJob_nameOnly_of_mem (h : name ∈ p.executors.keys) :
    p.addJob path (d.inExecutor (.nameOnly name)) =
      .error (.conflict path (.unexpectedArguments name)) := by
  have hc : (ExecutorReference.nameOnly name).choose p.executors =
      .error (.unexpectedArguments name) := ExecutorReference.choose_invocation_of_mem rfl h
  rw [addJob_eq, JobDefinition.executor_inExecutor, hc, mapError_error, error_bind]

/-- The mapping with the name alone comes to the same as the text exactly if the name is not that
of an executor of the project. -/
theorem addJob_nameOnly_eq_iff :
    p.addJob path (d.inExecutor (.nameOnly name)) = p.addJob path (d.inExecutor (.name name)) ↔
      name ∉ p.executors.keys := by
  refine ⟨fun h hm => ?_, addJob_nameOnly_of_notMem⟩
  rw [addJob_nameOnly_of_mem hm] at h
  exact addJob_name_ne_conflict h.symm

/-- A job whose executor the project does not define is written with the name of the executor. -/
theorem exists_reference_of_addJob (h : name ∉ p.executors.keys)
    (ha : p.addJob path (d.inExecutor (.name name)) = .ok p') :
    ∃ e j, p'.references = p.references ++ [e] ∧ p'.jobs = p.jobs ++ [j] ∧
      j.job.executor = e.handle ∧
      ∀ ctx, e.executor.fragment ctx = ctx.resolveEntries [("executor", .str name)] := by
  have hc := ExecutorReference.choose_name_of_notMem h
  rw [addJob_eq, JobDefinition.executor_inExecutor, hc, mapError_ok, ok_bind] at ha
  obtain ⟨j, hj, he⟩ := bind_eq_ok.mp ha
  cases he
  exact ⟨_, j, rfl, rfl, JobDefinition.build_executor hj, fun ctx => rfl⟩

/-- A job whose executor the project defines is given that one, and nothing is added but the job. -/
theorem exists_defined_of_addJob (h : name ∈ p.executors.keys)
    (ha : p.addJob path (d.inExecutor (.name name)) = .ok p') :
    ∃ e j, p.executors.get? name = some e ∧ p'.references = p.references ∧
      p'.jobs = p.jobs ++ [j] ∧ j.job.executor = e.handle := by
  obtain ⟨e, he⟩ := Option.isSome_iff_exists.mp (Dict.contains_iff.mpr h)
  have hc : (ExecutorReference.name name).choose p.executors = .ok (.defined e) := by
    rw [ExecutorReference.choose, he]
  rw [addJob_eq, JobDefinition.executor_inExecutor, hc, mapError_ok, ok_bind] at ha
  obtain ⟨j, hj, hp⟩ := bind_eq_ok.mp ha
  cases hp
  exact ⟨e, j, he, rfl, rfl, JobDefinition.build_executor hj⟩

end Project

/-! ## Project directories -/

section Directory

variable {d : Option FileTree} {file : String}

/-- Jobs add no executors. -/
theorem executors_of_foldlM_jobs {base : String} {es : List (String × Option String)}
    {p p' : Project}
    (h : (es.map fun e => Item.job (base ++ e.1) e.2).foldlM Item.load p = .ok p') :
    p'.executors = p.executors := by
  induction es generalizing p with
  | nil =>
    cases h
    rfl
  | cons e es ih =>
    rw [List.map_cons, List.foldlM_cons, bind_eq_ok] at h
    obtain ⟨mid, hm, h⟩ := h
    obtain ⟨jd, -, ha⟩ := bind_eq_ok.mp hm
    exact (ih h).trans (Project.addJob_keeps ha).2.1

/-- The file of a job is loaded between what stands before and after it. -/
theorem exists_outcome_putIn_job (base : String) (hd : DistinctNames d)
    (hf : isDefinitionName file = true) :
    ∃ (before : Except LoadError Project) (after : Project → Except LoadError Project),
      (∀ p p', after p = .ok p' → p'.executors = p.executors) ∧
      ∀ text jd, Yaml.readText JobDefinition.read text = .ok jd →
        (loadProject base (some (putIn d .jobs file (.file (some text))))).outcome =
          before >>= fun p => p.addJob (base ++ "jobs/" ++ file) jd >>= after := by
  obtain ⟨front, after, hi⟩ := exists_items_putIn_file base hd .jobs hf
  refine ⟨front.foldlM Item.load .empty,
    (after.map fun e => .job (base ++ "jobs/" ++ e.1) e.2).foldlM Item.load,
    fun p p' h => executors_of_foldlM_jobs h, fun text jd hr => ?_⟩
  have hj (p : Project) : (Item.job (base ++ "jobs/" ++ file) (some text)).load p =
      p.addJob (base ++ "jobs/" ++ file) jd := by
    have hread : readDefinition JobDefinition.read (base ++ "jobs/" ++ file) (.file (some text)) =
        .ok jd := mapError_eq_ok.mpr hr
    rw [Item.load, hread, ok_bind]
  -- Nothing is loaded after the jobs.
  have hi : items base (some (putIn d .jobs file (.file (some text)))) =
      front ++ .job (base ++ "jobs/" ++ file) (some text) ::
        after.map fun e => .job (base ++ "jobs/" ++ e.1) e.2 :=
    (hi text).trans (by rw [Folder.rest, List.append_nil]; rfl)
  simp only [outcome_loadProject, hi, List.foldlM_append, List.foldlM_cons, hj]

/-- Of two project directories that differ in how one job names its executor, the one with the
mapping is loaded as the other one is, unless it defines the executor. -/
theorem outcome_nameOnly (base : String) (hd : DistinctNames d) (hf : isDefinitionName file = true)
    {jd : JobDefinition} {name text text' : String}
    (ht : Yaml.readText JobDefinition.read text = .ok (jd.inExecutor (.name name)))
    (ht' : Yaml.readText JobDefinition.read text' = .ok (jd.inExecutor (.nameOnly name))) :
    let load (text : String) :=
      (loadProject base (some (putIn d .jobs file (.file (some text))))).outcome
    ∀ p, (load text' = .ok p ↔ load text = .ok p ∧ name ∉ p.executors.keys) ∧
      (load text = .ok p → name ∈ p.executors.keys → load text' =
        .error (.conflict (base ++ "jobs/" ++ file) (.unexpectedArguments name))) := by
  intro load p
  obtain ⟨before, after, hkeep, hload⟩ := exists_outcome_putIn_job base hd hf
  have hnamed : load text = _ := hload text _ ht
  have hmapped : load text' = _ := hload text' _ ht'
  rw [hnamed, hmapped]
  cases before with
  | error e => exact ⟨⟨nofun, nofun⟩, nofun⟩
  | ok start =>
    simp only [ok_bind]
    -- The executors are all there before the job is added, and stay.
    have hkeys (hp : (start.addJob (base ++ "jobs/" ++ file) (jd.inExecutor (.name name)) >>=
        after) = .ok p) : p.executors = start.executors := by
      obtain ⟨mid, ha, hp⟩ := bind_eq_ok.mp hp
      exact (hkeep _ _ hp).trans (Project.addJob_keeps ha).2.1
    by_cases hm : name ∈ start.executors.keys
    · rw [Project.addJob_nameOnly_of_mem hm, error_bind]
      exact ⟨⟨nofun, fun ⟨hp, hn⟩ => absurd (hkeys hp ▸ hm) hn⟩, fun _ _ => rfl⟩
    · rw [Project.addJob_nameOnly_of_notMem hm]
      exact ⟨⟨fun hp => ⟨hp, hkeys hp ▸ hm⟩, And.left⟩, fun hp h => absurd (hkeys hp ▸ h) hm⟩

/-- The mapping with a name alone and the name as a text are two ways to give an executor. In a
project that does not define it they come to the same, be it a project or an error: a reference by
this name is added, and a job that is written with it. In a project that defines it the text means
the executor that is defined, and the mapping is refused. So of two project directories that differ
in this only, the one with the mapping is loaded exactly if the other one is and does not define the
executor, and then as the same project. -/
theorem loadProject_nameOnly_iff (jd : JobDefinition) (name : String) :
    ExecutorReference.ofValue? (.str name) = some (.name name) ∧
    ExecutorReference.ofValue? (.map [(.str "name", .str name)]) = some (.nameOnly name) ∧
    (∀ (p : Project) (path : String),
      let named := p.addJob path (jd.inExecutor (.name name))
      let mapped := p.addJob path (jd.inExecutor (.nameOnly name))
      (mapped = named ↔ name ∉ p.executors.keys) ∧
      (name ∉ p.executors.keys → ∀ p', named = .ok p' →
        ∃ e j, p'.references = p.references ++ [e] ∧ p'.jobs = p.jobs ++ [j] ∧
          j.job.executor = e.handle ∧
          ∀ ctx, e.executor.fragment ctx = ctx.resolveEntries [("executor", .str name)]) ∧
      (name ∈ p.executors.keys → mapped = .error (.conflict path (.unexpectedArguments name)) ∧
        ∀ p', named = .ok p' → ∃ e j, p.executors.get? name = some e ∧
          p'.references = p.references ∧ p'.jobs = p.jobs ++ [j] ∧ j.job.executor = e.handle)) ∧
    ∀ (base : String) (d : Option FileTree) (file text text' : String),
      DistinctNames d → isDefinitionName file = true →
      Yaml.readText JobDefinition.read text = .ok (jd.inExecutor (.name name)) →
      Yaml.readText JobDefinition.read text' = .ok (jd.inExecutor (.nameOnly name)) →
      let load (text : String) :=
        (loadProject base (some (putIn d .jobs file (.file (some text))))).outcome
      ∀ p, (load text' = .ok p ↔ load text = .ok p ∧ name ∉ p.executors.keys) ∧
        (load text = .ok p → name ∈ p.executors.keys → load text' =
          .error (.conflict (base ++ "jobs/" ++ file) (.unexpectedArguments name))) := by
  refine ⟨rfl, rfl, fun p path => ⟨Project.addJob_nameOnly_eq_iff, fun hn p' hp' => ?_,
    fun hm => ⟨?_, fun p' hp' => ?_⟩⟩, fun base d file text text' hd hf ht ht' => ?_⟩
  · exact Project.exists_reference_of_addJob hn hp'
  · exact Project.addJob_nameOnly_of_mem hm
  · exact Project.exists_defined_of_addJob hm hp'
  · exact outcome_nameOnly base hd hf ht ht'

/-- A job names an executor that the project defines: as a text it is loaded, and as a mapping with
the name alone it is not. -/
theorem not_nameOnly_of_defined :
    let node := "name: node\ndocker:\n- image: cimg/node:20.5\n"
    let load (job : String) := (loadProject "" (some (.folder [
      ("executors", .folder [("node.yaml", .file (some node))]),
      ("jobs", .folder [("build.yaml", .file (some job))])]))).outcome
    (∃ p, load "name: build\nexecutor: node\n" = .ok p) ∧
      load "name: build\nexecutor:\n  name: node\n" =
        .error (.conflict "jobs/build.yaml" (.unexpectedArguments "node")) := by
  intro node load
  exact ⟨failure?_eq_none_iff.mp (by decide +kernel), failure?_eq_some_iff.mp (by decide +kernel)⟩

/-- Beside an executor `linux`, a job can name `node` in both ways, and `linux` by a text only. -/
theorem loadProject_nameOnly_iff_build :
    let linux : FileTree := .file (some "name: linux\nmacos:\n  xcode: \"15.0\"\n")
    let d : FileTree := .folder [("executors", .folder [("linux.yaml", linux)])]
    let load (job : String) :=
      (loadProject "" (some (putIn (some d) .jobs "build.yaml" (.file (some job))))).outcome
    (∃ p, load "name: build\nexecutor: node\n" = .ok p ∧
      load "name: build\nexecutor:\n  name: node\n" = .ok p) ∧
    (∃ p, load "name: build\nexecutor: linux\n" = .ok p) ∧
      load "name: build\nexecutor:\n  name: linux\n" =
        .error (.conflict "jobs/build.yaml" (.unexpectedArguments "linux")) := by
  intro linux d load
  have hd : DistinctNames (some d) := by
    refine distinctNames_folder (by decide) (List.forall_mem_singleton.mpr ?_)
    exact distinctNames_files [("linux.yaml", some _)] (by decide)
  let jd : JobDefinition := ⟨"build", .name "", [], none, none, ∅, none, none⟩
  have hkeys {job : String} (h : (fun p : Project => p.executors.keys) <$> load job =
      .ok ["linux"]) : ∃ p, load job = .ok p ∧ p.executors.keys = ["linux"] := map_eq_ok.mp h
  obtain ⟨p, hp, hpk⟩ : ∃ p, load "name: build\nexecutor: node\n" = .ok p ∧ _ :=
    hkeys (by decide +kernel)
  obtain ⟨q, hq, hqk⟩ : ∃ p, load "name: build\nexecutor: linux\n" = .ok p ∧ _ :=
    hkeys (by decide +kernel)
  obtain ⟨-, -, -, hnode⟩ := loadProject_nameOnly_iff jd "node"
  obtain ⟨-, -, -, hlinux⟩ := loadProject_nameOnly_iff jd "linux"
  refine ⟨⟨p, hp, ?_⟩, ⟨q, hq⟩, ?_⟩
  · exact (hnode "" (some d) "build.yaml" _ _ hd (by decide) (by decide +kernel)
      (by decide +kernel) p).1.mpr ⟨hp, by rw [hpk]; decide⟩
  · exact (hlinux "" (some d) "build.yaml" _ _ hd (by decide) (by decide +kernel)
      (by decide +kernel) q).2 hq (by rw [hqk]; decide)

end Directory

end JobConfig

import JobConfig.Proofs.Documents
import JobConfig.Proofs.JobRoundTrip

/-!
# Loaded projects hold their executors

Jobs do not hold their executors, so a project has to. While it is loaded, each job is given an
executor that the project holds from then on: the one that it defines under the name that the job
gives, or a new reference to one that is defined elsewhere (`Project.Provides`). Later files add to
the project and take nothing away (`Project.Grows`), and no two executors of a project are the same
instance (`Project.Distinct`). So in a loaded project every job finds its own executor, and no job
of it, alone or in the document, fails for want of one (`loadProject_provides`).
-/

namespace JobConfig

namespace Project

variable {p p' p'' : Project} {r : ExecutorReference} {e : HeldExecutor} {path : String}

/-! ## Executors of jobs -/

/-- What a job's reference to an executor comes to in a project. -/
inductive Provides (p : Project) : ExecutorReference → HeldExecutor → Prop
  /-- A name under which the project defines an executor. -/
  | defined {name : String} {e : HeldExecutor} (h : p.executors.get? name = some e) :
    Provides p (.name name) e
  /-- A name under which it defines none. -/
  | elsewhere {name : String} {e : HeldExecutor} (h : name ∉ p.executors.keys)
    (he : e ∈ p.references) (hx : e.executor = .reusable name ∅) : Provides p (.name name) e
  /-- A name and arguments; the arguments keep their order. -/
  | invoked {arguments : Dict Literal} {name : String} {e : HeldExecutor}
    (hn : arguments.get? "name" = some (.str name)) (h : name ∉ p.executors.keys)
    (he : e ∈ p.references) (hx : e.executor = .reusable name (arguments.erase "name")) :
    Provides p (.invocation arguments) e

/-- A project to which no executor has been added but references to executors. -/
structure Grows (p p' : Project) : Prop where
  executors : p'.executors = p.executors
  references : ∀ e ∈ p.references, e ∈ p'.references

theorem Grows.refl (p : Project) : p.Grows p :=
  ⟨rfl, fun _ h => h⟩

theorem Grows.trans (h : p.Grows p') (h' : p'.Grows p'') : p.Grows p'' :=
  ⟨h'.executors.trans h.executors, fun e he => h'.references e (h.references e he)⟩

theorem Provides.mono (h : p.Provides r e) (hg : p.Grows p') : p'.Provides r e := by
  cases h with
  | defined h => exact .defined (hg.executors ▸ h)
  | elsewhere h he hx => exact .elsewhere (hg.executors ▸ h) (hg.references e he) hx
  | invoked hn h he hx => exact .invoked hn (hg.executors ▸ h) (hg.references e he) hx

/-- What a project provides it holds. -/
theorem Provides.mem_holdings (h : p.Provides r e) : e ∈ p.holdings := by
  cases h with
  | defined h =>
    exact List.mem_append_left _ (List.mem_map_of_mem (f := Prod.snd) (Dict.mem_entries_iff.mpr h))
  | elsewhere _ he _ => exact List.mem_append_right _ he
  | invoked _ _ he _ => exact List.mem_append_right _ he

/-! ## Instances -/

/-- No two executors of a project are the same instance. -/
def Distinct (p : Project) : Prop :=
  (p.holdings.map HeldExecutor.handle).Nodup

/-- Each executor of a project is what is held under its handle. -/
theorem Distinct.held_eq (h : p.Distinct) (he : e ∈ p.holdings) :
    p.held e.handle = some e.executor := by
  cases hx : p.held e.handle with
  | none => exact absurd rfl (Held.ofList_eq_none_iff.mp hx e he)
  | some x =>
    have hm : (⟨e.handle, x⟩ : HeldExecutor) = e :=
      List.inj_on_of_nodup_map h (Held.mem_of_ofList hx) he rfl
    rw [← hm]

theorem fresh_notMem (p : Project) :
    Handle.fresh p.holdings ∉ p.holdings.map HeldExecutor.handle := by
  intro h
  obtain ⟨e, he, hf⟩ := List.mem_map.mp h
  exact Nat.ne_of_lt (Handle.number_lt_fresh he) (congrArg Handle.number hf)

/-- A new instance is different from those that are there, wherever it is put. -/
theorem Distinct.of_perm (h : p.Distinct) {x : Executor}
    (hp : p'.holdings.Perm (⟨.fresh p.holdings, x⟩ :: p.holdings)) : p'.Distinct := by
  unfold Distinct
  rw [(hp.map _).nodup_iff, List.map_cons, List.nodup_cons]
  exact ⟨p.fresh_notMem, h⟩

theorem Distinct.define (h : p.Distinct) {name : String} (hn : name ∉ p.executors.keys)
    (x : Executor) : (p.define name x).Distinct := by
  refine h.of_perm (x := x) ?_
  have he := Dict.entries_insert_of_notMem hn ⟨.fresh p.holdings, x⟩
  have hh : (p.define name x).holdings =
      p.executors.entries.map Prod.snd ++ ⟨.fresh p.holdings, x⟩ :: p.references := by
    show (p.executors.insert name ⟨.fresh p.holdings, x⟩).entries.map Prod.snd ++ p.references = _
    rw [he, List.map_append, List.append_assoc]
    rfl
  rw [hh]
  exact List.perm_middle

theorem Distinct.refer (h : p.Distinct) (x : Executor) : (p.refer x).1.Distinct := by
  refine h.of_perm (x := x) ?_
  have hh : (p.refer x).1.holdings = p.holdings ++ [⟨.fresh p.holdings, x⟩] :=
    (List.append_assoc ..).symm
  rw [hh]
  exact List.perm_append_singleton ..

/-! ## Adding definitions -/

theorem distinct_of_addExecutor {d : ExecutorDefinition} (h : p.Distinct)
    (ha : p.addExecutor path d = .ok p') : p'.Distinct ∧ p'.jobs = p.jobs := by
  unfold addExecutor at ha
  split at ha
  · cases ha
  · rename_i hc
    split at ha
    · cases ha
    · cases ha
      exact ⟨h.define (mt Dict.contains_iff.mpr hc) _, rfl⟩

/-- The project after an executor has been chosen for a job, and the executor. -/
def take (p : Project) : ExecutorChoice → Project × HeldExecutor
  | .defined e => (p, e)
  | .elsewhere x => p.refer x

/-- The executor that is chosen for a reference is one that the project provides from then on. -/
theorem provides_take {choice : ExecutorChoice} (hc : r.choose p.executors = .ok choice) :
    (p.take choice).1.Provides r (p.take choice).2 := by
  have hr (x : Executor) : (p.refer x).2 ∈ (p.refer x).1.references :=
    List.mem_append_right _ (List.mem_singleton_self _)
  cases r with
  | name n =>
    rw [ExecutorReference.choose] at hc
    split at hc
    · rename_i e he
      cases hc
      exact .defined he
    · rename_i hn
      cases hc
      exact .elsewhere (valueAt?_eq_none_iff.mp hn) (hr _) rfl
  | invocation arguments =>
    rw [ExecutorReference.choose] at hc
    split at hc
    · rename_i n hn
      split at hc
      · cases hc
      · rename_i hd
        cases hc
        exact .invoked hn (mt Dict.contains_iff.mpr hd) (hr _) rfl
    · cases hc

theorem grows_take (p : Project) (choice : ExecutorChoice) : p.Grows (p.take choice).1 := by
  cases choice with
  | defined e => exact .refl p
  | elsewhere x => exact ⟨rfl, fun e he => List.mem_append_left _ he⟩

theorem Distinct.take (h : p.Distinct) (choice : ExecutorChoice) : (p.take choice).1.Distinct := by
  cases choice with
  | defined e => exact h
  | elsewhere x => exact h.refer x

theorem addJob_eq (p : Project) (path : String) (d : JobDefinition) :
    p.addJob path d = do
      let choice ← (d.executor.choose p.executors).mapError (.conflict path)
      let j ← d.build path (p.take choice).2.handle
      return { (p.take choice).1 with jobs := p.jobs ++ [j] } := by
  unfold addJob
  cases d.executor.choose p.executors with
  | error e => rfl
  | ok choice => cases choice <;> rfl

/-- A job that is added is built in an executor that the project provides for it. -/
theorem addJob_eq_ok {d : JobDefinition} (ha : p.addJob path d = .ok p') :
    ∃ e j, p'.Provides d.executor e ∧ d.build path e.handle = .ok j ∧ p.Grows p' ∧
      p'.jobs = p.jobs ++ [j] ∧ (p.Distinct → p'.Distinct) := by
  simp only [addJob_eq, bind_eq_ok, mapError_eq_ok, pure_eq_ok_iff] at ha
  obtain ⟨choice, hc, j, hj, rfl⟩ := ha
  have hg : (p.take choice).1.Grows { (p.take choice).1 with jobs := p.jobs ++ [j] } :=
    ⟨rfl, fun _ he => he⟩
  exact ⟨_, j, (provides_take hc).mono hg, hj, (p.grows_take choice).trans hg, rfl,
    fun h => h.take choice⟩

end Project

/-! ## Files -/

section Files

variable {α : Type} {read : Yaml.Site → Read α}
  {add : Project → String → α → Except LoadError Project} {p p' : Project}
  {files : List (String × FileTree)}

theorem addAll_cons_eq_ok {f : String × FileTree} :
    addAll read add p (f :: files) = .ok p' ↔
      ∃ d mid, readDefinition read f.1 f.2 = .ok d ∧ add p f.1 d = .ok mid ∧
        addAll read add mid files = .ok p' := by
  simp only [addAll, bind_eq_ok]
  constructor
  · rintro ⟨d, hd, mid, hm, h⟩
    exact ⟨d, mid, hd, hm, h⟩
  · rintro ⟨d, mid, hd, hm, h⟩
    exact ⟨d, hd, mid, hm, h⟩

/-- What each definition keeps the files keep. -/
theorem addAll_keeps {P : Project → Prop} (hP : ∀ p path d p', P p → add p path d = .ok p' → P p')
    (hp : P p) (h : addAll read add p files = .ok p') : P p' := by
  induction files generalizing p with
  | nil =>
    cases h
    exact hp
  | cons f files ih =>
    obtain ⟨d, mid, -, hm, h⟩ := addAll_cons_eq_ok.mp h
    exact ih (hP _ f.1 d mid hp hm) h

end Files

namespace Project

/-- The job was built from the file, in an executor that the project provides for it. -/
def BuiltFrom (p : Project) (f : String × FileTree) (j : AnyJob) : Prop :=
  ∃ d e, readDefinition JobDefinition.read f.1 f.2 = .ok d ∧ d.build f.1 e.handle = .ok j ∧
    p.Provides d.executor e

/-- Each file adds the job that it defines, and the project goes on providing for those before. -/
theorem builtFrom_of_addAll {p p' : Project} {files : List (String × FileTree)}
    (h : addAll JobDefinition.read Project.addJob p files = .ok p') :
    p.Grows p' ∧ ∃ js, p'.jobs = p.jobs ++ js ∧ List.Forall₂ p'.BuiltFrom files js := by
  induction files generalizing p with
  | nil =>
    cases h
    exact ⟨.refl _, [], (List.append_nil _).symm, .nil⟩
  | cons f files ih =>
    obtain ⟨d, mid, hd, hm, h⟩ := addAll_cons_eq_ok.mp h
    obtain ⟨e, j, hp, hj, hg, hjobs, -⟩ := addJob_eq_ok hm
    obtain ⟨hg', js, hjs, hf⟩ := ih h
    refine ⟨hg.trans hg', j :: js, ?_, .cons ⟨d, e, hd, hj, hp.mono hg'⟩ hf⟩
    rw [hjs, hjobs, List.append_assoc, List.singleton_append]

end Project

theorem JobDefinition.build_executor {path : String} {d : JobDefinition} {h : Handle} {j : AnyJob}
    (hj : d.build path h = .ok j) : j.job.executor = h := by
  simp only [build, bind_eq_ok, mapError_eq_ok] at hj
  obtain ⟨steps, -, b, hb, hj⟩ := hj
  have he := Job.executor_of_withProperties hb
  split at hj
  · cases hj
    exact he
  · obtain ⟨ps, -, hj⟩ := bind_eq_ok.mp hj
    cases hj
    exact he

/-! ## Projects -/

/-- The files of a project directory that define jobs. -/
def jobFiles (base : String) (directory : Option FileTree) : List (String × FileTree) :=
  definitionFiles (base ++ "jobs/") ((directory.bind (·.child? "jobs")).getD .emptyFolder)

/-- A project that is loaded is one without jobs to which the files of the jobs have been added. -/
theorem exists_addAll_of_loadProject {base : String} {directory : Option FileTree} {p : Project}
    (h : (loadProject base directory).outcome = .ok p) :
    ∃ start : Project, start.Distinct ∧ start.jobs = [] ∧
      addAll JobDefinition.read Project.addJob start (jobFiles base directory) = .ok p := by
  unfold loadProject at h
  split at h
  · exact ⟨.empty, List.nodup_nil, rfl, h⟩
  · split at h
    · cases h
    · dsimp only at h
      split at h
      · cases h
      · rename_i start hstart
        have hk : start.Distinct ∧ start.jobs = [] := by
          refine addAll_keeps (P := fun p => p.Distinct ∧ p.jobs = []) ?_ ?_ hstart
          · rintro p path d p' ⟨hd, hj⟩ ha
            obtain ⟨hd', hj'⟩ := Project.distinct_of_addExecutor hd ha
            exact ⟨hd', hj'.trans hj⟩
          · exact ⟨List.nodup_nil, rfl⟩
        exact ⟨start, hk.1, hk.2, h⟩

/-- The job was built from the file, and its executor is the one that the project provides for what
the file says, and holds. -/
def Project.ProvidesFor (p : Project) (f : String × FileTree) (j : AnyJob) : Prop :=
  ∃ d e, readDefinition JobDefinition.read f.1 f.2 = .ok d ∧ d.build f.1 e.handle = .ok j ∧
    p.Provides d.executor e ∧ j.job.executor = e.handle ∧ p.held j.job.executor = some e.executor

theorem providesFor_of_loadProject {base : String} {directory : Option FileTree} {p : Project}
    (h : (loadProject base directory).outcome = .ok p) :
    List.Forall₂ p.ProvidesFor (jobFiles base directory) p.jobs := by
  obtain ⟨start, hd, hs, ha⟩ := exists_addAll_of_loadProject h
  have hdistinct : p.Distinct := by
    refine addAll_keeps (fun p path d p' hd ha => ?_) hd ha
    obtain ⟨-, -, -, -, -, -, hk⟩ := Project.addJob_eq_ok ha
    exact hk hd
  obtain ⟨-, js, hjs, hf⟩ := Project.builtFrom_of_addAll ha
  rw [hjs, hs, List.nil_append]
  refine hf.imp ?_
  rintro f j ⟨d, e, hd, hj, hp⟩
  have hx := JobDefinition.build_executor hj
  exact ⟨d, e, hd, hj, hp, hx, hx ▸ hdistinct.held_eq hp.mem_holdings⟩

/-- A loaded project holds the executors of its jobs. -/
theorem held_ne_none_of_loadProject {base : String} {directory : Option FileTree} {p : Project}
    (h : (loadProject base directory).outcome = .ok p) :
    ∀ j ∈ p.jobs, p.held j.job.executor ≠ none := by
  intro j hj
  obtain ⟨f, d, e, -, -, -, -, he⟩ :=
    exists_forall₂_iff.mp ⟨_, (providesFor_of_loadProject h).flip⟩ j hj
  simp [he]

/-- Each job of a loaded project comes from one of its files, in their order, and its executor is
the one that the project defines under the name that the file gives, or a reference of the project
with that name and the arguments of the file. The project holds it, so that neither the document nor
a job alone fails for want of an executor, in whatever context. -/
theorem loadProject_provides {base : String} {directory : Option FileTree} {p : Project}
    (h : (loadProject base directory).outcome = .ok p) :
    List.Forall₂ p.ProvidesFor (jobFiles base directory) p.jobs ∧
    (∀ ctx name, p.render ctx ≠ .error (.undefinedExecutor name)) ∧
    (∀ j ∈ p.jobs, ∀ ctx name, j.contents p.held ctx ≠ .error (.undefinedExecutor name) ∧
      j.generate p.held ctx ≠ .error (.undefinedExecutor name)) := by
  have hc : ∀ j ∈ p.jobs, ∀ ctx name, j.contents p.held ctx ≠ .error (.undefinedExecutor name) :=
    fun j hj ctx name he =>
      held_ne_none_of_loadProject h j hj (AnyJob.contents_eq_undefinedExecutor_iff.mp he).1
  refine ⟨providesFor_of_loadProject h, fun ctx name he => ?_,
    fun j hj ctx name => ⟨hc j hj ctx name, fun he => ?_⟩⟩
  · obtain ⟨j, hj, he | he⟩ := Document.exists_of_render_eq_error he
    · cases he
    · exact hc j hj ctx name he
  · exact hc j hj ctx name (AnyJob.generate_eq_error_iff.mp he)

/-- One job runs in an executor that the project defines, the other in one that is defined
elsewhere, whose name stands among its arguments. -/
theorem loadProject_provides_deploy :
    let linux := "name: linux\nmacos:\n  xcode: \"15.0\"\n"
    let build := "name: build\nexecutor: linux\n"
    let deploy := "name: deploy\nexecutor:\n  slim: true\n  name: node\n  version: \"20.1\"\n"
    let dir : FileTree := .folder [
      ("executors", .folder [("linux.yaml", .file (some linux))]),
      ("jobs", .folder [("deploy.yml", .file (some deploy)), ("build.yaml", .file (some build))])]
    ∃ p, (loadProject "" (some dir)).outcome = .ok p ∧
      p.jobs.map AnyJob.name = ["build", "deploy"] ∧
      p.jobs.map (fun j => p.held j.job.executor) = [some (.macos ⟨"15.0"⟩ none),
        some (.reusable "node" (.ofList [("slim", .bool true), ("version", .str "20.1")]))] ∧
      List.Forall₂ p.ProvidesFor (jobFiles "" (some dir)) p.jobs ∧
      (∀ ctx name, p.render ctx ≠ .error (.undefinedExecutor name)) ∧
      ∀ j ∈ p.jobs, ∀ ctx name, j.contents p.held ctx ≠ .error (.undefinedExecutor name) ∧
        j.generate p.held ctx ≠ .error (.undefinedExecutor name) := by
  intro linux build deploy dir
  have hl : (fun p : Project => (p.jobs.map AnyJob.name, p.jobs.map fun j => p.held j.job.executor))
      <$> (loadProject "" (some dir)).outcome = .ok (["build", "deploy"],
        [some (.macos ⟨"15.0"⟩ none),
          some (.reusable "node" (.ofList [("slim", .bool true), ("version", .str "20.1")]))]) := by
    decide +kernel
  obtain ⟨p, hp, hq⟩ := map_eq_ok.mp hl
  obtain ⟨hn, hx⟩ := Prod.mk.inj hq
  exact ⟨p, hp, hn, hx, loadProject_provides hp⟩

end JobConfig

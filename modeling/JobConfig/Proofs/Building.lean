import JobConfig.Project.Build
import JobConfig.Proofs.Calls
import JobConfig.Proofs.ParameterRoundTrip

/-!
# Building a defined job by calls

A definition of a job is built at once (`JobDefinition.build`), or by calls: a new job is given the
steps, the variables and the settings of the definition one after the other, and then its parameters
(`JobDefinition.assemble`). The two succeed together, and give the same job
(`JobDefinition.build_iff_assemble`).
-/

namespace JobConfig

/-! ## Runs of calls -/

namespace AnyJob

theorem eq_plain {j : AnyJob} (h : j.parameters? = none) : j = plain j.job := by
  cases j with
  | plain b => rfl
  | parameterized b => cases h

/-- Only a parameter can be refused. -/
theorem apply_eq_ok_call {c : JobCall} (h : ∀ p, c ≠ .addParameter p) (j : AnyJob) :
    j.apply c = .ok (j.call c) := by
  cases c with
  | addStep s => rfl
  | change c => rfl
  | addParameter p => exact absurd rfl (h p)

theorem foldlM_apply_eq_ok {calls : List JobCall} (h : ∀ c ∈ calls, ∀ p, c ≠ .addParameter p)
    (j : AnyJob) : calls.foldlM apply j = .ok (j.after calls) := by
  induction calls generalizing j with
  | nil => rfl
  | cons c calls ih =>
    rw [List.forall_mem_cons] at h
    rw [List.foldlM_cons, apply_eq_ok_call h.1, ok_bind, ih h.2]
    rfl

/-- Parameters that are declared one by one on a job are those that are declared first and then
added one by one. -/
theorem foldlM_declared_eq_ok_iff {es : List (String × Declaration)} {b : Job} {ps : Parameters}
    {j : AnyJob} :
    (es.map fun e => JobCall.addParameter (.declared e.1 e.2)).foldlM apply
        (parameterized ⟨b, ps⟩) = .ok j ↔
      ∃ qs ps', es.mapM (fun e => Parameter.declare e.1 e.2) = .ok qs ∧
        qs.foldlM Parameters.add ps = .ok ps' ∧ j = parameterized ⟨b, ps'⟩ := by
  induction es generalizing ps with
  | nil =>
    simp only [List.map_nil, List.foldlM_nil, List.mapM_nil, pure_eq_ok_iff]
    constructor
    · rintro rfl
      exact ⟨[], ps, rfl, rfl, rfl⟩
    · rintro ⟨_, _, rfl, ⟨⟩, rfl⟩
      rfl
  | cons e es ih =>
    simp only [List.map_cons, List.foldlM_cons, List.mapM_cons, bind_eq_ok, pure_eq_ok_iff,
      apply_addParameter_eq_ok_iff]
    constructor
    · rintro ⟨_, ⟨_, q, ps₁, ⟨⟩, hq, hps, rfl⟩, h⟩
      obtain ⟨qs, ps', hqs, hps', rfl⟩ := ih.mp h
      refine ⟨q :: qs, ps', ⟨q, hq, qs, hqs, rfl⟩, ?_, rfl⟩
      rw [List.foldlM_cons, hps, ok_bind, hps']
    · rintro ⟨_, ps', ⟨q, hq, qs, hqs, rfl⟩, hps', rfl⟩
      rw [List.foldlM_cons, bind_eq_ok] at hps'
      obtain ⟨ps₁, hps, hps'⟩ := hps'
      exact ⟨_, ⟨_, q, ps₁, rfl, hq, hps, rfl⟩, ih.mpr ⟨qs, ps', hqs, hps', rfl⟩⟩

end AnyJob

theorem Job.exists_withProperties_iff {name : String} {executor : Handle} {steps : List Step}
    {properties : JobProperties} :
    (∃ b, withProperties name executor steps properties = .ok b) ↔ isName name.toList = true := by
  unfold withProperties
  split <;> simp [*]

theorem Job.exists_new_iff {name : String} {executor : Handle} :
    (∃ b, new name executor = .ok b) ↔ isName name.toList = true :=
  exists_withProperties_iff

/-! ## Definitions -/

namespace JobDefinition

/-- The calls that give a new job the steps, the variables and the settings of a definition. -/
def calls (d : JobDefinition) (steps : List Step) : List JobCall :=
  steps.map .addStep ++
  d.environment.entries.map (fun e => .change (.variable e.1 e.2)) ++
  (d.parallelism.map fun n => .change (.parallelism n)).toList ++
  (d.shell.map fun shell => .change (.shell shell)).toList ++
  (d.workingDirectory.map fun path => .change (.workingDirectory path)).toList

/-- The job with the parameters of a definition, declared one after the other, if it has the
section. -/
def declareParameters (d : JobDefinition) (j : AnyJob) : Session.Outcome AnyJob :=
  match d.parameters with
  | none => .ok j
  | some declarations =>
    (declarations.entries.map fun e => .addParameter (.declared e.1 e.2)).foldlM AnyJob.apply
      (.parameterized ⟨j.job, ∅⟩)

/-- The job of a definition whose steps are read, built by calls that all have to succeed. -/
def assemble (d : JobDefinition) (executor : Handle) (steps : List Step) :
    Session.Outcome AnyJob := do
  let b ← (Job.new d.name executor).mapError .build
  let j ← (d.calls steps).foldlM AnyJob.apply (.plain b)
  d.declareParameters j

/-- A job with the parameters of a definition, put together at once, if it has the section. -/
def complete (d : JobDefinition) (b : Job) : Except BuildError AnyJob :=
  match d.parameters with
  | none => .ok (.plain b)
  | some declarations => do
    let ps ← buildParameters declarations
    return .parameterized ⟨b, ps⟩

variable {d : JobDefinition} {executor : Handle} {steps : List Step} {j : AnyJob} {path : String}

/-- What a view gives of the calls is what it gives of the parts of the definition. -/
theorem filterMap_calls {α : Type} (f : JobCall → Option α) : (d.calls steps).filterMap f =
    steps.filterMap (fun s => f (.addStep s)) ++
    d.environment.entries.filterMap (fun e => f (.change (.variable e.1 e.2))) ++
    (d.parallelism.bind fun n => f (.change (.parallelism n))).toList ++
    (d.shell.bind fun shell => f (.change (.shell shell))).toList ++
    (d.workingDirectory.bind fun path => f (.change (.workingDirectory path))).toList := by
  have ho {β : Type} (g : β → JobCall) (o : Option β) :
      (o.map g).toList.filterMap f = (o.bind fun b => f (g b)).toList := by
    cases o with
    | none => rfl
    | some b => cases h : f (g b) <;> simp [h]
  simp only [calls, List.filterMap_append, List.filterMap_map, ho, Function.comp_def]

theorem step?_calls : (d.calls steps).filterMap JobCall.step? = steps := by
  simp [filterMap_calls, JobCall.step?]

theorem properties_calls : JobCall.properties (d.calls steps) = d.properties := by
  have hl {α : Type} (o : Option α) : o.toList.getLast? = o := by
    cases o <;> rfl
  simp [JobCall.properties, filterMap_calls, JobCall.assignment?, JobCall.parallelism?,
    JobCall.shell?, JobCall.workingDirectory?, hl, properties]

theorem ne_addParameter_of_mem_calls {c : JobCall} (h : c ∈ d.calls steps) :
    ∀ p, c ≠ .addParameter p := by
  rintro p rfl
  simp [calls] at h

theorem buildSteps_eq_ok_iff {i : Nat} {vs : List Value} :
    buildSteps path i vs = .ok steps ↔ vs.mapM Step.ofValue = .ok steps := by
  induction vs generalizing i steps with
  | nil => rw [buildSteps, List.mapM_nil, pure_eq_ok_iff, Except.ok.injEq]
  | cons v vs ih =>
    simp only [buildSteps, List.mapM_cons, bind_eq_ok, mapError_eq_ok, pure_eq_ok_iff, ih]

theorem names_of_declared {es : List (String × Declaration)} {qs : List Parameter}
    (h : List.Forall₂ (fun e q => Parameter.declare e.1 e.2 = .ok q) es qs) :
    parameterNames qs = entryKeys es := by
  induction h with
  | nil => rfl
  | cons h _ ih =>
    rw [entryKeys_cons, ← ih, ← (Parameter.declare_eq_ok_iff.mp h).1]
    rfl

/-- Parameters of different names are refused for what they declare alone. -/
theorem exists_buildParameters_iff {ds : Dict Declaration} :
    (∃ ps, buildParameters ds = .ok ps) ↔
      ∀ e ∈ ds.entries, ∃ p, Parameter.declare e.1 e.2 = .ok p := by
  rw [← exists_mapM_iff]
  constructor
  · rintro ⟨ps, h⟩
    obtain ⟨qs, hqs, -⟩ := bind_eq_ok.mp h
    exact ⟨qs, hqs⟩
  · rintro ⟨qs, hqs⟩
    have hn : parameterNames qs = ds.keys := names_of_declared (mapM_eq_ok_iff.mp hqs)
    have hd : (parameterNames ((∅ : Parameters).items ++ qs)).Nodup := hn ▸ ds.distinct
    have hps : Parameters.ofList qs = .ok ⟨_, hd⟩ := Parameters.foldlM_add qs ∅ hd
    exact ⟨_, by rw [buildParameters, hqs, ok_bind, hps]⟩

theorem exists_complete_iff {b : Job} :
    (∃ j, d.complete b = .ok j) ↔
      ∀ ds ∈ d.parameters, ∀ e ∈ ds.entries, ∃ p, Parameter.declare e.1 e.2 = .ok p := by
  unfold complete
  cases d.parameters with
  | none => simp
  | some ds =>
    simp only [Option.mem_some, forall_eq', ← exists_buildParameters_iff]
    cases buildParameters ds <;> simp

theorem build_eq_ok_iff : d.build path executor = .ok j ↔
    ∃ steps b, d.steps.mapM Step.ofValue = .ok steps ∧
      Job.withProperties d.name executor steps d.properties = .ok b ∧ d.complete b = .ok j := by
  unfold build complete
  cases d.parameters with
  | none =>
    simp only [bind_eq_ok, buildSteps_eq_ok_iff, mapError_eq_ok, pure_eq_ok_iff, Except.ok.injEq,
      exists_and_left]
  | some ds =>
    simp only [bind_eq_ok, buildSteps_eq_ok_iff, mapError_eq_ok, pure_eq_ok_iff, exists_and_left]

/-- After the calls for its steps, variables and settings, a new job is the one that has them from
the start. -/
theorem foldlM_calls {b : Job} (h : Job.new d.name executor = .ok b) (steps : List Step) :
    ∃ b', (d.calls steps).foldlM AnyJob.apply (.plain b) = .ok (.plain b') ∧
      Job.withProperties d.name executor steps d.properties = .ok b' := by
  obtain ⟨hn, he, hs, hp⟩ := Job.withProperties_eq_ok_iff.mp h
  have hj := AnyJob.job_after (j := .plain b) hs hp (d.calls steps)
  have hi := (AnyJob.plain b).items_after (d.calls steps)
  have hq := AnyJob.eq_plain (Option.map_eq_none_iff.mp hi)
  refine ⟨((AnyJob.plain b).after (d.calls steps)).job, ?_, Job.withProperties_eq_ok_iff.mpr ?_⟩
  · rw [AnyJob.foldlM_apply_eq_ok fun c hc => ne_addParameter_of_mem_calls hc]
    exact congrArg Except.ok hq
  · rw [hj, step?_calls, properties_calls]
    exact ⟨hn, he, rfl, rfl⟩

theorem declareParameters_eq_ok_iff {b : Job} :
    d.declareParameters (.plain b) = .ok j ↔ d.complete b = .ok j := by
  unfold declareParameters complete
  cases d.parameters with
  | none => simp only [Except.ok.injEq]
  | some ds =>
    simp only [AnyJob.foldlM_declared_eq_ok_iff, buildParameters, Parameters.ofList, bind_eq_ok,
      pure_eq_ok_iff]
    constructor
    · rintro ⟨qs, ps, hqs, hps, rfl⟩
      exact ⟨ps, ⟨qs, hqs, hps⟩, rfl⟩
    · rintro ⟨ps, ⟨qs, hqs, hps⟩, rfl⟩
      exact ⟨qs, ps, hqs, hps, rfl⟩

theorem assemble_eq_ok_iff : d.assemble executor steps = .ok j ↔
    ∃ b, Job.withProperties d.name executor steps d.properties = .ok b ∧
      d.complete b = .ok j := by
  simp only [assemble, bind_eq_ok, mapError_eq_ok]
  constructor
  · rintro ⟨b, hb, j', hj', h⟩
    obtain ⟨b', hf, hw⟩ := foldlM_calls hb steps
    cases hf.symm.trans hj'
    exact ⟨b', hw, declareParameters_eq_ok_iff.mp h⟩
  · rintro ⟨b', hw, h⟩
    obtain ⟨b, hb⟩ := Job.exists_new_iff.mpr (Job.exists_withProperties_iff.mp ⟨b', hw⟩)
    obtain ⟨b₁, hf, hw₁⟩ := foldlM_calls hb steps
    cases hw.symm.trans hw₁
    exact ⟨b, hb, _, hf, declareParameters_eq_ok_iff.mpr h⟩

/-- Building the job of a definition at once is the same as building it by calls. It succeeds
exactly if each step can be read, the name can be one, and each parameter of the section, if there
is one, can be declared. Then the calls succeed as well, and both give the same job, which is
generated alike in any context. -/
theorem build_iff_assemble (path : String) (d : JobDefinition) (executor : Handle) :
    ((∃ j, d.build path executor = .ok j) ↔
      (∀ v ∈ d.steps, ∃ s, Step.ofValue v = .ok s) ∧ (∃ b, Job.new d.name executor = .ok b) ∧
        ∀ ds ∈ d.parameters, ∀ e ∈ ds.entries, ∃ p, Parameter.declare e.1 e.2 = .ok p) ∧
    (∀ j, d.build path executor = .ok j ↔
      ∃ steps, d.steps.mapM Step.ofValue = .ok steps ∧ d.assemble executor steps = .ok j) ∧
    ∀ steps j j', d.steps.mapM Step.ofValue = .ok steps → d.build path executor = .ok j →
      d.assemble executor steps = .ok j' → ∀ held ctx,
        j.contents held ctx = j'.contents held ctx ∧
        j.generate held ctx = j'.generate held ctx := by
  have hb (j : AnyJob) : d.build path executor = .ok j ↔
      ∃ steps, d.steps.mapM Step.ofValue = .ok steps ∧ d.assemble executor steps = .ok j := by
    simp only [build_eq_ok_iff, assemble_eq_ok_iff, exists_and_left]
  refine ⟨?_, hb, ?_⟩
  · rw [← exists_mapM_iff, Job.exists_new_iff]
    simp only [build_eq_ok_iff]
    constructor
    · rintro ⟨j, steps, b, hs, hw, hc⟩
      exact ⟨⟨steps, hs⟩, Job.exists_withProperties_iff.mp ⟨b, hw⟩, exists_complete_iff.mp ⟨j, hc⟩⟩
    · rintro ⟨⟨steps, hs⟩, hn, hd⟩
      obtain ⟨b, hw⟩ := Job.exists_withProperties_iff.mpr hn
      obtain ⟨j, hc⟩ := exists_complete_iff.mpr hd
      exact ⟨j, steps, b, hs, hw, hc⟩
  · intro steps j j' hs hj hj' held ctx
    obtain ⟨steps', hs', ha⟩ := (hb j).mp hj
    cases hs.symm.trans hs'
    cases ha.symm.trans hj'
    exact ⟨rfl, rfl⟩

/-- A definition with two steps, a variable, a shell and a parameter. -/
theorem build_iff_assemble_deploy :
    let d : JobDefinition := {
      name := "deploy"
      executor := .name "node"
      steps := [.str "checkout", .keyed "run" (.keyed "command" (.str "make"))]
      parameters := some (.ofList [("target", ⟨.string, some (.str "all"), none, none⟩)])
      parallelism := none
      environment := .ofList [("CC", "gcc")]
      shell := some "bash"
      workingDirectory := none }
    ∃ j, d.build "deploy.yml" ⟨0⟩ = .ok j ∧
      (∃ steps, d.steps.mapM Step.ofValue = .ok steps ∧ d.assemble ⟨0⟩ steps = .ok j) ∧
      ∀ v ∈ d.steps, ∃ s, Step.ofValue v = .ok s := by
  intro d
  obtain ⟨hs, hb, -⟩ := build_iff_assemble "deploy.yml" d ⟨0⟩
  obtain ⟨j, hj⟩ : ∃ j, d.build "deploy.yml" ⟨0⟩ = .ok j :=
    failure?_eq_none_iff.mp (by decide +kernel)
  exact ⟨j, hj, (hb j).mp hj, (hs.mp ⟨j, hj⟩).1⟩

end JobDefinition

end JobConfig

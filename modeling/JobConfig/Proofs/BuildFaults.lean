import JobConfig.Proofs.Building
import JobConfig.Proofs.Declaring

/-!
# What is wrong first with a job

A definition of a job can be wrong in several places: steps that cannot be read, a name that cannot
be one, parameters that cannot be declared. `JobDefinition.FirstFault` says which of them counts:
the first step that cannot be read, whatever else there is; without one, the name; without that, the
first parameter of the section that cannot be declared. Building the job fails with this error and
with no other (`JobDefinition.build_eq_error_iff_firstFault`).
-/

namespace JobConfig

namespace JobDefinition

/-- What is wrong first with the job of a definition in the file at `path`, as an error. -/
inductive FirstFault (path : String) (d : JobDefinition) : LoadError → Prop where
  /-- A step that cannot be read, while all in front of it can. -/
  | step {i : Nat} {cause : StepError} (h : FirstFails Step.ofValue d.steps i cause) :
    FirstFault path d (.step path i cause)
  /-- The name of a job whose steps can all be read. -/
  | name (hs : ∀ v ∈ d.steps, ∃ s, Step.ofValue v = .ok s)
      (hn : d.name = "" ∨ ∃ c ∈ d.name.toList, isBlank c = true) :
    FirstFault path d (.component path (.invalidName .job d.name))
  /-- A parameter that cannot be declared, while all in front of it can, of a job with steps that
  can be read and a good name. -/
  | parameter {declarations : Dict Declaration} {i : Nat} {cause : BuildError}
      (hs : ∀ v ∈ d.steps, ∃ s, Step.ofValue v = .ok s)
      (hn : d.name ≠ "" ∧ ∀ c ∈ d.name.toList, isBlank c = false)
      (hp : d.parameters = some declarations)
      (h : FirstFails (fun e => Parameter.declare e.1 e.2) declarations.entries i cause) :
    FirstFault path d (.component path cause)

variable {path : String} {d : JobDefinition} {executor : Handle} {e : LoadError}

/-! ## Steps -/

/-- Steps are read up to the first one that cannot be, which is told by its index. -/
theorem buildSteps_eq_error_iff {i : Nat} {vs : List Value} :
    buildSteps path i vs = .error e ↔
      ∃ k c, FirstFails Step.ofValue vs k c ∧ .step path (i + k) c = e := by
  induction vs generalizing i with
  | nil => simp [buildSteps, not_firstFails_nil]
  | cons v vs ih =>
    rw [buildSteps, bind_eq_error, mapError_eq_error, ← Nat.or_exists_add_one]
    simp only [firstFails_cons_zero, firstFails_cons_succ, Nat.add_zero, mapError_eq_ok]
    refine or_congr_right ?_
    constructor
    · rintro ⟨s, hs, h⟩
      rcases bind_eq_error.mp h with h | ⟨ss, -, h⟩
      · obtain ⟨k, c, hk, rfl⟩ := ih.mp h
        refine ⟨k, c, ⟨⟨s, hs⟩, hk⟩, ?_⟩
        rw [Nat.add_right_comm, Nat.add_assoc]
      · cases h
    · rintro ⟨k, c, ⟨⟨s, hs⟩, hk⟩, he⟩
      have h : buildSteps path (i + 1) vs = .error e := by
        refine ih.mpr ⟨k, c, hk, ?_⟩
        rw [← he, Nat.add_right_comm, Nat.add_assoc]
      exact ⟨s, hs, by rw [h, error_bind]⟩

/-- All steps are read exactly if each of them can be. -/
theorem exists_buildSteps_iff {i : Nat} {vs : List Value} :
    (∃ steps, buildSteps path i vs = .ok steps) ↔ ∀ v ∈ vs, ∃ s, Step.ofValue v = .ok s := by
  simp only [buildSteps_eq_ok_iff, exists_mapM_iff]

/-! ## The name -/

theorem withProperties_eq_error_iff {name : String} {steps : List Step}
    {properties : JobProperties} {c : BuildError} :
    Job.withProperties name executor steps properties = .error c ↔
      (name = "" ∨ ∃ c ∈ name.toList, isBlank c = true) ∧ .invalidName .job name = c := by
  have hn : isName name.toList = false ↔ name = "" ∨ ∃ c ∈ name.toList, isBlank c = true := by
    rw [← Bool.not_eq_true, Declaration.isName_toList_iff]
    simp [imp_iff_not_or]
  unfold Job.withProperties
  split
  · rename_i h
    simp [← hn, h]
  · rename_i h
    simp [← hn, h]

/-! ## Parameters -/

/-- Of the parameters of a section only a declaration can be at fault: their names are different. -/
theorem buildParameters_eq_error_iff {ds : Dict Declaration} {c : BuildError} :
    buildParameters ds = .error c ↔
      ∃ i, FirstFails (fun e => Parameter.declare e.1 e.2) ds.entries i c := by
  rw [← mapM_eq_error_iff]
  constructor
  · intro h
    rcases bind_eq_error.mp h with hd | ⟨qs, hqs, -⟩
    · exact hd
    · obtain ⟨ps, hps⟩ := exists_buildParameters_iff.mpr (exists_mapM_iff.mp ⟨qs, hqs⟩)
      rw [hps] at h
      cases h
  · intro h
    rw [buildParameters, h, error_bind]

theorem complete_eq_error_iff {b : Job} {c : BuildError} :
    d.complete b = .error c ↔ ∃ ds i, d.parameters = some ds ∧
      FirstFails (fun e => Parameter.declare e.1 e.2) ds.entries i c := by
  unfold complete
  cases d.parameters with
  | none => simp
  | some ds =>
    simp only [bind_eq_error, buildParameters_eq_error_iff, Option.some.injEq]
    simp [pure, Except.pure]

/-- A parameter that is declared is never refused for a name that is there before. -/
theorem declare_ne_duplicateName {name other : String} {declared : Declaration} :
    Parameter.declare name declared ≠ .error (.duplicateName other) := by
  intro h
  obtain ⟨i, hb, -⟩ := Declaration.firstBroken_of_violation? (Parameter.declare_eq_error_iff.mp h)
  cases hb

/-! ## Building -/

/-- Building runs through the steps, the name and the parameters. -/
theorem build_eq_bind (path : String) (d : JobDefinition) (executor : Handle) :
    d.build path executor = (do
      let steps ← buildSteps path 0 d.steps
      let b ← (Job.withProperties d.name executor steps d.properties).mapError (.component path)
      (d.complete b).mapError (.component path)) := by
  unfold build complete
  cases d.parameters with
  | none => rfl
  | some ds =>
    refine congrArg _ (funext fun steps => congrArg _ (funext fun b => ?_))
    dsimp only
    cases buildParameters ds <;> rfl

theorem firstFault_of_build (h : d.build path executor = .error e) : d.FirstFault path e := by
  rw [build_eq_bind, bind_eq_error] at h
  rcases h with h | ⟨steps, hs, h⟩
  · obtain ⟨i, c, hc, rfl⟩ := buildSteps_eq_error_iff.mp h
    rw [Nat.zero_add]
    exact .step hc
  have hs := exists_buildSteps_iff.mp ⟨steps, hs⟩
  rcases bind_eq_error.mp h with h | ⟨b, hb, h⟩
  · obtain ⟨c, hc, rfl⟩ := mapError_eq_error.mp h
    obtain ⟨hn, rfl⟩ := withProperties_eq_error_iff.mp hc
    exact .name hs hn
  have hn := Job.exists_withProperties_iff.mp ⟨b, mapError_eq_ok.mp hb⟩
  obtain ⟨c, hc, rfl⟩ := mapError_eq_error.mp h
  obtain ⟨ds, i, hp, hi⟩ := complete_eq_error_iff.mp hc
  exact .parameter hs (Declaration.isName_toList_iff.mp hn) hp hi

theorem build_of_firstFault (h : d.FirstFault path e) : d.build path executor = .error e := by
  rw [build_eq_bind, bind_eq_error]
  cases h with
  | @step i c h => exact .inl (buildSteps_eq_error_iff.mpr ⟨i, c, h, by rw [Nat.zero_add]⟩)
  | name hs hn =>
    obtain ⟨steps, hs⟩ := exists_buildSteps_iff.mpr hs
    refine .inr ⟨steps, hs, bind_eq_error.mpr (.inl ?_)⟩
    exact mapError_eq_error.mpr ⟨_, withProperties_eq_error_iff.mpr ⟨hn, rfl⟩, rfl⟩
  | @parameter ds i c hs hn hp h =>
    obtain ⟨steps, hs⟩ := exists_buildSteps_iff.mpr hs
    obtain ⟨b, hb⟩ := Job.exists_withProperties_iff.mpr (Declaration.isName_toList_iff.mpr hn)
    refine .inr ⟨steps, hs, bind_eq_error.mpr (.inr ⟨b, mapError_eq_ok.mpr hb, ?_⟩)⟩
    exact mapError_eq_error.mpr ⟨c, complete_eq_error_iff.mpr ⟨ds, i, hp, h⟩, rfl⟩

/-- Building the job of a definition fails exactly if something is wrong with it, and then with the
error of what is wrong first: the step of the least index that cannot be read, with the reason; the
name of the job, if all steps can be read; the first parameter of the section that cannot be
declared, with the rule that it breaks, if the name is one. No error tells of a parameter that is
declared twice, and each names the file. -/
theorem build_eq_error_iff_firstFault (path : String) (d : JobDefinition) (executor : Handle) :
    (∀ e, d.build path executor = .error e ↔ d.FirstFault path e) ∧
    ∀ e, d.build path executor = .error e → e.path = path ∧
      ∀ file name, e ≠ .component file (.duplicateName name) := by
  refine ⟨fun e => ⟨firstFault_of_build, build_of_firstFault⟩, fun e h => ?_⟩
  have hf := firstFault_of_build h
  clear h
  cases hf with
  | step h => exact ⟨rfl, nofun⟩
  | name hs hn => exact ⟨rfl, nofun⟩
  | parameter hs hn hp h =>
    refine ⟨rfl, fun file name he => ?_⟩
    obtain ⟨⟨p, -, hc⟩, -⟩ := h
    cases he
    exact declare_ne_duplicateName hc

/-- The second step, the name and the second parameter are all at fault, and the step counts; when
it can be read the name does, and when that is one the parameter. -/
theorem build_eq_error_iff_firstFault_deploy :
    let d (name : String) (steps : List Value) : JobDefinition := {
      name
      executor := .name "node"
      steps
      parameters := some (.ofList [
        ("target", ⟨.string, some (.str "all"), none, none⟩),
        ("stage", ⟨.enum, none, none, some []⟩),
        ("retries", ⟨.integer, some (.str "3"), none, none⟩)])
      parallelism := none
      environment := ∅
      shell := none
      workingDirectory := none }
    let checkout : Value := .str "checkout"
    let path := "jobs/deploy.yml"
    (d "de ploy" [checkout, .str "teleport", .null]).build path ⟨0⟩ =
        .error (.step path 1 (.unknownKind "teleport")) ∧
      (d "de ploy" [checkout]).build path ⟨0⟩ =
        .error (.component path (.invalidName .job "de ploy")) ∧
      (d "deploy" [checkout]).build path ⟨0⟩ =
        .error (.component path (.missingEnumValues "stage")) ∧
      (LoadError.component path (.missingEnumValues "stage")).path = path := by
  intro d checkout path
  obtain ⟨hiff, hpath⟩ := build_eq_error_iff_firstFault path (d "deploy" [checkout]) ⟨0⟩
  have hc : ∃ s, Step.ofValue checkout = .ok s := failure?_eq_none_iff.mp (by decide +kernel)
  have hs : ∀ v ∈ [checkout], ∃ s, Step.ofValue v = .ok s := List.forall_mem_singleton.mpr hc
  have hparameter : (d "deploy" [checkout]).build path ⟨0⟩ =
      .error (.component path (.missingEnumValues "stage")) := by
    have hn := Declaration.isName_toList_iff.mp (by decide : isName "deploy".toList = true)
    refine (hiff _).mpr (.parameter (i := 1) hs hn rfl ⟨⟨_, rfl, ?_⟩, ?_⟩)
    · decide +kernel
    · intro j hj e he
      obtain rfl : j = 0 := by omega
      cases he
      exact failure?_eq_none_iff.mp (by decide +kernel)
  refine ⟨?_, ?_, hparameter, (hpath _ hparameter).1⟩
  · obtain ⟨hiff, -⟩ := build_eq_error_iff_firstFault path
      (d "de ploy" [checkout, .str "teleport", .null]) ⟨0⟩
    refine (hiff _).mpr (.step ⟨⟨_, rfl, by decide +kernel⟩, ?_⟩)
    intro j hj v hv
    obtain rfl : j = 0 := by omega
    cases hv
    exact hc
  · obtain ⟨hiff, -⟩ := build_eq_error_iff_firstFault path (d "de ploy" [checkout]) ⟨0⟩
    exact (hiff _).mpr (.name hs (.inr ⟨' ', by decide, by decide⟩))

end JobDefinition

end JobConfig

import JobConfig.CommandLine.Run
import JobConfig.Proofs.Loading

/-!
# What a check says

The check renders the document of a project templated and then as the settings of the project say.
The first asks for different names, the second, where the settings flatten, also for a default for
every parameter that a job refers to (`Project.HasDefaults`): a loaded project fails for nothing
else (`Project.exists_render_iff_of_loadProject`).

So a check that passes says that the document can be generated as the settings say, and of
flattening by a switch it says no more than the settings do (`CommandLine.checked_iff`). Where
they do not flatten, the document that the switch asks for has not been tried
(`CommandLine.not_rendered_release`).
-/

namespace JobConfig

/-! ## Flattened jobs -/

/-- Flattened, a job needs its executor and a value for each of its references. Plain jobs keep what
looks like a reference. -/
theorem AnyJob.exists_contents_flattened_iff {j : AnyJob} {held : Held} {ctx : Context}
    (h : ctx.flatten = true) (hs : ctx.scope = none) :
    (∃ v, j.contents held ctx = .ok v) ↔
      held j.job.executor ≠ none ∧ ∀ ps, j.parameters? = some ps →
        ∀ name ∈ j.job.references held, ∃ value, ctx.lookup ps name = .ok value := by
  rw [contents_eq_inner j held h]
  cases he : held j.job.executor with
  | none => simp [Job.contents_of_dropped he]
  | some e =>
    unfold inner
    cases hp : j.parameters? with
    | none =>
      have hi : ctx.activeScope = none := by simp [Context.activeScope, hs]
      simp [Job.contents_of_inactive he hi]
    | some ps =>
      have hl : (ctx.withScope ps).lookup ps = ctx.lookup ps := rfl
      rw [← failure?_eq_none_iff, Job.failure?_contents he (Context.activeScope_withScope h ps),
        List.findSome?_eq_none_iff, hl]
      simp [failure?_eq_none_iff]

/-- Where no values are supplied, a reference has the default of its parameter. -/
theorem Context.exists_lookup_new_iff {flatten : Bool} {ps : Parameters} {name : String} :
    (∃ value, (Context.new flatten).lookup ps name = .ok value) ↔
      ∃ q, ps.get? name = some q ∧ q.declaration.default ≠ none := by
  have ho : (Context.new flatten).overrides.get? name = none := Dict.get?_empty name
  constructor
  · rintro ⟨value, hv⟩
    obtain ⟨q, hq, -, hs | ⟨-, hd⟩⟩ := lookup_eq_ok_iff.mp hv
    · rw [ho] at hs
      cases hs
    · exact ⟨q, hq, by simp [hd]⟩
  · rintro ⟨q, hq, hd⟩
    obtain ⟨value, hd⟩ := Option.ne_none_iff_exists'.mp hd
    exact ⟨value, lookup_of_default hq ho hd⟩

namespace Project

/-- Each name that a job with parameters refers to is that of a parameter with a default. -/
def HasDefaults (p : Project) : Prop :=
  ∀ j ∈ p.jobs, ∀ ps, j.parameters? = some ps → ∀ name ∈ j.job.references p.held,
    ∃ q, ps.get? name = some q ∧ q.declaration.default ≠ none

/-- Without supplied values a loaded project has a document exactly if the names of its jobs are all
different and, to flatten, the parameters that are referred to have defaults. -/
theorem exists_render_iff_of_loadProject {base : String} {directory : Option FileTree}
    {p : Project} (h : (loadProject base directory).outcome = .ok p) (flatten : Bool) :
    (∃ v, p.render (.new flatten) = .ok v) ↔
      (p.jobs.map AnyJob.name).Nodup ∧ (flatten = true → p.HasDefaults) := by
  have hheld := held_ne_none_of_loadProject h
  rw [render, Document.exists_render_iff]
  refine and_congr_right fun _ => ?_
  cases flatten with
  | false =>
    have hv : ∀ j ∈ p.jobs, ∃ v, j.contents p.held (.new false) = .ok v :=
      fun j hj => (AnyJob.exists_contents_templated_iff rfl).mpr (hheld j hj)
    simpa using hv
  | true =>
    have hv : ∀ j ∈ p.jobs, (∃ v, j.contents p.held (.new true) = .ok v) ↔
        ∀ ps, j.parameters? = some ps → ∀ name ∈ j.job.references p.held,
          ∃ q, ps.get? name = some q ∧ q.declaration.default ≠ none := by
      intro j hj
      rw [AnyJob.exists_contents_flattened_iff rfl rfl]
      simp only [Context.exists_lookup_new_iff, hheld j hj, ne_eq, not_false_eq_true, true_and]
    rw [forall₂_congr hv]
    simp [HasDefaults]

end Project

/-! ## Commands -/

namespace CommandLine

variable {env : Surroundings} {root : String} {p : Project} {warnings : List String}
  {flatten : Bool} {overrides : List (String × Literal)} {output : Option String}

/-- The command has not failed at generating. -/
def Report.Rendered (r : Report) : Prop :=
  ∀ cause, r.status ≠ .error (.generate cause)

theorem documentText_eq_generate_iff {ctx : Context} {cause : GenerateError} :
    documentText p ctx = .error (.generate cause) ↔ p.render ctx = .error cause := by
  unfold documentText
  cases p.render ctx with
  | error e => simp
  | ok v =>
    rw [mapError_ok, ok_bind]
    cases Yaml.write v <;> simp

/-- The command fails at generating as the document does; what comes after that fails otherwise. -/
theorem generate_eq_generate_iff {cause : GenerateError} :
    (generate env p warnings flatten overrides output).status = .error (.generate cause) ↔
      p.render (generateContext p flatten overrides) = .error cause := by
  rw [← documentText_eq_generate_iff]
  unfold generate
  dsimp only
  cases documentText p (generateContext p flatten overrides) with
  | error f => simp [Report.failed]
  | ok text =>
    cases output with
    | none => simp [Report.silent]
    | some path =>
      dsimp only
      split <;> simp [Report.silent, Report.failed]

theorem rendered_generate_iff :
    (generate env p warnings flatten overrides output).Rendered ↔
      ∃ v, p.render (generateContext p flatten overrides) = .ok v := by
  unfold Report.Rendered
  rw [← failure?_eq_none_iff, Option.eq_none_iff_forall_ne_some]
  simp only [ne_eq, generate_eq_generate_iff, failure?_eq_some_iff]

theorem check_eq_ok_iff :
    (check p warnings).status = .ok () ↔
      (∃ v, p.render .templated = .ok v) ∧ ∃ v, p.render (p.context none) = .ok v := by
  unfold check
  cases p.render .templated with
  | error e => simp [Report.failed]
  | ok v =>
    cases p.render (p.context none) <;> simp [Report.failed, Report.silent]

theorem withProject_of_loadProject {run : Project → List String → Report}
    (h : (loadProject (env.base root) (env.directory root)).outcome = .ok p) :
    withProject env root run =
      run p (loadProject (env.base root) (env.directory root)).warnings := by
  simp only [withProject, h]

/-- Without supplied values the switch makes for flattening as the settings do. -/
theorem generateContext_nil (p : Project) (flatten : Bool) :
    generateContext p flatten [] = .new (flatten || p.settings.flatten) := by
  cases flatten <;> rfl

/-- A check of a loaded project passes exactly if the names of its jobs are all different and, where
the settings flatten, the parameters that are referred to have defaults. Then the document can be
generated as the settings say; flattened by the switch it can be exactly if those parameters have
defaults, whether the check has asked for them or not. -/
theorem checked_iff (h : (loadProject (env.base root) (env.directory root)).outcome = .ok p) :
    (((Command.check root).run env).status = .ok () ↔
      (p.jobs.map AnyJob.name).Nodup ∧ (p.settings.flatten = true → p.HasDefaults)) ∧
    ∀ output,
      (((Command.generate root false [] output).run env).Rendered ↔
        ((Command.check root).run env).status = .ok ()) ∧
      (((Command.generate root true [] output).run env).Rendered ↔
        ((Command.check root).run env).status = .ok () ∧ p.HasDefaults) := by
  have hr := Project.exists_render_iff_of_loadProject h
  have hc : ((Command.check root).run env).status = .ok () ↔
      (p.jobs.map AnyJob.name).Nodup ∧ (p.settings.flatten = true → p.HasDefaults) := by
    rw [Command.run, withProject_of_loadProject h, check_eq_ok_iff]
    have ht : (∃ v, p.render .templated = .ok v) ↔ (p.jobs.map AnyJob.name).Nodup := by
      rw [Context.templated, hr]
      simp
    have hs : (∃ v, p.render (p.context none) = .ok v) ↔ _ := hr p.settings.flatten
    rw [ht, hs]
    tauto
  have hg (flatten : Bool) (output : Option String) :
      ((Command.generate root flatten [] output).run env).Rendered ↔
        (p.jobs.map AnyJob.name).Nodup ∧
          ((flatten || p.settings.flatten) = true → p.HasDefaults) := by
    rw [Command.run, withProject_of_loadProject h, rendered_generate_iff, generateContext_nil, hr]
  refine ⟨hc, fun output => ⟨?_, ?_⟩⟩
  · rw [hg, hc, Bool.false_or]
  · rw [hg, hc, Bool.true_or]
    tauto

/-- The parameter `tag` has no default. The check passes, as the settings do not flatten, and the
switch asks for a document that cannot be generated. -/
theorem not_rendered_release :
    let release := "name: release\nexecutor: node\nparameters:\n  tag:\n    type: string\n" ++
      "steps:\n- run:\n    command: git tag << parameters.tag >>\n"
    let dir : FileTree := .folder [("jobs", .folder [("release.yaml", .file (some release))])]
    let env : Surroundings := ⟨fun _ => some dir, fun _ => "", fun _ => true⟩
    ((Command.check ".").run env).status = .ok () ∧
      ((Command.generate "." true [] none).run env).status =
        .error (.generate (.unresolved "tag" .noValue)) := by
  decide +kernel

/-- The settings flatten, and what the job refers to has a default, so that the check passes and the
document can be generated either way, wherever it is written. -/
theorem checked_iff_docs :
    let docs := "name: docs\nexecutor: node\nparameters:\n  target:\n    type: string\n" ++
      "    default: all\nsteps:\n- run:\n    command: make << parameters.target >>\n"
    let dir : FileTree := .folder [
      ("config.toml", .file (some "flatten = true\n")),
      ("jobs", .folder [("docs.yaml", .file (some docs))])]
    let env : Surroundings := ⟨fun _ => some dir, fun _ => "", fun _ => true⟩
    ∃ p, (loadProject "" (some dir)).outcome = .ok p ∧ p.settings.flatten = true ∧ p.HasDefaults ∧
      ((Command.check ".").run env).status = .ok () ∧
      ∀ flatten output, ((Command.generate "." flatten [] output).run env).Rendered := by
  intro docs dir env
  obtain ⟨hl, hc⟩ : (fun p => p.settings.flatten) <$>
      (loadProject (env.base ".") (env.directory ".")).outcome = .ok true ∧
      ((Command.check ".").run env).status = .ok () := by
    decide +kernel
  obtain ⟨p, hp, hs⟩ := map_eq_ok.mp hl
  obtain ⟨hi, hg⟩ := checked_iff hp
  have hd : p.HasDefaults := (hi.mp hc).2 hs
  refine ⟨p, hp, hs, hd, hc, fun flatten output => ?_⟩
  cases flatten with
  | false => exact (hg output).1.mpr hc
  | true => exact (hg output).2.mpr ⟨hc, hd⟩

end CommandLine

end JobConfig

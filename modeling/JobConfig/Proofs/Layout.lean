import JobConfig.Proofs.Calls

/-!
# The layout of a generated job

However a job came to have its steps, settings and parameters, it is generated with the same keys in
the same order: its executor's, then `steps`, then those of the settings that were made, and at the
end `parameters` if it takes them and is not flattened (`AnyJob.contents_after`). The steps are
those that were added, in the order of the calls; the variables stand where they were set first and
have the values that they were set to last.
-/

namespace JobConfig

/-! ## Keys -/

/-- A key that is there on a condition. -/
def keyIf (present : Bool) (key : String) : List String :=
  if present then [key] else []

/-- The keys that a job takes over from its executor: one that says what the executor is, and one
for its resource class if it has one. -/
def Executor.keys : Executor → List String
  | docker _ c => "docker" :: keyIf c.isSome "resource_class"
  | machine _ c => "machine" :: keyIf c.isSome "resource_class"
  | macos _ c => "macos" :: keyIf c.isSome "resource_class"
  | reusable .. => ["executor"]

theorem Executor.entryKeys_written (e : Executor) : entryKeys e.written = e.keys := by
  cases e with
  | docker _ c => cases c <;> rfl
  | machine _ c => cases c <;> rfl
  | macos _ c => cases c <;> rfl
  | reusable _ _ => rfl

theorem isSome_environmentValue_ofList (es : List (String × String)) :
    (environmentValue (.ofList es)).isSome = es.getLast?.isSome := by
  rw [Value.isSome_environmentValue, Dict.isEmpty_ofList]
  cases es <;> simp

theorem Value.entryKeys_setFields_cons (name : String) (v : Option Value)
    (fs : List (String × Option Value)) :
    entryKeys (setFields ((name, v) :: fs)) = keyIf v.isSome name ++ entryKeys (setFields fs) := by
  cases v <;> rfl

namespace JobCall

/-- The keys of the settings that calls make, in the order in which they are written. -/
def settingKeys (calls : List JobCall) : List String :=
  keyIf (calls.any fun c => c.parallelism?.isSome) "parallelism" ++
  keyIf (calls.any fun c => c.assignment?.isSome) "environment" ++
  keyIf (calls.any fun c => c.shell?.isSome) "shell" ++
  keyIf (calls.any fun c => c.workingDirectory?.isSome) "working_directory"

theorem isSome_getLast?_filterMap {α : Type} (f : JobCall → Option α) (calls : List JobCall) :
    (calls.filterMap f).getLast?.isSome = calls.any fun c => (f c).isSome := by
  induction calls with
  | nil => rfl
  | cons c calls ih =>
    cases h : f c with
    | none => rw [List.filterMap_cons_none h, ih, List.any_cons, h, Option.isSome_none, Bool.false_or]
    | some a => simp [h]

/-- The settings that calls leave a job with are written under these keys. -/
theorem entryKeys_properties (calls : List JobCall) :
    entryKeys (properties calls).written = settingKeys calls := by
  have hn : entryKeys (Value.setFields []) = [] := rfl
  simp only [JobProperties.written, Value.entryKeys_setFields_cons, hn, Option.isSome_map,
    properties, isSome_environmentValue_ofList, isSome_getLast?_filterMap, settingKeys,
    List.append_assoc, List.append_nil]

end JobCall

/-! ## The entries of a job -/

namespace Job

variable {j : Job} {ctx : Context} {x : Executor} {fs : List (String × Value)}

/-- Each step is generated on its own, in its place. -/
theorem steps_of_resolved (h : ctx.resolveEntries (j.written x) = .ok fs) :
    ∃ items, valueAt? "steps" fs = some (.seq items) ∧
      List.Forall₂ (fun s item => s.contents ctx = .ok item) j.steps items := by
  have hw : valueAt? "steps" (j.written x) = some (.seq (j.steps.map Step.written)) :=
    j.valueAt?_written x (by decide)
  have hr := Context.valueAt?_of_resolved h "steps"
  rw [hw] at hr
  cases hs : valueAt? "steps" fs with
  | none => rw [hs] at hr; cases hr
  | some v =>
    rw [hs, Option.rel_some_some, resolveValue_steps, map_eq_ok] at hr
    obtain ⟨items, hi, rfl⟩ := hr
    rw [stepContents_eq_mapM, mapM_eq_ok_iff] at hi
    exact ⟨items, rfl, hi⟩

/-- Each variable is resolved on its own, in its place. -/
theorem variables_of_resolved (h : ctx.resolveEntries (j.written x) = .ok fs) {w : Value}
    (hw : valueAt? "environment" fs = some w) :
    ∃ vars, w = .ofEntries vars ∧ entryKeys vars = j.properties.environment.keys ∧
      ∀ name u, valueAt? name vars = some u → ∃ text,
        j.properties.environment.get? name = some text ∧ ctx.resolveValue (.str text) = .ok u := by
  have he : valueAt? "environment" (j.written x) = environmentValue j.properties.environment :=
    j.valueAt?_written x (by decide)
  have hr := Context.valueAt?_of_resolved h "environment"
  rw [hw, he] at hr
  unfold environmentValue at hr
  split at hr
  · cases hr
  · rw [Option.rel_some_some, Context.resolveValue_ofEntries, map_eq_ok] at hr
    obtain ⟨vars, hv, rfl⟩ := hr
    refine ⟨vars, rfl, ?_, fun name u hu => ?_⟩
    · rw [Context.entryKeys_of_resolved hv, Dict.map, Dict.keys, entryKeys_map]
    · have hr := Context.valueAt?_of_resolved hv name
      rw [hu, Dict.map, valueAt?_map] at hr
      cases hg : j.properties.environment.get? name with
      | none => rw [← Dict.get?, hg] at hr; cases hr
      | some text =>
        rw [← Dict.get?, hg, Option.map_some, Option.rel_some_some] at hr
        exact ⟨text, rfl, hr⟩

end Job

namespace AnyJob

variable {j : AnyJob} {held : Held} {ctx : Context} {v : Value}

/-- The section of the parameters lists those that were declared with success. -/
theorem declared_after {takesParameters : Bool} {name : String} {executor : Handle}
    (h : new takesParameters name executor = .ok j) (calls : List JobCall) :
    (j.after calls).declared =
      if takesParameters then
        [("parameters", .ofEntries ((j.accepted calls).map fun p => (p.name, p.contents)))]
      else [] := by
  obtain ⟨-, -, -, -, hp⟩ := of_new h
  have hi := j.items_after calls
  rw [hp] at hi
  unfold declared
  cases takesParameters with
  | false =>
    rw [Option.map_eq_none_iff.mp hi]
    rfl
  | true =>
    obtain ⟨ps, hps, hi⟩ := Option.map_eq_some_iff.mp hi
    rw [hps, if_pos rfl, Option.map_some, Parameters.contents, hi]
    rfl

theorem parameterNames_accepted {name : String} {executor : Handle}
    (h : new true name executor = .ok j) (calls : List JobCall) :
    parameterNames (j.accepted calls) = JobCall.offered calls := by
  obtain ⟨-, -, -, -, hp⟩ := of_new h
  have hi := j.items_after calls
  have hn := names_after (j := j) (by simp [hp]) calls
  rw [hp] at hi hn
  obtain ⟨ps, hps, hi⟩ := Option.map_eq_some_iff.mp hi
  rw [hps] at hn
  have hn : ps.names = JobCall.offered calls := Option.some.inj hn
  rw [← hn, Parameters.names, hi]
  rfl

theorem parameters_after {takesParameters flatten : Bool} {name : String} {executor : Handle}
    (h : new takesParameters name executor = .ok j) {calls : List JobCall} {w : Value}
    (hw : valueAt? "parameters" (if flatten then [] else (j.after calls).declared) = some w) :
    w = .ofEntries ((j.accepted calls).map fun p => (p.name, p.contents)) ∧
      parameterNames (j.accepted calls) = JobCall.offered calls := by
  rw [declared_after h] at hw
  cases takesParameters with
  | false => cases flatten <;> cases hw
  | true =>
    cases flatten with
    | true => cases hw
    | false =>
      cases hw
      exact ⟨rfl, parameterNames_accepted h calls⟩

/-- A job after calls is generated with the keys of its executor, `steps`, the keys of the settings
that were made, and `parameters` if it takes them and is not flattened. It has a step for each that
was added, in order. Its variables are in the order in which they were set first, each with what it
was set to last. Its parameters are those that were declared with success, in order. -/
theorem contents_after {takesParameters : Bool} {name : String} {executor : Handle}
    (h : new takesParameters name executor = .ok j) {calls : List JobCall}
    (hv : (j.after calls).contents held ctx = .ok v) :
    let inner := (j.after calls).inner ctx
    let assignments := calls.filterMap JobCall.assignment?
    ∃ x es, held executor = some x ∧ v = .ofEntries es ∧
      entryKeys es = x.keys ++ "steps" :: JobCall.settingKeys calls ++
        keyIf (takesParameters && !ctx.flatten) "parameters" ∧
      (∃ items, valueAt? "steps" es = some (.seq items) ∧
        List.Forall₂ (fun s item => s.contents inner = .ok item)
          (calls.filterMap JobCall.step?) items) ∧
      (∀ w, valueAt? "environment" es = some w → ∃ vars, w = .ofEntries vars ∧
        entryKeys vars = (entryKeys assignments).eraseDups ∧
        ∀ key u, valueAt? key vars = some u → ∃ text, valueAt? key assignments.reverse = some text ∧
          inner.resolveValue (.str text) = .ok u ∧ (ctx.flatten = false → u = .str text)) ∧
      ∀ w, valueAt? "parameters" es = some w →
        w = .ofEntries ((j.accepted calls).map fun p => (p.name, p.contents)) ∧
        parameterNames (j.accepted calls) = JobCall.offered calls := by
  intro inner assignments
  obtain ⟨-, he, hs, hp, hps⟩ := of_new h
  obtain ⟨x, fs, hx, hfs, rfl⟩ := exists_entries_of_contents hv
  have hj := job_after hs hp calls
  have hd := declared_after h calls
  have hkeys : entryKeys fs = x.keys ++ "steps" :: JobCall.settingKeys calls := by
    rw [Context.entryKeys_of_resolved hfs, hj, Job.written, entryKeys_append,
      Executor.entryKeys_written, entryKeys_cons, JobCall.entryKeys_properties]
  refine ⟨x, _, ?_, rfl, ?_, ?_, ?_, ?_⟩
  · rwa [hj, he] at hx
  · rw [entryKeys_append, hkeys, hd]
    cases ctx.flatten <;> cases takesParameters <;> rfl
  · obtain ⟨items, hi, hf⟩ := Job.steps_of_resolved hfs
    rw [hj] at hf
    exact ⟨items, by rw [valueAt?_append, hi, Option.some_or], hf⟩
  · intro w hw
    rw [valueAt?_append, valueAt?_declared _ _ (by decide), Option.or_none] at hw
    obtain ⟨vars, rfl, hk, ht⟩ := Job.variables_of_resolved hfs hw
    rw [hj] at hk ht
    refine ⟨vars, rfl, hk.trans (Dict.keys_ofList assignments), fun key u hu => ?_⟩
    obtain ⟨text, hg, hr⟩ := ht key u hu
    refine ⟨text, (Dict.get?_ofList assignments key).symm.trans hg, hr, fun hf => ?_⟩
    rw [Context.resolveValue_eq_ok (Context.activeScope_eq_none (by simp [hf]))] at hr
    exact (Except.ok.inj hr).symm
  · intro w hw
    have hn : valueAt? "parameters" fs = none := by
      rw [valueAt?_eq_none_iff, Context.entryKeys_of_resolved hfs]
      exact Job.parameters_notMem_written _ x
    rw [valueAt?_append, hn, Option.none_or] at hw
    exact parameters_after h hw

/-- The second `target` and the parameter without a name are refused, and `B` is set twice. -/
theorem contents_after_deploy :
    let job : Job := {
      name := "deploy"
      executor := ⟨0⟩
      steps := []
      properties := {}
      named := by decide }
    let j : AnyJob := .parameterized ⟨job, ∅⟩
    let target (type : ParameterType) : JobCall :=
      .addParameter (.declared "target" ⟨type, none, none, none⟩)
    let make : Step := .run { command := "make << parameters.target >>" }
    let calls : List JobCall := [
      .change (.shell "sh"), .addStep make, .change (.variable "B" "1"), target .string,
      target .boolean, .change (.variable "A" "2"), .addStep make,
      .addParameter (.declared "" ⟨.string, none, none, none⟩), .change (.variable "B" "3")]
    let held := Held.ofList [⟨⟨0⟩, .macos ⟨"15.0"⟩ (some "large")⟩]
    new true "deploy" ⟨0⟩ = .ok j ∧
      ∃ es, (j.after calls).contents held .templated = .ok (.ofEntries es) ∧
        entryKeys es =
          ["macos", "resource_class", "steps", "environment", "shell", "parameters"] ∧
        (∃ items, valueAt? "steps" es = some (.seq items) ∧
          List.Forall₂ (fun s item => s.contents (j.after calls |>.inner .templated) = .ok item)
            [make, make] items) ∧
        (∀ w, valueAt? "environment" es = some w →
          ∃ vars, w = .ofEntries vars ∧ entryKeys vars = ["B", "A"]) ∧
        ∀ w, valueAt? "parameters" es = some w →
          parameterNames (j.accepted calls) = ["target"] := by
  intro job j target make calls held
  have h : new true "deploy" ⟨0⟩ = .ok j := by decide
  obtain ⟨v, hv⟩ : ∃ v, (j.after calls).contents held .templated = .ok v :=
    failure?_eq_none_iff.mp (by decide +kernel)
  obtain ⟨x, es, hx, rfl, hk, hs, he, hp⟩ := contents_after h hv
  cases hx
  refine ⟨h, es, hv, hk, hs, fun w hw => ?_, fun w hw => (hp w hw).2⟩
  obtain ⟨vars, hv, hk, -⟩ := he w hw
  exact ⟨vars, hv, hk.trans (by decide +kernel)⟩

end AnyJob

end JobConfig

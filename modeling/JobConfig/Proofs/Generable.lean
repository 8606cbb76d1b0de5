import JobConfig.Proofs.Documents

/-!
# The grammar of what is generated

Parameters, lists of parameters, steps, executors and jobs (`Generable`) are generated in the
grammar in which they are written: flags, integers, texts, sequences, and mappings with texts for
keys, at every depth. An optional attribute (`Generable.Attribute`) is there exactly if it is set,
and one that is not set leaves no trace, so that nothing is ever null. A document is of the same
grammar, apart from its version (`Generable.generated_conforms`).
-/

namespace JobConfig

/-! ## Parts of values -/

/-- Leads from a value to a part of it: to what a name has, or to the item at a place. -/
inductive Selector where
  | entry (name : String)
  | item (index : Nat)

namespace Value

/-- The part that a selector leads to. -/
def part? : Value → Selector → Option Value
  | v, .entry name => v.member? name
  | .seq items, .item i => items[i]?
  | _, .item _ => none

/-- The part of a value that is reached by one selector after the other. -/
def at? (v : Value) : List Selector → Option Value
  | [] => some v
  | s :: path => (v.part? s).bind fun w => w.at? path

theorem at?_entry_ofEntries (es : List (String × Value)) (name : String) (path : List Selector) :
    (ofEntries es).at? (.entry name :: path) = (valueAt? name es).bind fun w => w.at? path := by
  rw [at?, part?, member?_ofEntries]

theorem at?_entry_singleton (es : List (String × Value)) (name : String) :
    (ofEntries es).at? [.entry name] = valueAt? name es := by
  rw [at?_entry_ofEntries]
  cases valueAt? name es <;> rfl

theorem at?_keyed (name : String) (v : Value) (path : List Selector) :
    (keyed name v).at? (.entry name :: path) = v.at? path := by
  have hk : keyed name v = ofEntries [(name, v)] := rfl
  simp [hk, at?_entry_ofEntries, valueAt?]

theorem at?_item_seqMap {α : Type} (write : α → Value) (as : List α) (i : Nat)
    (path : List Selector) :
    (seq (as.map write)).at? (.item i :: path) = as[i]?.bind fun a => (write a).at? path := by
  rw [at?, part?, List.getElem?_map]
  cases as[i]? <;> rfl

variable {ε : Type} {lookup : String → Except ε Literal}

/-- The parts of a resolved value are the resolved parts of the value. -/
theorem Simple.part?_of_resolve {v w : Value} (hv : v.Simple) (h : v.resolve lookup = .ok w)
    (s : Selector) :
    Option.Rel (fun a b => a.Simple ∧ a.resolve lookup = .ok b) (v.part? s) (w.part? s) := by
  cases hv with
  | bool b =>
    cases h
    cases s <;> exact .none
  | int n =>
    cases h
    cases s <;> exact .none
  | str text =>
    -- A text has no parts, and neither has what it is resolved to.
    have hw : ∀ s, w.part? s = none := by
      rw [resolve, resolveText] at h
      split at h
      · obtain ⟨l, -, rfl⟩ := map_eq_ok.mp h
        cases l <;> rintro ⟨⟩ <;> rfl
      · obtain ⟨o, -, hw⟩ := bind_eq_ok.mp h
        cases hw
        rintro ⟨⟩ <;> rfl
    rw [hw]
    cases s <;> exact .none
  | seq hs =>
    obtain ⟨ws, hws, hw⟩ := bind_eq_ok.mp h
    cases hw
    cases s with
    | entry name => exact .none
    | item i =>
      exact getElem?_of_forall₂ ((List.forall₂_and_left _ _).mpr ⟨hs, resolveItems_eq_ok.mp hws⟩) i
  | @map es hs =>
    obtain ⟨fs, rfl, hfs⟩ := resolve_ofEntries h
    cases s with
    | entry name =>
      have hr := ((List.forall₂_and_left _ _).mpr ⟨hs, hfs⟩).imp
        (S := fun e f => f.1 = e.1 ∧ e.2.Simple ∧ e.2.resolve lookup = .ok f.2)
        fun e f h => ⟨h.2.1, h.1, h.2.2⟩
      rw [part?, part?, ← Value.ofEntries, member?_ofEntries, member?_ofEntries]
      exact valueAt?_of_forall₂ hr name
    | item i => exact .none

/-- Resolving keeps what there is, at every depth. -/
theorem Simple.isSome_at?_of_resolve {v w : Value} (hv : v.Simple) (h : v.resolve lookup = .ok w)
    (path : List Selector) : (w.at? path).isSome = (v.at? path).isSome := by
  induction path generalizing v w with
  | nil => rfl
  | cons s path ih =>
    have hr := hv.part?_of_resolve h s
    rw [at?, at?]
    generalize v.part? s = a, w.part? s = b at hr
    cases hr with
    | none => rfl
    | some hr => exact ih hr.1 hr.2

theorem Simple.isSome_at?_of_resolveValue {ctx : Context} {v w : Value} (hv : v.Simple)
    (h : ctx.resolveValue v = .ok w) (path : List Selector) :
    (w.at? path).isSome = (v.at? path).isSome := by
  rcases Context.resolve_of_resolveValue h with rfl | ⟨ps, h⟩
  · rfl
  · exact hv.isSome_at?_of_resolve h path

/-- A field of a record is there exactly if it is set. -/
theorem isSome_valueAt?_setFields {fs : List (String × Option Value)} {as : List (String × Bool)}
    (hd : (entryKeys fs).Nodup) (hs : as ⊆ fs.map fun f => (f.1, f.2.isSome)) {name : String}
    {set : Bool} (h : (name, set) ∈ as) : (valueAt? name (setFields fs)).isSome = set := by
  obtain ⟨f, hf, he⟩ := List.mem_map.mp (hs h)
  cases he
  rw [valueAt?_setFields f.1 hd, valueAt?_of_mem hd hf]
  rfl

end Value

/-! ## Optional attributes

Each component lists its optional attributes under the names under which they are written, and
whether they are set. -/

open Value

def Declaration.optional (d : Declaration) : List (String × Bool) := [
  ("default", d.default.isSome),
  ("description", d.description.isSome),
  ("enum", d.allowed.isSome)]

def Step.optional : Step → List (String × Bool)
  | checkout s => [("path", s.path.isSome)]
  | run s => [
    ("name", s.name.isSome),
    ("shell", s.shell.isSome),
    ("environment", !s.environment.isEmpty),
    ("background", s.background.isSome),
    ("working_directory", s.workingDirectory.isSome),
    ("no_output_timeout", s.noOutputTimeout.isSome),
    ("when", s.runWhen.isSome)]
  | saveCache s => [("name", s.name.isSome), ("when", s.runWhen.isSome)]
  | restoreCache s => [("name", s.name.isSome)]
  | persistToWorkspace _ => []
  | attachWorkspace _ => []
  | storeArtifacts s => [("destination", s.destination.isSome)]
  | storeTestResults _ => []

def DockerImage.optional (i : DockerImage) : List (String × Bool) := [
  ("name", i.name.isSome),
  ("entrypoint", i.entrypoint.isSome),
  ("command", i.command.isSome),
  ("user", i.user.isSome),
  ("environment", !i.environment.isEmpty)]

def JobProperties.optional (p : JobProperties) : List (String × Bool) := [
  ("parallelism", p.parallelism.isSome),
  ("environment", !p.environment.isEmpty),
  ("shell", p.shell.isSome),
  ("working_directory", p.workingDirectory.isSome)]

section Optional

variable {name : String} {set : Bool}

theorem Declaration.isSome_at?_toValue {d : Declaration} (h : (name, set) ∈ d.optional) :
    (d.toValue.at? [.entry name]).isSome = set := by
  rw [toValue, record, at?_entry_singleton]
  exact isSome_valueAt?_setFields (by simp) (by simp [optional]) h

theorem Step.isSome_valueAt?_entries {s : Step} (h : (name, set) ∈ s.optional) :
    (valueAt? name s.entries).isSome = set := by
  cases s <;>
    exact isSome_valueAt?_setFields (by simp) (by simp [optional, isSome_environmentValue]) h

theorem Step.isSome_at?_written {s : Step} (h : (name, set) ∈ s.optional) :
    (s.written.at? [.entry s.kind, .entry name]).isSome = set := by
  rw [← isSome_valueAt?_entries h]
  unfold written
  split
  · rename_i he
    rw [he]
    rfl
  · rw [at?_keyed, at?_entry_singleton]

theorem DockerImage.isSome_at?_toValue {i : DockerImage} (h : (name, set) ∈ i.optional) :
    (i.toValue.at? [.entry name]).isSome = set := by
  rw [toValue, record, at?_entry_singleton]
  exact isSome_valueAt?_setFields (by simp) (by simp [optional, isSome_environmentValue]) h

theorem JobProperties.isSome_valueAt?_written {p : JobProperties} (h : (name, set) ∈ p.optional) :
    (valueAt? name p.written).isSome = set :=
  isSome_valueAt?_setFields (by simp) (by simp [optional, isSome_environmentValue]) h

theorem MachineSettings.isSome_at?_toValue (m : MachineSettings) :
    (m.toValue.at? [.entry "docker_layer_caching"]).isSome = m.dockerLayerCaching.isSome := by
  rw [toValue, record, at?_entry_singleton]
  cases m.dockerLayerCaching <;> rfl

theorem Executor.isSome_valueAt?_resourceClass (x : Executor) :
    (valueAt? "resource_class" x.written).isSome = x.resourceClass.isSome := by
  cases x with
  | docker _ c => cases c <;> rfl
  | machine _ c => cases c <;> rfl
  | macos _ c => cases c <;> rfl
  | reusable _ _ => rfl

end Optional

/-! ## What a job has under a name -/

theorem Parameters.valueAt?_contents {ps : Parameters} {p : Parameter} (h : p ∈ ps.items) :
    valueAt? p.name (ps.items.map fun p => (p.name, p.contents)) = some p.contents := by
  have hd : (entryKeys (ps.items.map fun p => (p.name, p.contents))).Nodup := by
    simpa [entryKeys, parameterNames, Function.comp_def] using ps.distinct
  exact valueAt?_of_mem hd (List.mem_map_of_mem h)

namespace AnyJob

variable {name : String}

theorem valueAt?_executor (j : AnyJob) (x : Executor) (flatten : Bool)
    (h : name ∈ ["docker", "machine", "resource_class"]) :
    valueAt? name (j.job.written x ++ if flatten then [] else j.declared) =
      valueAt? name x.written := by
  obtain ⟨hs, hp⟩ := (by decide : ∀ n ∈ ["docker", "machine", "resource_class"],
    n ∉ ["steps", "parallelism", "environment", "shell", "working_directory"] ∧
      n ≠ "parameters") name h
  have hf : valueAt? name (setFields j.job.fields) = none :=
    valueAt?_eq_none_iff.mpr fun hm => hs ((entryKeys_setFields_sublist _).subset hm)
  rw [valueAt?_append, j.valueAt?_declared flatten hp, Option.or_none, Job.written_eq_append,
    valueAt?_append, hf, Option.or_none]

theorem valueAt?_setting (j : AnyJob) (x : Executor) (flatten : Bool)
    (h : name ∈ ["parallelism", "environment", "shell", "working_directory"]) :
    valueAt? name (j.job.written x ++ if flatten then [] else j.declared) =
      valueAt? name j.job.properties.written := by
  obtain ⟨he, hs, hp⟩ := (by decide :
    ∀ n ∈ ["parallelism", "environment", "shell", "working_directory"],
      n ∉ ["docker", "machine", "macos", "executor", "resource_class"] ∧ n ≠ "steps" ∧
        n ≠ "parameters") name h
  have hx : valueAt? name x.written = none :=
    valueAt?_eq_none_iff.mpr fun hm => he (Executor.mem_keys_written hm)
  rw [valueAt?_append, j.valueAt?_declared flatten hp, Option.or_none, Job.written,
    valueAt?_append, hx, Option.none_or, valueAt?, if_neg (Ne.symm hs)]

theorem valueAt?_steps (j : AnyJob) (x : Executor) (flatten : Bool) :
    valueAt? "steps" (j.job.written x ++ if flatten then [] else j.declared) =
      some (.seq (j.job.steps.map Step.written)) := by
  have hs : valueAt? "steps" (j.job.written x) = some (.seq (j.job.steps.map Step.written)) :=
    j.job.valueAt?_written x (by decide)
  rw [valueAt?_append, hs, Option.some_or]

theorem valueAt?_parameters {j : AnyJob} {ps : Parameters} (hp : j.parameters? = some ps)
    (x : Executor) :
    valueAt? "parameters" (j.job.written x ++ j.declared) = some ps.contents := by
  have hn : valueAt? "parameters" (j.job.written x) = none :=
    valueAt?_eq_none_iff.mpr (j.job.parameters_notMem_written x)
  rw [valueAt?_append, hn, Option.none_or, declared, hp]
  rfl

end AnyJob

/-! ## Components -/

/-- A component that is generated. -/
inductive Generable where
  | parameter (p : Parameter)
  | parameters (ps : Parameters)
  | step (s : Step)
  | executor (x : Executor)
  | job (j : AnyJob)

namespace Generable

/-- The component as it is written below its name. -/
def contents (held : Held) (ctx : Context) : Generable → Generated Value
  | parameter p => .ok p.contents
  | parameters ps => .ok ps.contents
  | step s => s.contents ctx
  | executor x => x.contents ctx
  | job j => j.contents held ctx

/-- The component as it is written, with its name if it has one. -/
def generate (held : Held) (ctx : Context) : Generable → Generated Value
  | parameter p => .ok p.generate
  | job j => j.generate held ctx
  | g => g.contents held ctx

/-- The name under which the component is generated. -/
def name? : Generable → Option String
  | parameter p => some p.name
  | job j => some j.name
  | _ => none

/-- The component before anything is resolved in it; a job whose executor is held no more has no
such form. -/
def written? (held : Held) (flatten : Bool) : Generable → Option Value
  | parameter p => some p.contents
  | parameters ps => some ps.contents
  | step s => some s.written
  | executor x => some (.ofEntries x.written)
  | job j => (held j.job.executor).map fun x =>
    .ofEntries (j.job.written x ++ if flatten then [] else j.declared)

/-- An optional attribute of a component, at any depth: where it is written, and whether it is
set. -/
inductive Attribute (held : Held) (flatten : Bool) : Generable → List Selector → Bool → Prop where
  | parameter (p : Parameter) {name : String} {set : Bool}
    (h : (name, set) ∈ p.declaration.optional) :
    Attribute held flatten (.parameter p) [.entry name] set
  | declared {ps : Parameters} {p : Parameter} {path : List Selector} {set : Bool}
    (hp : p ∈ ps.items) (h : Attribute held flatten (.parameter p) path set) :
    Attribute held flatten (.parameters ps) (.entry p.name :: path) set
  | step (s : Step) {name : String} {set : Bool} (h : (name, set) ∈ s.optional) :
    Attribute held flatten (.step s) [.entry s.kind, .entry name] set
  | image {images : List DockerImage} {c : Option String} {i : Nat} {image : DockerImage}
    {name : String} {set : Bool} (hi : images[i]? = some image) (h : (name, set) ∈ image.optional) :
    Attribute held flatten (.executor (.docker images c))
      [.entry "docker", .item i, .entry name] set
  | machine (m : MachineSettings) (c : Option String) :
    Attribute held flatten (.executor (.machine m c))
      [.entry "machine", .entry "docker_layer_caching"] m.dockerLayerCaching.isSome
  | resourceClass (x : Executor) :
    Attribute held flatten (.executor x) [.entry "resource_class"] x.resourceClass.isSome
  | jobExecutor {j : AnyJob} {x : Executor} {path : List Selector} {set : Bool}
    (hx : held j.job.executor = some x) (h : Attribute held flatten (.executor x) path set) :
    Attribute held flatten (.job j) path set
  | jobStep {j : AnyJob} {i : Nat} {s : Step} {path : List Selector} {set : Bool}
    (hi : j.job.steps[i]? = some s) (h : Attribute held flatten (.step s) path set) :
    Attribute held flatten (.job j) (.entry "steps" :: .item i :: path) set
  | jobSetting {j : AnyJob} {name : String} {set : Bool}
    (h : (name, set) ∈ j.job.properties.optional) :
    Attribute held flatten (.job j) [.entry name] set
  | jobParameters {j : AnyJob} {ps : Parameters} {path : List Selector} {set : Bool}
    (hf : flatten = false) (hp : j.parameters? = some ps)
    (h : Attribute held flatten (.parameters ps) path set) :
    Attribute held flatten (.job j) (.entry "parameters" :: path) set

variable {g : Generable} {held : Held} {ctx : Context} {flatten : Bool} {v w : Value}

/-- Whatever is generated is what was written, resolved. -/
theorem exists_resolved (h : g.contents held ctx = .ok v) :
    ∃ (u : Value) (c : Context),
      g.written? held ctx.flatten = some u ∧ c.resolveValue u = .ok v := by
  cases g with
  | parameter p =>
    cases h
    exact ⟨_, .templated, rfl, rfl⟩
  | parameters ps =>
    cases h
    exact ⟨_, .templated, rfl, rfl⟩
  | step s => exact ⟨_, ctx, rfl, h⟩
  | executor x => exact ⟨_, ctx, rfl, (ctx.resolveValue_ofEntries _).trans h⟩
  | job j =>
    obtain ⟨x, fs, hx, hfs, rfl⟩ := AnyJob.exists_entries_of_contents h
    cases hf : ctx.flatten with
    | true =>
      refine ⟨_, j.inner ctx, congrArg (Option.map _) hx, ?_⟩
      simp only [if_true, List.append_nil, Context.resolveValue_ofEntries, hfs, Except.map_ok]
    | false =>
      -- The section of the parameters is there too, but nothing is resolved.
      have hi : (j.inner ctx).activeScope = none := Context.activeScope_eq_none (by simp [hf])
      rw [Context.resolveEntries_eq_ok hi] at hfs
      cases hfs
      exact ⟨_, .templated, congrArg (Option.map _) hx, rfl⟩

theorem simple_written (h : g.written? held flatten = some v) : v.Simple := by
  cases g with
  | parameter p =>
    cases h
    exact p.declaration.simple_toValue
  | parameters ps =>
    cases h
    exact ps.simple_contents
  | step s =>
    cases h
    exact s.simple_written
  | executor x =>
    cases h
    exact .ofEntries x.simple_written
  | job j =>
    obtain ⟨x, -, rfl⟩ := Option.map_eq_some_iff.mp h
    refine .ofEntries fun e he => ?_
    rcases List.mem_append.mp he with he | he
    · exact j.job.simple_written x e he
    · split at he
      · cases he
      · obtain ⟨ps, -, rfl⟩ := Option.map_eq_some_iff.mp (Option.mem_toList.mp he)
        exact ps.simple_contents

theorem exists_entry_of_executor {x : Executor} {path : List Selector} {set : Bool}
    (h : (executor x).Attribute held flatten path set) :
    ∃ name rest, path = .entry name :: rest ∧ name ∈ ["docker", "machine", "resource_class"] := by
  cases h <;> exact ⟨_, _, rfl, by decide⟩

/-- Each optional attribute of a component is written exactly if it is set. -/
theorem isSome_at?_written {path : List Selector} {set : Bool}
    (ha : g.Attribute held flatten path set) (h : g.written? held flatten = some v) :
    (v.at? path).isSome = set := by
  induction ha generalizing v with
  | parameter p hp =>
    cases h
    exact Declaration.isSome_at?_toValue hp
  | declared hp _ ih =>
    cases h
    rw [Parameters.contents, at?_entry_ofEntries, Parameters.valueAt?_contents hp]
    exact ih rfl
  | step s hs =>
    cases h
    exact Step.isSome_at?_written hs
  | @image images c i image name set hi hs =>
    cases h
    have hd : valueAt? "docker" (Executor.docker images c).written =
        some (.seq (images.map DockerImage.toValue)) := rfl
    rw [at?_entry_ofEntries, hd, Option.bind_some, at?_item_seqMap, hi]
    exact DockerImage.isSome_at?_toValue hs
  | machine m c =>
    cases h
    exact m.isSome_at?_toValue
  | resourceClass x =>
    cases h
    rw [at?_entry_singleton, x.isSome_valueAt?_resourceClass]
  | @jobExecutor j x path set hx ha ih =>
    -- The job takes the executor's entries over, so the path starts at one of these.
    obtain ⟨name, rest, rfl, hn⟩ := exists_entry_of_executor ha
    obtain ⟨y, hy, rfl⟩ := Option.map_eq_some_iff.mp h
    cases hx.symm.trans hy
    rw [at?_entry_ofEntries, j.valueAt?_executor x flatten hn, ← at?_entry_ofEntries]
    exact ih rfl
  | @jobStep j i s path set hi _ ih =>
    obtain ⟨x, -, rfl⟩ := Option.map_eq_some_iff.mp h
    rw [at?_entry_ofEntries, j.valueAt?_steps, Option.bind_some, at?_item_seqMap, hi]
    exact ih rfl
  | @jobSetting j name set hs =>
    obtain ⟨x, -, rfl⟩ := Option.map_eq_some_iff.mp h
    rw [at?_entry_singleton, j.valueAt?_setting x flatten (mem_entryKeys_of_mem hs)]
    exact JobProperties.isSome_valueAt?_written hs
  | @jobParameters j ps path set hf hp _ ih =>
    obtain ⟨x, -, rfl⟩ := Option.map_eq_some_iff.mp h
    rw [hf, if_neg Bool.false_ne_true, at?_entry_ofEntries, AnyJob.valueAt?_parameters hp]
    exact ih rfl

/-- Generating a component puts its contents under its name, if it has one. -/
theorem generate_eq (g : Generable) (held : Held) (ctx : Context) :
    g.generate held ctx = (fun v => g.name?.elim v fun n => keyed n v) <$> g.contents held ctx := by
  have hid (x : Generated Value) : x = (fun v => v) <$> x := by
    cases x <;> rfl
  cases g with
  | parameter p => rfl
  | parameters ps => rfl
  | step s => exact hid _
  | executor x => exact hid _
  | job j => rfl

theorem contents_conforms (h : g.contents held ctx = .ok v) :
    v.Simple ∧ ∀ path set, g.Attribute held ctx.flatten path set → (v.at? path).isSome = set := by
  obtain ⟨u, c, hu, hv⟩ := exists_resolved h
  have hs := simple_written hu
  refine ⟨hs.of_resolveValue hv, fun path set ha => ?_⟩
  rw [hs.isSome_at?_of_resolveValue hv, isSome_at?_written ha hu]

/-- Whatever a component is generated as is in the grammar of what is written, with the optional
attributes that are set and without the others: on its own, under its name, and as a job of a
document, which has nothing besides but its version. -/
theorem generated_conforms (held : Held) (ctx : Context) :
    (∀ (g : Generable) (v : Value), g.contents held ctx = .ok v →
      v.Simple ∧ ∀ path set, g.Attribute held ctx.flatten path set → (v.at? path).isSome = set) ∧
    (∀ (g : Generable) (v : Value), g.generate held ctx = .ok v →
      v.Simple ∧ ∀ path set, g.Attribute held ctx.flatten path set →
        (v.at? (g.name?.toList.map .entry ++ path)).isSome = set) ∧
    ∀ (version : Double) (jobs : List AnyJob) (v : Value),
      Document.render version jobs held ctx = .ok v →
      ∃ w, v = .ofEntries [("version", .float version), ("jobs", w)] ∧ w.Simple ∧
        ∀ j ∈ jobs, ∀ path set, (job j).Attribute held ctx.flatten path set →
          (w.at? (.entry j.name :: path)).isSome = set := by
  refine ⟨fun g v => contents_conforms, fun g v hg => ?_, fun version jobs v hv => ?_⟩
  · rw [generate_eq, map_eq_ok] at hg
    obtain ⟨w, hw, rfl⟩ := hg
    obtain ⟨hs, ha⟩ := contents_conforms hw
    cases g.name? with
    | none => exact ⟨hs, ha⟩
    | some n =>
      refine ⟨hs.keyed n, fun path set h => ?_⟩
      exact (congrArg Option.isSome (at?_keyed n w path)).trans (ha path set h)
  · obtain ⟨es, hd, hf, rfl⟩ := Document.render_eq_ok_iff.mp hv
    refine ⟨_, rfl, .ofEntries fun e he => ?_, fun j hj path set ha => ?_⟩
    · obtain ⟨j, -, -, hc⟩ := exists_of_mem_forall₂ hf he
      exact (contents_conforms (g := .job j) hc).1
    · obtain ⟨⟨_, c⟩, he, rfl, hc⟩ :=
        exists_of_mem_forall₂ (List.Forall₂.flip (R := fun (e : String × Value) (j : AnyJob) =>
          e.1 = j.name ∧ j.contents held ctx = .ok e.2) hf) hj
      rw [← Document.entryKeys_of_jobs hf] at hd
      rw [at?_entry_ofEntries, valueAt?_of_mem hd he]
      exact (contents_conforms (g := .job j) hc).2 path set ha

/-- The shell is the flag that is the default of `slim`; a user is set, and neither are the names of
the image and of the step nor a resource class. -/
theorem generated_conforms_deploy :
    let slim : Parameter := ⟨"slim", ⟨.boolean, some (.bool true), none, none⟩, by decide⟩
    let deploy : Job := {
      name := "deploy"
      executor := ⟨0⟩
      steps := [.run { command := "make", shell := some "<< parameters.slim >>" }]
      properties := {}
      named := by decide }
    let g := job (.parameterized ⟨deploy, ⟨[slim], by decide⟩⟩)
    let held := Held.ofList [⟨⟨0⟩, .docker [{ image := "app", user := some "root" }] none⟩]
    ∃ v, g.contents held .flattened = .ok v ∧ v.Simple ∧
      (v.at? [.entry "docker", .item 0, .entry "user"]).isSome = true ∧
      (v.at? [.entry "docker", .item 0, .entry "name"]).isSome = false ∧
      (v.at? [.entry "steps", .item 0, .entry "run", .entry "shell"]).isSome = true ∧
      (v.at? [.entry "steps", .item 0, .entry "run", .entry "name"]).isSome = false ∧
      (v.at? [.entry "resource_class"]).isSome = false := by
  intro slim deploy g held
  obtain ⟨v, hv⟩ : ∃ v, g.contents held .flattened = .ok v :=
    failure?_eq_none_iff.mp (by decide +kernel)
  obtain ⟨hs, ha⟩ := (generated_conforms held .flattened).1 g v hv
  refine ⟨v, hv, hs, ?_, ?_, ?_, ?_, ?_⟩
  · exact ha _ _ (.jobExecutor rfl (.image rfl (by decide)))
  · exact ha _ _ (.jobExecutor rfl (.image rfl (by decide)))
  · exact ha _ _ (.jobStep rfl (.step _ (by decide)))
  · exact ha _ _ (.jobStep rfl (.step _ (by decide)))
  · exact ha _ _ (.jobExecutor rfl (.resourceClass _))

end Generable

end JobConfig

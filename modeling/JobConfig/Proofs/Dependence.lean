import JobConfig.Proofs.Flattening
import JobConfig.Proofs.Lookup
import JobConfig.Proofs.Texts

/-!
# What flattening depends on

A flattened job depends on its parameters and on the supplied values only through the names that
its templated form refers to (`Job.references`): where two lists of parameters and two sets of
supplied values answer these names alike, the job comes out alike, as a value or as an error
(`ParameterizedJob.contents_of_agreement`). So nothing that no text refers to is looked at, and
neither is the order of the parameters or what describes them. A value that is supplied for a
parameter and a default that is declared in its place cannot be told apart
(`ParameterizedJob.contents_withOverride`).

When it fails, a job fails as the first of its references that has no value
(`Job.failure?_contents`).
-/

namespace JobConfig

/-! ## References of a job -/

namespace Job

/-- The names that a job refers to, in the texts of its templated form. -/
def references (j : Job) (held : Held) : List String :=
  match j.contents held .templated with
  | .ok base => base.references
  | .error _ => []

variable {j : Job} {held : Held} {e : Executor} {ctx ctx' : Context} {ps ps' : Parameters}

theorem contents_of_dropped (he : held j.executor = none) (ctx : Context) :
    j.contents held ctx = .error (.undefinedExecutor j.name) := by
  rw [contents, entries_of_dropped he, Except.map_error]

theorem references_of_dropped (he : held j.executor = none) : j.references held = [] := by
  rw [references, contents_of_dropped he]

theorem references_of_held (he : held j.executor = some e) :
    j.references held = (Value.ofEntries (j.written e)).references := by
  rw [references, contents, entries_of_held he, Context.resolveEntries_eq_ok rfl, Except.map_ok]

/-- In a scope a job is what it writes, resolved against the scope. -/
theorem contents_of_held (he : held j.executor = some e) (h : ctx.activeScope = some ps) :
    j.contents held ctx = (Value.ofEntries (j.written e)).resolve (ctx.lookup ps) := by
  rw [contents, entries_of_held he, ← Context.resolveValue_ofEntries,
    Context.resolveValue_eq_resolve h]

/-- Two scopes that answer the references of a job alike make no difference to it. -/
theorem contents_congr (h : ctx.activeScope = some ps) (h' : ctx'.activeScope = some ps')
    (hl : ∀ name ∈ j.references held, ctx'.lookup ps' name = ctx.lookup ps name) :
    j.contents held ctx' = j.contents held ctx := by
  cases he : held j.executor with
  | none => rw [contents_of_dropped he, contents_of_dropped he]
  | some e =>
    rw [references_of_held he] at hl
    rw [contents_of_held he h, contents_of_held he h',
      (Value.Simple.ofEntries (j.simple_written e)).resolve_congr hl]

/-- A job that cannot be flattened fails as the first of its references that has no value. -/
theorem failure?_contents (he : held j.executor = some e) (h : ctx.activeScope = some ps) :
    failure? (j.contents held ctx) =
      (j.references held).findSome? fun name => failure? (ctx.lookup ps name) := by
  rw [contents_of_held he h, references_of_held he]
  exact (Value.Simple.ofEntries (j.simple_written e)).failure?_resolve _

end Job

/-! ## Parameters and supplied values -/

namespace AnyJob

/-- A value that is supplied for a name to which a job does not refer changes nothing. -/
theorem contents_withOverride_of_notMem (a : AnyJob) (held : Held) {ctx : Context}
    (h : ctx.flatten = true) {name : String} (hn : name ∉ a.job.references held) (value : Literal) :
    a.contents held (ctx.withOverride name value) = a.contents held ctx := by
  have h' : (ctx.withOverride name value).flatten = true := h
  rw [contents_eq_inner a held h, contents_eq_inner a held h']
  have hi : (a.inner (ctx.withOverride name value)).activeScope = (a.inner ctx).activeScope := by
    cases a <;> rfl
  cases hs : (a.inner ctx).activeScope with
  | none =>
    rw [Job.contents_eq _ held (a.inner ctx) (t := .templated) rfl,
      Job.contents_eq _ held (a.inner (ctx.withOverride name value)) (t := .templated) rfl]
    congr 1
    funext v
    rw [Context.resolveValue_eq_ok hs, Context.resolveValue_eq_ok (hi.trans hs)]
  | some ps =>
    refine Job.contents_congr hs (hi.trans hs) fun other ho => ?_
    have hne : name ≠ other := fun he => hn (he ▸ ho)
    have hl : ((a.inner ctx).withOverride name value).lookup ps other =
        (a.inner ctx).lookup ps other :=
      Context.lookup_withOverride_of_ne hne value ps
    cases a <;> exact hl

end AnyJob

namespace ParameterizedJob

variable {j : ParameterizedJob} {held : Held} {ctx ctx' : Context} {name : String}

/-- Flattened, a job is the job below its parameters in a scope of these. -/
theorem contents_of_flatten (j : ParameterizedJob) (held : Held) (h : ctx.flatten = true) :
    j.contents held ctx = j.job.contents held (ctx.withScope j.parameters) :=
  AnyJob.contents_eq_inner (.parameterized j) held h

/-- When a job is flattened, each of its references has a value. -/
theorem exists_lookup_of_contents {v : Value} (h : ctx.flatten = true)
    (hv : j.contents held ctx = .ok v) (hn : name ∈ j.job.references held) :
    ∃ value, ctx.lookup j.parameters name = .ok value := by
  rw [contents_of_flatten j held h] at hv
  cases he : held j.job.executor with
  | none =>
    rw [Job.references_of_dropped he] at hn
    cases hn
  | some e =>
    have hf := Job.failure?_contents he (Context.activeScope_withScope h j.parameters)
    rw [hv, failure?_ok, eq_comm, List.findSome?_eq_none_iff] at hf
    exact failure?_eq_none_iff.mp (hf name hn)

/-- When it is not, the first reference without a value says why. -/
theorem contents_eq_error {e : GenerateError} {before rest : List String} (h : ctx.flatten = true)
    (hr : j.job.references held = before ++ name :: rest)
    (hb : ∀ n ∈ before, ∃ value, ctx.lookup j.parameters n = .ok value)
    (hn : ctx.lookup j.parameters name = .error e) : j.contents held ctx = .error e := by
  rw [contents_of_flatten j held h, ← failure?_eq_some_iff]
  cases he : held j.job.executor with
  | none =>
    rw [Job.references_of_dropped he] at hr
    simp at hr
  | some _ =>
    rw [Job.failure?_contents he (Context.activeScope_withScope h j.parameters),
      List.findSome?_eq_some_iff]
    have hb' : ∀ n ∈ before, failure? (ctx.lookup j.parameters n) = none :=
      fun n hm => failure?_eq_none_iff.mpr (hb n hm)
    exact ⟨before, name, rest, hr, failure?_eq_some_iff.mpr hn, hb'⟩

theorem contents_flattened_congr (j : Job) {ps ps' : Parameters} (h : ctx.flatten = true)
    (h' : ctx'.flatten = true)
    (hl : ∀ name ∈ j.references held, ctx'.lookup ps' name = ctx.lookup ps name) :
    contents ⟨j, ps'⟩ held ctx' = contents ⟨j, ps⟩ held ctx := by
  rw [contents_of_flatten _ held h, contents_of_flatten _ held h']
  exact Job.contents_congr (Context.activeScope_withScope h ps)
    (Context.activeScope_withScope h' ps') hl

/-- Flattening depends on its references only: where parameters and supplied values answer them
alike, the outcome is the same. So it does not change with a value supplied for a name that is not
referred to, with a parameter added that is not referred to, with the order of the parameters, or
with their descriptions. -/
theorem contents_of_agreement (j : Job) (held : Held) {ctx : Context} (h : ctx.flatten = true)
    (ps : Parameters) :
    (∀ (ctx' : Context) (ps' : Parameters), ctx'.flatten = true →
      (∀ name ∈ j.references held, ctx'.lookup ps' name = ctx.lookup ps name) →
      contents ⟨j, ps'⟩ held ctx' = contents ⟨j, ps⟩ held ctx) ∧
    (∀ (a : AnyJob) (name : String) (value : Literal), a.job = j → name ∉ j.references held →
      a.contents held (ctx.withOverride name value) = a.contents held ctx) ∧
    (∀ (p : Parameter) (ps' : Parameters), ps.add p = .ok ps' → p.name ∉ j.references held →
      contents ⟨j, ps'⟩ held ctx = contents ⟨j, ps⟩ held ctx) ∧
    (∀ ps' : Parameters, ps'.items.Perm ps.items →
      contents ⟨j, ps'⟩ held ctx = contents ⟨j, ps⟩ held ctx) ∧
    (∀ ps' : Parameters, ps'.items.map (·.describe none) = ps.items.map (·.describe none) →
      contents ⟨j, ps'⟩ held ctx = contents ⟨j, ps⟩ held ctx) := by
  refine ⟨?_, ?_, ?_, ?_, ?_⟩
  · intro ctx' ps' h' hl
    exact contents_flattened_congr j h h' hl
  · rintro a name value rfl hn
    exact a.contents_withOverride_of_notMem held h hn value
  · intro p ps' hp hn
    refine contents_flattened_congr j h h fun name hm => Context.lookup_congr rfl ?_
    rw [Parameters.get?_add_of_ne hp fun he => hn (he ▸ hm)]
  · intro ps' hp
    refine contents_flattened_congr j h h fun name _ => Context.lookup_congr rfl ?_
    rw [Parameters.get?_of_perm hp]
  · intro ps' hp
    exact contents_flattened_congr j h h fun name _ =>
      Context.lookup_congr rfl (Parameters.map_describe_get? hp name)

/-- The value supplied for `slim`, to which this job does not refer, is one that `slim` would reject;
and supplying a value for `target` is as good as having it for a default. -/
theorem contents_of_agreement_deploy :
    let tag : Parameter := ⟨"tag", ⟨.string, some (.str "20.1"), none, none⟩, by decide⟩
    let target (default : Option Literal) : Declaration := ⟨.enum, default, none, some ["all", "docs"]⟩
    let slim : Parameter := ⟨"slim", ⟨.boolean, some (.bool true), none, none⟩, by decide⟩
    let job : Job := {
      name := "deploy"
      executor := ⟨0⟩
      steps := [.run { command := "make << parameters.target >>" }]
      properties := {}
      named := by decide }
    let held := Held.ofList [⟨⟨0⟩, .docker [{ image := "app:<< parameters.tag >>" }] none⟩]
    let ctx := Context.flattened.withOverride "target" (.str "docs")
    let ps : Parameters := ⟨[tag, ⟨"target", target none, by decide⟩, slim], by decide⟩
    let ps' : Parameters := ⟨[⟨"target", target (some (.str "docs")), by decide⟩, tag], by decide⟩
    (ctx.flatten = true ∧ Context.flattened.flatten = true ∧ "slim" ∉ job.references held ∧
      slim.reject? (.str "lots") = some (.typeMismatch "slim" .boolean "string") ∧
      ∀ name ∈ job.references held, Context.flattened.lookup ps' name = ctx.lookup ps name) ∧
    contents ⟨job, ps'⟩ held .flattened = contents ⟨job, ps⟩ held ctx ∧
    contents ⟨job, ps⟩ held (ctx.withOverride "slim" (.str "lots")) = contents ⟨job, ps⟩ held ctx := by
  intro tag target slim job held ctx ps ps'
  have hn : "slim" ∉ job.references held := by decide +kernel
  have hl : ∀ name ∈ job.references held,
      Context.flattened.lookup ps' name = ctx.lookup ps name := by decide +kernel
  have hf : ctx.flatten = true := rfl
  have hc := contents_of_agreement job held hf ps
  refine ⟨⟨rfl, rfl, hn, by decide, hl⟩, ?_, ?_⟩
  · exact hc.1 _ ps' rfl hl
  · exact hc.2.1 (.parameterized ⟨job, ps⟩) "slim" (.str "lots") rfl hn

/-! ## Supplied values and defaults -/

/-- Supplying a value that a parameter takes is declaring the parameter, in its place, with this
value for its default. -/
theorem contents_withOverride (j : ParameterizedJob) (held : Held) {ctx : Context}
    (h : ctx.flatten = true) {p : Parameter} (hp : p ∈ j.parameters.items) {value : Literal}
    (hv : p.reject? value = none) (ho : ctx.overrides.get? p.name = none) :
    ∃ p', Parameter.declare p.name { p.declaration with default := some value } = .ok p' ∧
      j.contents held (ctx.withOverride p.name value) =
        contents { j with parameters := j.parameters.put p' } held ctx := by
  obtain ⟨p', hd, hn, he⟩ := p.declare_withDefault hv
  refine ⟨p', hd, contents_flattened_congr j.job h h fun name _ => ?_⟩
  by_cases hne : p.name = name
  · subst hne
    have hs : (ctx.withOverride p.name value).overrides.get? p.name = some value := by
      rw [Context.withOverride, Dict.get?_insert, if_pos rfl]
    rw [Context.lookup_of_supplied (Parameters.get?_eq_some_iff.mpr ⟨hp, rfl⟩) hs hv,
      Context.lookup_of_default (Parameters.get?_put_self hp hn) ho (by rw [he])]
  · rw [Context.lookup_withOverride_of_ne hne]
    exact Context.lookup_congr rfl (by rw [Parameters.get?_put_of_ne (hn ▸ hne)])

/-- The value takes the place of a default, next to a parameter that has no value at all. -/
theorem contents_withOverride_deploy :
    let target : Parameter :=
      ⟨"target", ⟨.enum, some (.str "all"), none, some ["all", "docs"]⟩, by decide⟩
    let tag : Parameter := ⟨"tag", ⟨.string, none, none, none⟩, by decide⟩
    let job : Job := {
      name := "deploy"
      executor := ⟨0⟩
      steps := [.run { command := "make << parameters.target >> << parameters.tag >>" }]
      properties := { shell := some "<< parameters.target >>" }
      named := by decide }
    let j : ParameterizedJob := ⟨job, ⟨[target, tag], by decide⟩⟩
    let held := Held.ofList [⟨⟨0⟩, .reusable "node" ∅⟩]
    (Context.flattened.flatten = true ∧ target ∈ j.parameters.items ∧
      target.reject? (.str "docs") = none ∧ Context.flattened.overrides.get? target.name = none) ∧
    ∃ p', Parameter.declare target.name { target.declaration with default := some (.str "docs") } =
        .ok p' ∧
      j.contents held (Context.flattened.withOverride target.name (.str "docs")) =
        contents { j with parameters := j.parameters.put p' } held .flattened := by
  intro target tag job j held
  have hp : target ∈ j.parameters.items := List.mem_cons_self
  have hv : target.reject? (.str "docs") = none := by decide
  exact ⟨⟨rfl, hp, hv, rfl⟩, contents_withOverride j held rfl hp hv rfl⟩

end ParameterizedJob

end JobConfig

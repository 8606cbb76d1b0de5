import JobConfig.Proofs.Entries
import JobConfig.Proofs.Resolution

/-!
# Flattening

Flattened, a job is what its templated form becomes when the references in it are resolved, and it
fails as that resolving does (`AnyJob.contents_flattened`): generating may resolve part by part,
because the parts are written, and resolved, in the order of the whole (`Job.contents_eq`).
-/

namespace JobConfig

/-! ## Plain jobs -/

/-- The names that the entries of an executor can have. -/
theorem Executor.mem_keys_written {e : Executor} {name : String} (h : name ∈ entryKeys e.written) :
    name ∈ ["docker", "machine", "macos", "executor", "resource_class"] := by
  cases e <;> rename_i c <;> cases c <;>
    simp_all [written, description, resourceClass] <;> tauto

namespace Job

/-- What is written for the fields of a job, apart from its executor's. -/
def fields (j : Job) : List (String × Option Value) := [
  ("steps", some (.seq (j.steps.map Step.written))),
  ("parallelism", j.properties.parallelism.map fun n => .int n.count.toNat),
  ("environment", environmentValue j.properties.environment),
  ("shell", j.properties.shell.map .str),
  ("working_directory", j.properties.workingDirectory.map .str)]

theorem written_eq_append (j : Job) (e : Executor) :
    j.written e = e.written ++ Value.setFields j.fields := rfl

theorem valueAt?_written {name : String} (j : Job) (e : Executor)
    (h : name ∉ ["docker", "machine", "macos", "executor", "resource_class"]) :
    valueAt? name (j.written e) = (valueAt? name j.fields).join := by
  have he : valueAt? name e.written = none :=
    valueAt?_eq_none_iff.mpr fun hm => h (Executor.mem_keys_written hm)
  rw [written_eq_append, valueAt?_append, he, Option.none_or]
  exact Value.valueAt?_setFields name (by simp [fields])

/-- No entry of a job itself is called as the section of its parameters. -/
theorem parameters_notMem_written (j : Job) (e : Executor) :
    "parameters" ∉ entryKeys (j.written e) := by
  have hs : "parameters" ∉ entryKeys j.properties.written := fun h =>
    absurd ((Value.entryKeys_setFields_sublist _).subset h) (by simp)
  have he : "parameters" ∉ entryKeys e.written := fun h =>
    absurd (Executor.mem_keys_written h) (by decide)
  simp [written, hs, he]

/-- In any context a job is its templated form, resolved in that context. -/
theorem contents_eq (j : Job) (held : Held) (ctx : Context) {t : Context} (ht : t.flatten = false) :
    j.contents held ctx = j.contents held t >>= ctx.resolveValue := by
  unfold contents
  cases he : held j.executor with
  | none => simp [entries_of_dropped he]
  | some e =>
    have ht' : t.resolveEntries (j.written e) = .ok (j.written e) :=
      Context.resolveEntries_eq_ok (Context.activeScope_eq_none ht) _
    rw [entries_of_held he, entries_of_held he, ht', Except.map_ok, ok_bind,
      Context.resolveValue_ofEntries]

end Job

/-! ## Either kind -/

namespace AnyJob

/-- The context in which a job resolves its references: its own parameters are in scope. -/
def inner (j : AnyJob) (ctx : Context) : Context :=
  match j.parameters? with
  | none => ctx
  | some ps => ctx.withScope ps

/-- A flattened job is its entries alone, resolved against its own parameters. -/
theorem contents_eq_inner (j : AnyJob) (held : Held) {ctx : Context} (h : ctx.flatten = true) :
    j.contents held ctx = j.job.contents held (j.inner ctx) := by
  cases j with
  | plain j => rfl
  | parameterized j =>
    show Value.ofEntries <$> j.entries held ctx = _
    rw [ParameterizedJob.entries, if_pos h]
    rfl

@[simp] theorem flatten_inner (j : AnyJob) (ctx : Context) : (j.inner ctx).flatten = ctx.flatten := by
  cases j <;> rfl

/-- In any context a job is its entries, resolved against its own parameters, and then, unless it is
flattened, the section of its parameters. -/
theorem contents_eq_entries (j : AnyJob) (held : Held) (ctx : Context) :
    j.contents held ctx =
      (fun es => Value.ofEntries (es ++ if ctx.flatten then [] else j.declared)) <$>
        j.job.entries held (j.inner ctx) := by
  cases hf : ctx.flatten with
  | true => simp only [contents_eq_inner j held hf, Job.contents, if_true, List.append_nil]
  | false =>
    have hs := Context.activeScope_eq_none hf
    have hi : (j.inner ctx).activeScope = none := Context.activeScope_eq_none (by simp [hf])
    have he : j.job.entries held (j.inner ctx) = j.job.entries held ctx := by
      cases hx : held j.job.executor with
      | none => rw [Job.entries_of_dropped hx, Job.entries_of_dropped hx]
      | some x =>
        rw [Job.entries_of_held hx, Job.entries_of_held hx, Context.resolveEntries_eq_ok hi,
          Context.resolveEntries_eq_ok hs]
    rw [contents_templated j held hf, he]
    rfl

theorem valueAt?_declared (j : AnyJob) (flatten : Bool) {name : String} (h : name ≠ "parameters") :
    valueAt? name (if flatten then [] else j.declared) = none := by
  unfold declared
  cases flatten <;> cases j.parameters? <;> simp [valueAt?, Ne.symm h]

theorem exists_entries_of_contents {j : AnyJob} {held : Held} {ctx : Context} {v : Value}
    (h : j.contents held ctx = .ok v) :
    ∃ x fs, held j.job.executor = some x ∧
      (j.inner ctx).resolveEntries (j.job.written x) = .ok fs ∧
      v = .ofEntries (fs ++ if ctx.flatten then [] else j.declared) := by
  rw [contents_eq_entries, map_eq_ok] at h
  obtain ⟨fs, hfs, rfl⟩ := h
  cases hx : held j.job.executor with
  | none =>
    rw [Job.entries_of_dropped hx] at hfs
    cases hfs
  | some x =>
    rw [Job.entries_of_held hx] at hfs
    exact ⟨x, fs, rfl, hfs, rfl⟩

/-- The section of its parameters is all that sets the templated form of a job apart. -/
theorem contents_withoutEntry (j : AnyJob) (held : Held) {t : Context} (ht : t.flatten = false) :
    (fun v => v.withoutEntry "parameters") <$> j.contents held t = j.job.contents held t := by
  have hd : dropEntry "parameters" j.declared = [] := by
    unfold declared
    cases j.parameters? <;> simp [dropEntry]
  cases he : held j.job.executor with
  | none =>
    rw [contents_templated j held ht, Job.contents, Job.entries_of_dropped he]
    rfl
  | some e =>
    have hb : dropEntry "parameters" (j.written e) = j.job.written e := by
      rw [written, dropEntry_append, hd, List.append_nil,
        dropEntry_of_notMem (j.job.parameters_notMem_written e)]
    rw [contents_eq_written ht he, Job.contents, Job.entries_of_held he,
      Context.resolveEntries_eq_ok (Context.activeScope_eq_none ht), Except.map_ok, Except.map_ok,
      Value.withoutEntry_ofEntries, hb]

/-- Flattening a job resolves what it writes templated: its entries, or all of it but the section of
its parameters. Where resolving fails, or the job's executor is held no more, flattening fails in
the same way. -/
theorem contents_flattened (j : AnyJob) (held : Held) {ctx t : Context} (h : ctx.flatten = true)
    (ht : t.flatten = false) :
    (j.contents held ctx = do
      let v ← j.job.contents held t
      (j.inner ctx).resolveValue v) ∧
    (j.contents held ctx = do
      let v ← j.contents held t
      (j.inner ctx).resolveValue (v.withoutEntry "parameters")) := by
  have hb : j.contents held ctx = j.job.contents held t >>= (j.inner ctx).resolveValue := by
    rw [contents_eq_inner j held h, Job.contents_eq _ _ _ ht]
  refine ⟨hb, ?_⟩
  rw [hb, ← contents_withoutEntry j held ht]
  cases j.contents held t <;> rfl

/-- A job with references in its container and in its step, and a value supplied for one of them. -/
theorem contents_flattened_deploy :
    let target : Parameter := ⟨"target", ⟨.string, none, none, none⟩, by decide⟩
    let slim : Parameter := ⟨"slim", ⟨.boolean, some (.bool true), none, none⟩, by decide⟩
    let job : Job := {
      name := "deploy"
      executor := ⟨0⟩
      steps := [.run { command := "make << parameters.target >>" }]
      properties := { shell := some "<< parameters.slim >>" }
      named := by decide }
    let j : AnyJob := .parameterized ⟨job, ⟨[target, slim], by decide⟩⟩
    let held := Held.ofList [⟨⟨0⟩, .docker [{ image := "app:<< parameters.target >>" }] none⟩]
    let ctx := Context.flattened.withOverride "target" (.str "docs")
    (ctx.flatten = true ∧ Context.templated.flatten = false) ∧
    (j.contents held ctx = do
      let v ← j.job.contents held .templated
      (j.inner ctx).resolveValue v) ∧
    (j.contents held ctx = do
      let v ← j.contents held .templated
      (j.inner ctx).resolveValue (v.withoutEntry "parameters")) := by
  intro target slim job j held ctx
  exact ⟨⟨rfl, rfl⟩, contents_flattened j held rfl rfl⟩

end AnyJob

end JobConfig

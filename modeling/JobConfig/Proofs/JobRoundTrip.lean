import JobConfig.Project.Load
import JobConfig.Proofs.ParameterRoundTrip
import JobConfig.Proofs.Resolution
import JobConfig.Proofs.StepRoundTrip

/-!
# Loading what a job writes

A job in a reusable executor is written in the form in which definitions of jobs are read: with its
name added, the written job reads as the definition of the job (`AnyJob.read_fields`), its executor
is chosen again as the same reference (`Executor.choose_toReference`), and building gives the job
back (`AnyJob.build_definition`). Together a project that takes the definition in gains the very
job, in a new instance of an equal executor (`Project.addJob_contents`).
-/

namespace JobConfig

/-! ## References to executors -/

namespace Executor

/-- The reference as which a reusable executor is written. -/
def toReference (name : String) (arguments : Dict Literal) : ExecutorReference :=
  if arguments.isEmpty then .name name
  else .invocation (.ofList (("name", .str name) :: arguments.entries))

variable {name : String} {arguments : Dict Literal}

theorem nodup_reference (h : "name" ∉ arguments.keys) : ("name" :: arguments.keys).Nodup :=
  List.nodup_cons.mpr ⟨h, arguments.distinct⟩

theorem entries_invocation (h : "name" ∉ arguments.keys) :
    (Dict.ofList (("name", Literal.str name) :: arguments.entries)).entries =
      ("name", .str name) :: arguments.entries :=
  Dict.entries_foldl_insert _ ∅ (nodup_reference h)

/-- What a reference with arguments says: the executor's name, and then its arguments, of which one
called `name` takes the name's place. -/
def spelledOut (name : String) (arguments : Dict Literal) : Dict Value :=
  .ofList (("name", .str name) :: arguments.entries.map fun a => (a.1, a.2.toValue))

theorem reference_eq_spelledOut (h : arguments.isEmpty = false) :
    reference name arguments = .ofEntries (spelledOut name arguments).entries := by
  simp only [reference, h, Bool.false_eq_true, if_false, spelledOut, Dict.ofList, List.foldl_cons,
    List.foldl_map]

/-- An invocation is written as the name, then the arguments in their order. -/
theorem reference_eq (h : "name" ∉ arguments.keys) (he : arguments.isEmpty = false) :
    reference name arguments =
      .ofEntries ((("name", Literal.str name) :: arguments.entries).map
        fun a => (a.1, a.2.toValue)) := by
  have hd : (entryKeys ((("name", Literal.str name) :: arguments.entries).map
      fun a => (a.1, a.2.toValue))).Nodup := by
    rw [entryKeys_map]
    exact nodup_reference h
  exact (reference_eq_spelledOut he).trans (congrArg _ (Dict.entries_foldl_insert _ ∅ hd))

theorem arguments?_map (es : List (String × Literal)) :
    ExecutorReference.arguments? (es.map fun e => (.str e.1, e.2.toValue)) = some es := by
  induction es with
  | nil => rfl
  | cons e es ih =>
    simp [ExecutorReference.arguments?, Literal.ofValue?_toValue, ih]

theorem hasTagEntries_map (es : List (String × Literal)) :
    Value.hasTagEntries (es.map fun e => (.str e.1, e.2.toValue)) = false := by
  induction es with
  | nil => rfl
  | cons e es ih =>
    have hl : e.2.toValue.hasTag = false := by
      cases e.2 <;> rfl
    simp [Value.hasTagEntries, Value.hasTag, hl, ih]

theorem read_reference (h : "name" ∉ arguments.keys) :
    ExecutorReference.read (reference name arguments) = .ok (toReference name arguments) := by
  cases he : arguments.isEmpty with
  | true =>
    simp only [reference, toReference, he, if_true]
    rfl
  | false =>
    have hs : Source.shape (reference name arguments) = .ok (reference name arguments) := by
      show Value.readShape _ = _
      rw [reference_eq h he]
      simp only [Value.readShape, Value.ofEntries, Value.hasTag, List.map_map]
      exact if_neg (by rw [Function.comp_def, hasTagEntries_map]; decide)
    simp only [ExecutorReference.read, hs, ok_bind]
    simp only [reference_eq h he, toReference, he, Value.ofEntries, ExecutorReference.ofValue?,
      List.map_map, Function.comp_def, arguments?_map]
    rfl

/-- Where no executor of its name is defined, a reference means the executor that was written. -/
theorem choose_toReference (h : "name" ∉ arguments.keys) {defined : Dict HeldExecutor}
    (hd : name ∉ defined.keys) :
    (toReference name arguments).choose defined = .ok (.elsewhere (.reusable name arguments)) := by
  cases he : arguments.isEmpty with
  | true =>
    have hn : defined.get? name = none := valueAt?_eq_none_iff.mpr hd
    have ha : arguments = ∅ := Dict.eq_empty_of_isEmpty he
    have ht : toReference name arguments = .name name := if_pos he
    rw [ht, ha, ExecutorReference.choose, hn]
  | false =>
    have hc : defined.contains name = false := by
      rw [← Bool.not_eq_true, Dict.contains_iff]
      exact hd
    have hg : (Dict.ofList (("name", Literal.str name) :: arguments.entries)).get? "name" =
        some (.str name) := by
      rw [Dict.get?, entries_invocation h]
      rfl
    have hr : (Dict.ofList (("name", Literal.str name) :: arguments.entries)).erase "name" =
        arguments := by
      refine Dict.ext ?_
      rw [Dict.entries_erase, entries_invocation h]
      exact dropEntry_of_notMem h
    simp only [toReference, he, Bool.false_eq_true, if_false, ExecutorReference.choose, hg, hc, hr]

end Executor

/-! ## Definitions of jobs -/

open Fields.Inverts

theorem defaulted_values (name : String) (vs : List Value) :
    (Fields.defaulted name (Source.readList Source.value) []).Inverts [(name, some (.seq vs))] vs :=
  field name <| by
    have hr (v : Value) : Source.value (id v) = .ok v := rfl
    simpa using Value.readList_map hr vs

theorem optional_parallelism (name : String) (o : Option Parallelism) :
    (Fields.optional name Source.parallelism).Inverts
      [(name, o.map fun n => Value.int n.count.toNat)] o :=
  optional name o fun n _ => ⟨nofun, by
    simp [Source.parallelism, Value.readParallelism, Value.untag]⟩

theorem optional_parameters (name : String) (o : Option Parameters) :
    (Fields.optional name (Source.readDict Declaration.read)).Inverts
      [(name, o.map Parameters.contents)] (o.map Parameters.declarations) := by
  cases o with
  | none => exact field name rfl
  | some ps => exact field name (Value.readOptional_eq nofun ps.readDict_contents)

namespace AnyJob

/-- What is written of a job, field by field, with its executor referred to as given. -/
def fields (j : AnyJob) (reference : Value) : List (String × Option Value) := [
  ("executor", some reference),
  ("steps", some (.seq (j.job.steps.map Step.written))),
  ("parallelism", j.job.properties.parallelism.map fun n => .int n.count.toNat),
  ("environment", environmentValue j.job.properties.environment),
  ("shell", j.job.properties.shell.map .str),
  ("working_directory", j.job.properties.workingDirectory.map .str),
  ("parameters", j.parameters?.map Parameters.contents)]

theorem written_eq (j : AnyJob) (name : String) (arguments : Dict Literal) :
    j.written (.reusable name arguments) =
      Value.setFields (j.fields (Executor.reference name arguments)) := by
  have hd : j.declared = Value.setFields [("parameters", j.parameters?.map Parameters.contents)] := by
    unfold declared
    cases j.parameters? <;> rfl
  rw [written, hd, Job.written, JobProperties.written, List.append_assoc, List.cons_append,
    ← Value.setFields_append]
  rfl

/-- A job takes its name on as one more field, the last one. -/
theorem withEntry_written (j : AnyJob) (name : String) (arguments : Dict Literal) :
    (Value.ofEntries (j.written (.reusable name arguments))).withEntry "name" (.str j.name) =
      .record (j.fields (Executor.reference name arguments) ++ [("name", some (.str j.name))]) := by
  have hn : "name" ∉ entryKeys (Value.setFields (j.fields (Executor.reference name arguments))) :=
    fun h => absurd ((Value.entryKeys_setFields_sublist _).subset h) (by simp [fields, entryKeys])
  rw [written_eq, Value.withEntry_ofEntries, setEntry_of_notMem _ hn, Value.record,
    Value.setFields_append]
  rfl

/-- The definition of a job, whose executor is referred to as given. -/
def definition (j : AnyJob) (reference : ExecutorReference) : JobDefinition where
  name := j.name
  executor := reference
  steps := j.job.steps.map Step.written
  parameters := j.parameters?.map Parameters.declarations
  parallelism := j.job.properties.parallelism
  environment := j.job.properties.environment
  shell := j.job.properties.shell
  workingDirectory := j.job.properties.workingDirectory

theorem inverts_definition {j : AnyJob} {v : Value} {reference : ExecutorReference}
    (hr : ExecutorReference.read v = .ok reference) :
    JobDefinition.fields.Inverts [
      ("name", some (.str j.name)),
      ("executor", some v),
      ("steps", some (.seq (j.job.steps.map Step.written))),
      ("parameters", j.parameters?.map Parameters.contents),
      ("parallelism", j.job.properties.parallelism.map fun n => .int n.count.toNat),
      ("environment", environmentValue j.job.properties.environment),
      ("shell", j.job.properties.shell.map .str),
      ("working_directory", j.job.properties.workingDirectory.map .str)]
      (j.definition reference) :=
  required_str "name" j.name |>.map JobDefinition.mk
    |>.and (.required "executor" hr)
    |>.and (defaulted_values "steps" (j.job.steps.map Step.written))
    |>.and (optional_parameters "parameters" j.parameters?)
    |>.and (optional_parallelism "parallelism" j.job.properties.parallelism)
    |>.and (defaulted_environment "environment" j.job.properties.environment)
    |>.and (.optional_str "shell" j.job.properties.shell)
    |>.and (.optional_str "working_directory" j.job.properties.workingDirectory)

/-- What is written of a job reads as its definition. -/
theorem read_fields {j : AnyJob} {v : Value} {reference : ExecutorReference}
    (hr : ExecutorReference.read v = .ok reference) :
    JobDefinition.read (Value.record (j.fields v ++ [("name", some (.str j.name))])) =
      .ok (j.definition reference) := by
  refine (inverts_definition hr).read_written _ _ ?_ ?_ ?_
  · simp [fields]
  · simp [fields, JobDefinition.fields, Fields.and, Fields.map, Fields.required, Fields.field,
      Fields.optional, Fields.defaulted]
  · simp [fields]

/-! ## Building -/

/-- The same job in another executor. -/
def inExecutor (j : AnyJob) (h : Handle) : AnyJob :=
  j.modify fun b => { b with executor := h }

end AnyJob

namespace JobDefinition

theorem buildSteps_written (path : String) (i : Nat) (steps : List Step) :
    buildSteps path i (steps.map Step.written) = .ok steps := by
  induction steps generalizing i with
  | nil => rfl
  | cons s steps ih => simp [buildSteps, s.ofValue_written, Except.mapError, ih]

theorem buildParameters_declarations (ps : Parameters) :
    buildParameters ps.declarations = .ok ps := by
  simp only [buildParameters, Parameters.declarations, Parameters.mapM_declare, ok_bind,
    Parameters.ofList_items]

end JobDefinition

/-- The definition of a job builds the job, whatever its executor is called. -/
theorem AnyJob.build_definition (j : AnyJob) (reference : ExecutorReference) (path : String)
    (h : Handle) : (j.definition reference).build path h = .ok (j.inExecutor h) := by
  have hj : Job.withProperties j.name h j.job.steps j.job.properties =
      .ok { j.job with executor := h } :=
    dif_pos j.job.named
  simp only [JobDefinition.build, definition, JobDefinition.buildSteps_written, ok_bind,
    JobDefinition.properties, hj, Except.mapError]
  cases j with
  | plain j => rfl
  | parameterized j =>
    simp only [parameters?, Option.map_some, JobDefinition.buildParameters_declarations, ok_bind]
    rfl

/-! ## Holding executors -/

theorem Handle.number_lt_fresh {es : List HeldExecutor} {e : HeldExecutor} (h : e ∈ es) :
    e.handle.number < (Handle.fresh es).number := by
  induction es with
  | nil => cases h
  | cons e' es ih =>
    show _ < max (e'.handle.number + 1) (fresh es).number
    rcases List.mem_cons.mp h with rfl | h
    · omega
    · have := ih h
      omega

/-- A new instance is held beside those that are there. -/
theorem Held.ofList_fresh (es : List HeldExecutor) (e : Executor) :
    Held.ofList (es ++ [⟨.fresh es, e⟩]) (.fresh es) = some e := by
  have hf : es.find? (fun e => e.handle = Handle.fresh es) = none :=
    List.find?_eq_none.mpr fun e he heq =>
      Nat.ne_of_lt (Handle.number_lt_fresh he) (congrArg Handle.number (of_decide_eq_true heq))
  simp [ofList, List.find?_append, hf]

namespace Project

/-- A project takes what a job in a reusable executor writes, with the job's name added, in as a
definition of the same job, in a new instance of the same executor. -/
theorem addJob_contents (p : Project) (path : String) {j : AnyJob} {held : Held} {ctx : Context}
    {name : String} {arguments : Dict Literal} (hctx : ctx.flatten = false)
    (he : held j.job.executor = some (.reusable name arguments)) (ha : "name" ∉ arguments.keys)
    (hp : name ∉ p.executors.keys) :
    ∃ v d p' h, j.contents held ctx = .ok v ∧
      JobDefinition.read (v.withEntry "name" (.str j.name)) = .ok d ∧
      p.addJob path d = .ok p' ∧
      p' = { p with
        references := p.references ++ [⟨h, .reusable name arguments⟩]
        jobs := p.jobs ++ [j.inExecutor h] } ∧
      p'.held h = some (.reusable name arguments) := by
  refine ⟨.ofEntries (j.written (.reusable name arguments)),
    j.definition (Executor.toReference name arguments), _, .fresh p.holdings,
    AnyJob.contents_eq_written hctx he, ?_, ?_, rfl, ?_⟩
  · rw [AnyJob.withEntry_written, AnyJob.read_fields (Executor.read_reference ha)]
  · have hc : ((j.definition (Executor.toReference name arguments)).executor.choose
        p.executors).mapError (LoadError.conflict path) =
        .ok (.elsewhere (.reusable name arguments)) :=
      congrArg (Except.mapError _) (Executor.choose_toReference ha hp)
    simp only [addJob, hc, ok_bind, refer, AnyJob.build_definition]
    rfl
  · have hh := Held.ofList_fresh p.holdings (.reusable name arguments)
    rw [holdings, List.append_assoc] at hh
    exact hh

/-- A job with a parameter, in an executor with arguments, and a project that defines another. -/
theorem addJob_contents_deploy :
    let arguments : Dict Literal := .ofList [("version", .str "20.1"), ("slim", .bool true)]
    let target : Parameter :=
      ⟨"target", ⟨.enum, some (.str "all"), none, some ["all", "docs"]⟩, by decide⟩
    let job : Job := {
      name := "deploy"
      executor := ⟨4⟩
      steps := [.checkout {}, .run { command := "make << parameters.target >>" }]
      properties := { environment := .ofList [("CC", "")], shell := some "bash" }
      named := by decide }
    let j : AnyJob := .parameterized ⟨job, ⟨[target], by decide⟩⟩
    let held := Held.ofList [⟨⟨4⟩, .reusable "node" arguments⟩]
    let p := Project.empty.define "linux" (.macos ⟨"15.0"⟩ none)
    (Context.templated.flatten = false ∧
      held j.job.executor = some (.reusable "node" arguments) ∧
      "name" ∉ arguments.keys ∧ "node" ∉ p.executors.keys) ∧
    ∃ v d p' h, j.contents held .templated = .ok v ∧
      JobDefinition.read (v.withEntry "name" (.str j.name)) = .ok d ∧
      p.addJob "deploy.yml" d = .ok p' ∧
      p' = { p with
        references := p.references ++ [⟨h, .reusable "node" arguments⟩]
        jobs := p.jobs ++ [j.inExecutor h] } ∧
      p'.held h = some (.reusable "node" arguments) :=
  have ha : "name" ∉ (Dict.ofList [("version", Literal.str "20.1"), ("slim", .bool true)]).keys := by
    decide
  have hp : "node" ∉ (Project.empty.define "linux" (.macos ⟨"15.0"⟩ none)).executors.keys := by
    decide
  ⟨⟨rfl, rfl, ha, hp⟩, addJob_contents _ _ rfl rfl ha hp⟩

end Project

end JobConfig

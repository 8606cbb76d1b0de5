import JobConfig.Proofs.Dependence
import JobConfig.Proofs.TextFields

/-!
# The types of a job's fields

A document has a type for each field of a job: variables, the shell and the working directory are
texts, and the steps are in the form that steps are read from (`Value.KeepsFieldTypes`). A flattened
job has them exactly if no text of these fields is nothing but a reference to a flag or to an integer
(`ParameterizedJob.keepsFieldTypes_iff`); where one is, the number or the flag itself takes the place
of a text (`ParameterizedJob.not_keepsFieldTypes_retries`).
-/

namespace JobConfig

/-! ## Field types -/

namespace Value

/-- What a mapping has under a name. -/
def member? (name : String) : Value → Option Value
  | .map es => (es.find? fun e => same e.1 (.str name)).map Prod.snd
  | _ => none

def IsText (v : Value) : Prop :=
  ∃ text, v = .str text

/-- Names with texts. -/
def AreVariables (v : Value) : Prop :=
  ∃ es, v = ofEntries es ∧ ∀ e ∈ es, e.2.IsText

/-- A sequence of what can be read as a step. -/
def AreSteps (v : Value) : Prop :=
  ∃ items, v = .seq items ∧ ∀ i ∈ items, ∃ s, Step.ofValue i = .ok s

/-- The fields of a job have the types that a document asks for. -/
structure KeepsFieldTypes (v : Value) : Prop where
  environment : ∀ w, v.member? "environment" = some w → w.AreVariables
  shell : ∀ w, v.member? "shell" = some w → w.IsText
  workingDirectory : ∀ w, v.member? "working_directory" = some w → w.IsText
  steps : ∀ w, v.member? "steps" = some w → w.AreSteps

theorem member?_ofEntries (name : String) (es : List (String × Value)) :
    (ofEntries es).member? name = valueAt? name es := by
  simp only [ofEntries, member?]
  induction es with
  | nil => rfl
  | cons e es ih =>
    by_cases h : e.1 = name
    · simp [valueAt?, same, h]
    · simpa [valueAt?, same, h] using ih

theorem ofEntries_injective : Function.Injective ofEntries := by
  intro es fs h
  refine List.map_injective_iff.mpr ?_ (Value.map.inj h)
  rintro ⟨k, v⟩ ⟨k', v'⟩ he
  cases he
  rfl

end Value

namespace ParameterType

/-- The values of the type are texts. -/
def isText : ParameterType → Bool
  | .boolean => false
  | .integer => false
  | _ => true

theorem isText_iff {t : ParameterType} {l : Literal} (h : t.accepts l = true) :
    t.isText = true ↔ ∃ given, l = .str given := by
  cases t <;> cases l <;> simp_all [accepts, isText]

end ParameterType

/-! ## Resolved fields -/

namespace Value

variable {ε : Type} {lookup : String → Except ε Literal}

/-- What `v` is resolved to is of the type `p` exactly if the texts of `v` stay texts. -/
def KeepsType (lookup : String → Except ε Literal) (p : Value → Prop) (v : Value) : Prop :=
  ∀ w, v.resolve lookup = .ok w → (p w ↔ v.StaysText lookup)

theorem keepsType_str (o : Option String) : ∀ v ∈ o.map str, KeepsType lookup IsText v := by
  intro v hv w h
  obtain ⟨text, -, rfl⟩ := Option.map_eq_some_iff.mp hv
  exact resolveText_eq_str_iff h

theorem keepsType_variables (d : Dict String) :
    ∀ v ∈ environmentValue d, KeepsType lookup AreVariables v := by
  intro v hv w h
  unfold environmentValue at hv
  split at hv
  · cases hv
  · cases hv
    obtain ⟨fs, rfl, hfs⟩ := resolve_ofEntries h
    have hf : (∀ f ∈ fs, f.2.IsText) ↔ ∀ e ∈ (d.map str).entries, e.2.StaysText lookup := by
      refine forall_mem_iff_of_forall₂ hfs fun e he f hef => ?_
      obtain ⟨x, -, rfl⟩ := List.mem_map.mp he
      exact resolveText_eq_str_iff hef.2
    rw [staysText_ofEntries, ← hf]
    constructor
    · rintro ⟨es, he, ht⟩
      rwa [ofEntries_injective he]
    · exact fun ht => ⟨fs, rfl, ht⟩

theorem keepsType_steps (steps : List Step) :
    ∀ v ∈ some (seq (steps.map Step.written)), KeepsType lookup AreSteps v := by
  rintro _ ⟨⟩ w h
  obtain ⟨ws, hws, hw⟩ := bind_eq_ok.mp h
  cases hw
  have hi : (∀ i ∈ ws, ∃ s, Step.ofValue i = .ok s) ↔
      ∀ v ∈ steps.map Step.written, v.StaysText lookup := by
    refine forall_mem_iff_of_forall₂ (resolveItems_eq_ok.mp hws) fun v hv w hvw => ?_
    obtain ⟨s, -, rfl⟩ := List.mem_map.mp hv
    exact s.ofValue_resolve_iff hvw
  rw [staysText_seq, ← hi]
  constructor
  · rintro ⟨items, he, ht⟩
    cases he
    exact ht
  · exact fun ht => ⟨ws, rfl, ht⟩

/-- An entry of a mapping is of its type after resolving exactly if its texts stay texts, or if there
is none. -/
theorem forall_member_iff {es fs : List (String × Value)} {name : String} {o : Option Value}
    {p : Value → Prop} (h : List.Forall₂ (ResolvedTo lookup) es fs) (ho : valueAt? name es = o)
    (hp : ∀ v ∈ o, KeepsType lookup p v) :
    (∀ w, (ofEntries fs).member? name = some w → p w) ↔ ∀ v ∈ o, v.StaysText lookup := by
  have hr := valueAt?_of_resolved h name
  rw [ho] at hr
  rw [member?_ofEntries]
  generalize valueAt? name fs = o' at hr
  cases hr with
  | none => simp
  | some hw =>
    simp only [Option.mem_some, Option.some.injEq, forall_eq'] at hp ⊢
    exact hp _ hw

end Value

/-! ## Jobs -/

namespace Job

/-- The texts of these fields. -/
def fieldTexts (j : Job) : List String :=
  (Value.record j.fields).texts

variable {ε : Type} {lookup : String → Except ε Literal}

/-- A field of a job is of a type after resolving exactly if the texts of what was written for it
stay texts. -/
theorem forall_member_iff (j : Job) {e : Executor} {fs : List (String × Value)} {name : String}
    {o : Option Value} {p : Value → Prop}
    (h : List.Forall₂ (Value.ResolvedTo lookup) (j.written e) fs)
    (hn : name ∉ ["docker", "machine", "macos", "executor", "resource_class"])
    (ho : (valueAt? name j.fields).join = o) (hp : ∀ v ∈ o, Value.KeepsType lookup p v) :
    (∀ w, (Value.ofEntries fs).member? name = some w → p w) ↔ ∀ v ∈ o, v.StaysText lookup :=
  Value.forall_member_iff h ((j.valueAt?_written e hn).trans ho) hp

/-- The fields of a resolved job keep their types exactly if its texts stay texts. -/
theorem keepsFieldTypes_resolved_iff (j : Job) {e : Executor} {fs : List (String × Value)}
    (h : List.Forall₂ (Value.ResolvedTo lookup) (j.written e) fs) :
    (Value.ofEntries fs).KeepsFieldTypes ↔ (Value.record j.fields).StaysText lookup := by
  have hpar : ∀ v ∈ j.properties.parallelism.map fun n => Value.int n.count.toNat,
      v.StaysText lookup := by
    intro v hv
    obtain ⟨n, -, rfl⟩ := Option.map_eq_some_iff.mp hv
    exact nofun
  have he : (∀ w, (Value.ofEntries fs).member? "environment" = some w → w.AreVariables) ↔
      ∀ v ∈ environmentValue j.properties.environment, v.StaysText lookup :=
    j.forall_member_iff h (by decide) (by simp [fields, valueAt?]) (Value.keepsType_variables _)
  have hs : (∀ w, (Value.ofEntries fs).member? "shell" = some w → w.IsText) ↔
      ∀ v ∈ j.properties.shell.map Value.str, v.StaysText lookup :=
    j.forall_member_iff h (by decide) (by simp [fields, valueAt?]) (Value.keepsType_str _)
  have hd : (∀ w, (Value.ofEntries fs).member? "working_directory" = some w → w.IsText) ↔
      ∀ v ∈ j.properties.workingDirectory.map Value.str, v.StaysText lookup :=
    j.forall_member_iff h (by decide) (by simp [fields, valueAt?]) (Value.keepsType_str _)
  have ht : (∀ w, (Value.ofEntries fs).member? "steps" = some w → w.AreSteps) ↔
      ∀ v ∈ some (Value.seq (j.steps.map Step.written)), v.StaysText lookup :=
    j.forall_member_iff h (by decide) (by simp [fields, valueAt?]) (Value.keepsType_steps _)
  have hf : (Value.record j.fields).StaysText lookup ↔
      ∀ f ∈ j.fields, ∀ v ∈ f.2, v.StaysText lookup :=
    Value.staysText_ofEntries.trans Value.forall_mem_setFields
  rw [hf]
  simp only [fields, List.forall_mem_cons, List.not_mem_nil, false_implies, implies_true, and_true]
  rw [and_iff_right hpar, ← he, ← hs, ← hd, ← ht]
  constructor
  · intro hk
    exact ⟨hk.steps, hk.environment, hk.shell, hk.workingDirectory⟩
  · rintro ⟨ht, he, hs, hd⟩
    exact ⟨he, hs, hd, ht⟩

theorem mem_references {j : Job} {held : Held} {e : Executor} {text name : String}
    (he : held j.executor = some e) (ht : text ∈ j.fieldTexts)
    (hn : name ∈ Template.references text) : name ∈ j.references held := by
  have hm : text ∈ (Value.ofEntries (j.written e)).texts := by
    rw [fieldTexts, Value.record, Value.ofEntries, Value.texts_map] at ht
    rw [written_eq_append, Value.ofEntries, Value.texts_map, List.map_append, List.flatMap_append]
    exact List.mem_append_right _ ht
  rw [references_of_held he, Value.references]
  exact List.mem_flatMap.mpr ⟨text, hm, hn⟩

end Job

namespace ParameterizedJob

/-- A reference of a job that can be flattened stands for a text exactly if its parameter's values
are texts. -/
theorem staysText_fields_iff {j : ParameterizedJob} {held : Held} {e : Executor} {ctx : Context}
    {v : Value} (h : ctx.flatten = true) (he : held j.job.executor = some e)
    (hv : j.contents held ctx = .ok v) :
    (Value.record j.job.fields).StaysText (ctx.lookup j.parameters) ↔
      ∀ text ∈ j.job.fieldTexts, ∀ name p, Template.soleReference? text = some name →
        j.parameters.get? name = some p → p.type.isText = true := by
  constructor
  · intro hst text ht name p hs hp
    have hn : name ∈ Template.references text := by
      simp [Template.references_of_soleReference? hs]
    obtain ⟨l, hl⟩ := exists_lookup_of_contents h hv (Job.mem_references he ht hn)
    obtain ⟨q, hq, hr, -⟩ := Context.lookup_eq_ok_iff.mp hl
    have hpq : p = q := Option.some.inj (hp.symm.trans hq)
    subst hpq
    exact (ParameterType.isText_iff (Parameter.reject?_eq_none_iff.mp hr).1).mpr
      (hst text ht name l hs hl)
  · intro hall text ht name l hs hl
    obtain ⟨p, hp, hr, -⟩ := Context.lookup_eq_ok_iff.mp hl
    exact (ParameterType.isText_iff (Parameter.reject?_eq_none_iff.mp hr).1).mp
      (hall text ht name p hs hp)

/-- The fields of a flattened job keep their types exactly if every text of them that is one
reference and no more refers to a parameter whose values are texts. -/
theorem keepsFieldTypes_iff (j : ParameterizedJob) {held : Held} {ctx : Context} {v : Value}
    (h : ctx.flatten = true) (hv : j.contents held ctx = .ok v) :
    v.KeepsFieldTypes ↔
      ∀ text ∈ j.job.fieldTexts, ∀ name p, Template.soleReference? text = some name →
        j.parameters.get? name = some p → p.type.isText = true := by
  have hc := hv
  rw [contents_of_flatten j held h] at hc
  cases he : held j.job.executor with
  | none =>
    rw [Job.contents_of_dropped he] at hc
    cases hc
  | some e =>
    rw [Job.contents_of_held he (Context.activeScope_withScope h j.parameters)] at hc
    obtain ⟨fs, rfl, hfs⟩ := Value.resolve_ofEntries hc
    have hst := staysText_fields_iff h he hv
    exact (j.job.keepsFieldTypes_resolved_iff hfs).trans hst

/-- A variable that is a reference to an integer becomes the integer, in the job and in its step,
and the step is not one any more. -/
theorem not_keepsFieldTypes_retries :
    let retries : Parameter := ⟨"retries", ⟨.integer, some (.int 3), none, none⟩, by decide⟩
    let vars : Dict String := .ofList [("RETRIES", "<< parameters.retries >>")]
    let job : Job := {
      name := "build"
      executor := ⟨0⟩
      steps := [.run { command := "make", environment := vars }]
      properties := { environment := vars }
      named := by decide }
    let j : ParameterizedJob := ⟨job, ⟨[retries], by decide⟩⟩
    let held := Held.ofList [⟨⟨0⟩, .reusable "node" ∅⟩]
    let resolved := Value.ofEntries [("RETRIES", .int 3)]
    let step := Value.keyed "run" (.ofEntries [("command", .str "make"), ("environment", resolved)])
    j.contents held .flattened = .ok (.ofEntries [
      ("executor", .str "node"), ("steps", .seq [step]), ("environment", resolved)]) ∧
    (∃ cause, Step.ofValue step = .error cause) ∧
    ¬ (Value.ofEntries [("executor", .str "node"), ("steps", .seq [step]),
      ("environment", resolved)]).KeepsFieldTypes := by
  intro retries vars job j held resolved step
  refine ⟨by decide +kernel, ⟨_, rfl⟩, fun hk => ?_⟩
  obtain ⟨es, he, ht⟩ := hk.environment resolved rfl
  rw [← Value.ofEntries_injective he, List.forall_mem_singleton] at ht
  obtain ⟨text, ht⟩ := ht
  cases ht

/-- References to texts and references within texts do no harm, and the reference to a flag is one
in the executor. -/
theorem keepsFieldTypes_iff_deploy :
    let target : Parameter :=
      ⟨"target", ⟨.enum, some (.str "all"), none, some ["all", "docs"]⟩, by decide⟩
    let retries : Parameter := ⟨"retries", ⟨.integer, some (.int 3), none, none⟩, by decide⟩
    let cache : Parameter := ⟨"cache", ⟨.boolean, some (.bool true), none, none⟩, by decide⟩
    let job : Job := {
      name := "deploy"
      executor := ⟨0⟩
      steps := [.run { command := "make -j<< parameters.retries >>" }]
      properties := { workingDirectory := some "<< parameters.target >>" }
      named := by decide }
    let j : ParameterizedJob := ⟨job, ⟨[target, retries, cache], by decide⟩⟩
    let held := Held.ofList
      [⟨⟨0⟩, .reusable "node" (.ofList [("cache", .str "<< parameters.cache >>")])⟩]
    let v := Value.ofEntries [
      ("executor", .ofEntries [("name", .str "node"), ("cache", .bool true)]),
      ("steps", .seq [.keyed "run" (.ofEntries [("command", .str "make -j3")])]),
      ("working_directory", .str "all")]
    (Context.flattened.flatten = true ∧ j.contents held .flattened = .ok v) ∧
      v.KeepsFieldTypes := by
  intro target retries cache job j held v
  have hv : j.contents held .flattened = .ok v := by decide +kernel
  have ht : j.job.fieldTexts = ["make -j<< parameters.retries >>", "<< parameters.target >>"] := by
    decide +kernel
  refine ⟨⟨rfl, hv⟩, (keepsFieldTypes_iff j rfl hv).mpr fun text hm name p hs hp => ?_⟩
  have hn : Template.soleReference? "make -j<< parameters.retries >>" = none := by decide +kernel
  have ht' : Template.soleReference? "<< parameters.target >>" = some "target" := by decide +kernel
  have hp' : j.parameters.get? "target" = some target := by decide
  simp only [ht, List.mem_cons, List.not_mem_nil, or_false] at hm
  rcases hm with rfl | rfl
  · rw [hn] at hs
    cases hs
  · rw [ht'] at hs
    cases hs
    rw [hp'] at hp
    cases hp
    rfl

end ParameterizedJob

end JobConfig

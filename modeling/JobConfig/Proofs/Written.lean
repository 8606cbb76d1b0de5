import JobConfig.Proofs.Entries
import JobConfig.Proofs.Resolution

/-!
# The grammar of what is written

Parameters, steps, executors and jobs are written with flags, integers, texts, sequences, and
mappings with texts for keys (`Value.Simple`): there is no null in them, no float and no tag. So it
is with each of the eight kinds of steps (`Step.simple_written`) and of the four kinds of executors
(`Executor.simple_written`), and with a job as a whole (`Job.simple_written`). Resolving stays in
this grammar (`Value.Simple.of_resolve`).
-/

namespace JobConfig

/-! ## The grammar -/

namespace Value

/-- A value of flags, integers and texts, in sequences and in mappings with texts for keys. -/
inductive Simple : Value → Prop where
  | bool (b : Bool) : Simple (.bool b)
  | int (n : Int) : Simple (.int n)
  | str (text : String) : Simple (.str text)
  | seq {items : List Value} (h : ∀ v ∈ items, Simple v) : Simple (.seq items)
  | map {es : List (String × Value)} (h : ∀ e ∈ es, Simple e.2) :
    Simple (.map (es.map fun e => (.str e.1, e.2)))

attribute [simp] Simple.bool Simple.int Simple.str

namespace Simple

theorem ofEntries {es : List (String × Value)} (h : ∀ e ∈ es, e.2.Simple) :
    (Value.ofEntries es).Simple :=
  .map h

theorem keyed {v : Value} (h : v.Simple) (name : String) : (Value.keyed name v).Simple := by
  have hs : ∀ e ∈ [(name, v)], e.2.Simple := by simpa using h
  exact .ofEntries hs

theorem seqMap {α : Type} {write : α → Value} (h : ∀ a, (write a).Simple) (as : List α) :
    (Value.seq (as.map write)).Simple :=
  .seq fun v hv => by
    obtain ⟨a, -, rfl⟩ := List.mem_map.mp hv
    exact h a

@[simp] theorem strs (texts : List String) : (Value.strs texts).Simple :=
  seqMap .str texts

end Simple

/-- What is written for a field is simple, if anything is. -/
def SimpleField (f : String × Option Value) : Prop :=
  ∀ v ∈ f.2, v.Simple

@[simp] theorem simpleField_some (name : String) (v : Value) :
    SimpleField (name, some v) ↔ v.Simple := by
  simp [SimpleField]

@[simp] theorem simpleField_map {α : Type} (name : String) {write : α → Value}
    (h : ∀ a, (write a).Simple) (o : Option α) : SimpleField (name, o.map write) := by
  rintro v hv
  obtain ⟨a, -, rfl⟩ := Option.map_eq_some_iff.mp hv
  exact h a

@[simp] theorem simpleField_environment (name : String) (environment : Dict String) :
    SimpleField (name, environmentValue environment) := by
  intro v hv
  simp only [environmentValue] at hv
  split at hv
  · cases hv
  · cases hv
    exact .ofEntries fun e he => by
      obtain ⟨a, -, rfl⟩ := List.mem_map.mp he
      exact .str a.2

theorem isSome_environmentValue (environment : Dict String) :
    (environmentValue environment).isSome = !environment.isEmpty := by
  unfold environmentValue
  cases environment.isEmpty <;> rfl

theorem simple_setFields {fields : List (String × Option Value)}
    (h : ∀ f ∈ fields, SimpleField f) : ∀ e ∈ setFields fields, e.2.Simple :=
  forall_mem_setFields.mpr h

theorem simple_record {fields : List (String × Option Value)} (h : ∀ f ∈ fields, SimpleField f) :
    (Value.record fields).Simple :=
  .ofEntries (simple_setFields h)

end Value

open Value

/-! ## Resolving -/

theorem Literal.simple_toValue (l : Literal) : l.toValue.Simple := by
  cases l <;> simp [toValue]

section Resolving

variable {ε : Type} {lookup : String → Except ε Literal}

theorem Value.simple_resolveText {text : String} {w : Value}
    (h : resolveText lookup text = .ok w) : w.Simple := by
  unfold resolveText at h
  split at h
  · obtain ⟨l, -, rfl⟩ := map_eq_ok.mp h
    exact l.simple_toValue
  · obtain ⟨o, -, hw⟩ := bind_eq_ok.mp h
    cases hw
    exact .str _

/-- Resolving stays in the grammar: what is put in place of a text is a flag, an integer or a
text. -/
theorem Value.Simple.of_resolve {v w : Value} (hv : v.Simple) (h : v.resolve lookup = .ok w) :
    w.Simple := by
  induction hv generalizing w with
  | bool b =>
    cases h
    exact .bool b
  | int n =>
    cases h
    exact .int n
  | str text => exact simple_resolveText h
  | seq _ ih =>
    obtain ⟨ws, hws, hw⟩ := bind_eq_ok.mp h
    cases hw
    refine .seq fun w hw => ?_
    obtain ⟨v, hv, hr⟩ := exists_of_mem_forall₂ (resolveItems_eq_ok.mp hws) hw
    exact ih v hv hr
  | map _ ih =>
    obtain ⟨fs, rfl, hfs⟩ := resolve_ofEntries h
    refine .ofEntries fun f hf => ?_
    obtain ⟨e, he, hr⟩ := exists_of_mem_forall₂ hfs hf
    exact ih e he hr.2

theorem Value.Simple.of_resolveValue {ctx : Context} {v w : Value} (hv : v.Simple)
    (h : ctx.resolveValue v = .ok w) : w.Simple := by
  rcases Context.resolve_of_resolveValue h with rfl | ⟨ps, h⟩
  · exact hv
  · exact hv.of_resolve h

end Resolving

/-! ## Parameters -/

theorem Declaration.simple_toValue (d : Declaration) : d.toValue.Simple :=
  simple_record (by simp [Literal.simple_toValue])

theorem Parameters.simple_contents (ps : Parameters) : ps.contents.Simple := by
  refine .ofEntries fun e he => ?_
  obtain ⟨p, -, rfl⟩ := List.mem_map.mp he
  exact p.declaration.simple_toValue

/-! ## Steps -/

theorem RunWhen.simple_toValue (w : RunWhen) : w.toValue.Simple :=
  .str w.name

theorem Step.simple_entries (s : Step) : ∀ e ∈ s.entries, e.2.Simple := by
  cases s with
  | checkout s => exact simple_setFields (by simp)
  | run s => exact simple_setFields (by simp [RunWhen.simple_toValue])
  | saveCache s => exact simple_setFields (by simp [RunWhen.simple_toValue])
  | restoreCache s => exact simple_setFields (by simp)
  | persistToWorkspace s => exact simple_setFields (by simp)
  | attachWorkspace s => exact simple_setFields (by simp)
  | storeArtifacts s => exact simple_setFields (by simp)
  | storeTestResults s => exact simple_setFields (by simp)

theorem Step.simple_written (s : Step) : s.written.Simple := by
  unfold written
  split
  · exact .str s.kind
  · exact (Simple.ofEntries s.simple_entries).keyed s.kind

/-! ## Executors -/

theorem DockerImage.simple_toValue (i : DockerImage) : i.toValue.Simple :=
  simple_record (by simp)

theorem Executor.simple_reference (name : String) (arguments : Dict Literal) :
    (reference name arguments).Simple := by
  unfold reference
  split
  · exact .str name
  · refine .ofEntries (Dict.forall_foldl_insert _ (fun a _ => a.2.simple_toValue) ?_)
    exact fun e he => by
      rw [List.mem_singleton.mp he]
      exact .str name

theorem Executor.simple_written (x : Executor) : ∀ e ∈ x.written, e.2.Simple := by
  have hd : x.description.2.Simple := by
    cases x with
    | docker images c => exact Simple.seqMap DockerImage.simple_toValue images
    | machine m c => exact simple_record (by simp)
    | macos m c => exact simple_record (by simp)
    | reusable name arguments => exact simple_reference name arguments
  intro e he
  rcases List.mem_cons.mp he with rfl | he
  · exact hd
  · obtain ⟨c, -, rfl⟩ := Option.map_eq_some_iff.mp (Option.mem_toList.mp he)
    exact .str c

/-! ## Jobs -/

theorem Job.simple_written (j : Job) (x : Executor) : ∀ e ∈ j.written x, e.2.Simple := by
  have hp : ∀ e ∈ j.properties.written, e.2.Simple := simple_setFields (by simp)
  intro e he
  rcases List.mem_append.mp he with he | he
  · exact x.simple_written e he
  rcases List.mem_cons.mp he with rfl | he
  · exact Simple.seqMap Step.simple_written j.steps
  · exact hp e he

theorem Job.simple_contents {j : Job} {held : Held} {ctx : Context} {v : Value}
    (h : ctx.flatten = false) (hv : j.contents held ctx = .ok v) : v.Simple := by
  obtain ⟨es, hes, rfl⟩ := map_eq_ok.mp hv
  cases he : held j.executor with
  | none =>
    rw [entries_of_dropped he] at hes
    cases hes
  | some x =>
    rw [entries_of_held he, Context.resolveEntries_eq_ok (Context.activeScope_eq_none h)] at hes
    cases hes
    exact .ofEntries (j.simple_written x)

end JobConfig

import JobConfig.Proofs.Records
import JobConfig.Proofs.Resolution

/-!
# Reading steps back

Each kind of step reads its settings back from the fields that it writes (`RunStep.read_entries` and
its like), whichever of them are set. So a step is read back from its written form, the bare kind
included (`Step.ofValue_written`), and what is generated of it without resolving references tells
which step it was (`Step.ofValue_contents`).
-/

namespace JobConfig

/-- Variables that are written, or not written at all for want of any, are read back. -/
theorem readDict_environment (environment : Dict String) :
    (environmentValue environment).elim (.ok ∅) (Source.readDict Source.str) = .ok environment := by
  unfold environmentValue
  split
  · rename_i h
    exact congrArg _ (Dict.eq_empty_of_isEmpty h).symm
  · exact Value.readDict_map environment fun _ _ => rfl

theorem RunWhen.read_toValue (w : RunWhen) : RunWhen.read w.toValue = .ok w := by
  cases w <;> rfl

/-! ## Settings -/

open Fields.Inverts

theorem optional_runWhen (name : String) (o : Option RunWhen) :
    (Fields.optional name RunWhen.read).Inverts [(name, o.map RunWhen.toValue)] o :=
  optional name o fun w _ => ⟨nofun, RunWhen.read_toValue w⟩

theorem defaulted_environment (name : String) (d : Dict String) :
    (Fields.defaulted name (Source.readDict Source.str) ∅).Inverts [(name, environmentValue d)] d :=
  field name (readDict_environment d)

theorem CheckoutStep.read_entries (s : CheckoutStep) :
    CheckoutStep.fields.read "CheckoutParameters" true (Value.ofEntries s.entries) = .ok s :=
  optional_str "path" s.path |>.map CheckoutStep.mk
    |>.read_record _ _

theorem RunStep.read_entries (s : RunStep) :
    RunStep.fields.read "RunParameters" true (Value.ofEntries s.entries) = .ok s :=
  required_str "command" s.command |>.map RunStep.mk
    |>.and (.optional_str "name" s.name)
    |>.and (.optional_str "shell" s.shell)
    |>.and (defaulted_environment "environment" s.environment)
    |>.and (.optional_bool "background" s.background)
    |>.and (.optional_str "working_directory" s.workingDirectory)
    |>.and (.optional_str "no_output_timeout" s.noOutputTimeout)
    |>.and (optional_runWhen "when" s.runWhen)
    |>.read_record _ _

theorem SaveCacheStep.read_entries (s : SaveCacheStep) :
    SaveCacheStep.fields.read "SaveCacheParameters" true (Value.ofEntries s.entries) = .ok s :=
  required_str "key" s.key |>.map SaveCacheStep.mk
    |>.and (.required_strs "paths" s.paths)
    |>.and (.optional_str "name" s.name)
    |>.and (optional_runWhen "when" s.runWhen)
    |>.read_record _ _

theorem RestoreCacheStep.read_entries (s : RestoreCacheStep) :
    RestoreCacheStep.fields.read "RestoreCacheParameters" true (Value.ofEntries s.entries) =
      .ok s :=
  required_strs "keys" s.keys |>.map RestoreCacheStep.mk
    |>.and (.optional_str "name" s.name)
    |>.read_record _ _

theorem PersistToWorkspaceStep.read_entries (s : PersistToWorkspaceStep) :
    PersistToWorkspaceStep.fields.read "PersistToWorkspaceParameters" true
      (Value.ofEntries s.entries) = .ok s :=
  required_str "root" s.root |>.map PersistToWorkspaceStep.mk
    |>.and (.required_strs "paths" s.paths)
    |>.read_record _ _

theorem AttachWorkspaceStep.read_entries (s : AttachWorkspaceStep) :
    AttachWorkspaceStep.fields.read "AttachWorkspaceParameters" true (Value.ofEntries s.entries) =
      .ok s :=
  required_str "at" s.directory |>.map AttachWorkspaceStep.mk
    |>.read_record _ _

theorem StoreArtifactsStep.read_entries (s : StoreArtifactsStep) :
    StoreArtifactsStep.fields.read "StoreArtifactsParameters" true (Value.ofEntries s.entries) =
      .ok s :=
  required_str "path" s.path |>.map StoreArtifactsStep.mk
    |>.and (.optional_str "destination" s.destination)
    |>.read_record _ _

theorem StoreTestResultsStep.read_entries (s : StoreTestResultsStep) :
    StoreTestResultsStep.fields.read "StoreTestResultsParameters" true
      (Value.ofEntries s.entries) = .ok s :=
  required_str "path" s.path |>.map StoreTestResultsStep.mk
    |>.read_record _ _

/-! ## Steps -/

namespace Step

/-- Either written form of a step gives its kind and the settings that are set. -/
theorem split_written (s : Step) : split s.written = .ok (s.kind, .ofEntries s.entries) := by
  unfold written
  split
  · rename_i h
    rw [h]
    rfl
  · rfl

theorem readSettings?_entries (s : Step) :
    readSettings? s.kind (.ofEntries s.entries) = some (.ok s) := by
  cases s <;> rename_i s <;> simp [readSettings?, kind, entries, s.read_entries]

/-- A step is read back from its written form. -/
theorem ofValue_written (s : Step) : ofValue s.written = .ok s := by
  have hn : Value.ofEntries s.entries ≠ .null := nofun
  simp only [ofValue, split_written, ok_bind, if_neg hn, readSettings?_entries]

theorem contents_eq_written (s : Step) {ctx : Context} (h : ctx.flatten = false) :
    s.contents ctx = .ok s.written :=
  Context.resolveValue_eq_ok (Context.activeScope_eq_none h) _

/-- A step is read back from what is generated of it without resolving references, and no other step
generates the same. -/
theorem ofValue_contents (s : Step) {ctx : Context} (h : ctx.flatten = false) :
    (∃ v, s.contents ctx = .ok v ∧ ofValue v = .ok s) ∧
      ∀ (s' : Step) {ctx' : Context}, ctx'.flatten = false →
        s'.contents ctx' = s.contents ctx → s' = s := by
  refine ⟨⟨s.written, s.contents_eq_written h, s.ofValue_written⟩, fun s' ctx' h' he => ?_⟩
  rw [contents_eq_written s' h', contents_eq_written s h] at he
  have hw : s'.written = s.written := Except.ok.inj he
  have hs := s'.ofValue_written
  rw [hw, ofValue_written] at hs
  exact (Except.ok.inj hs).symm

/-- A command with a reference in it, a variable without text, and settings left out in between. -/
theorem ofValue_contents_run :
    Context.templated.flatten = false ∧
      let s : Step := .run {
        command := "make << parameters.target >>", environment := .ofList [("CC", "")]
        runWhen := some .onFail }
      (∃ v, s.contents .templated = .ok v ∧ ofValue v = .ok s) ∧
        ∀ (s' : Step) {ctx' : Context}, ctx'.flatten = false →
          s'.contents ctx' = s.contents .templated → s' = s :=
  ⟨rfl, ofValue_contents _ rfl⟩

end Step

end JobConfig

import JobConfig.Proofs.RuledRecords
import JobConfig.Proofs.StepRoundTrip

/-!
# What reads as a step

Each kind of step has rules for its settings (`Step.rules?`). They say what reading a value without
tags as a step comes to (`Step.ReadsAs`, `Step.ofValue_readsAs`): a value that names a known kind
with settings by its rules is read, and the step is written as the same kind with the same settings,
in the order of the rules and without those that are left out. Any other value is refused, and the
error says what is wrong with it.
-/

namespace JobConfig

/-! ## Settings -/

theorem exact_runWhen : Exact RunWhen.read (Value.IsOneOf ["always", "on_success", "on_fail"])
    RunWhen.toValue :=
  exact_choice (by decide)

def CheckoutStep.rules : List FieldRule :=
  [.optional "path" Value.IsText]

def RunStep.rules : List FieldRule := [
  .needed "command" Value.IsText,
  .optional "name" Value.IsText,
  .optional "shell" Value.IsText,
  .environment "environment",
  .optional "background" Value.IsFlag,
  .optional "working_directory" Value.IsText,
  .optional "no_output_timeout" Value.IsText,
  .optional "when" (Value.IsOneOf ["always", "on_success", "on_fail"])]

def SaveCacheStep.rules : List FieldRule := [
  .needed "key" Value.IsText,
  .neededTexts "paths",
  .optional "name" Value.IsText,
  .optional "when" (Value.IsOneOf ["always", "on_success", "on_fail"])]

def RestoreCacheStep.rules : List FieldRule :=
  [.neededTexts "keys", .optional "name" Value.IsText]

def PersistToWorkspaceStep.rules : List FieldRule :=
  [.needed "root" Value.IsText, .neededTexts "paths"]

def AttachWorkspaceStep.rules : List FieldRule :=
  [.needed "at" Value.IsText]

def StoreArtifactsStep.rules : List FieldRule :=
  [.needed "path" Value.IsText, .optional "destination" Value.IsText]

def StoreTestResultsStep.rules : List FieldRule :=
  [.needed "path" Value.IsText]

open Fields.Obeys

theorem CheckoutStep.rewrites : CheckoutStep.fields.Rewrites rules CheckoutStep.entries :=
  optional "path" exact_str |>.map CheckoutStep.mk
    |>.rewrites fun _ => rfl

theorem RunStep.rewrites : RunStep.fields.Rewrites rules RunStep.entries :=
  required_str "command" |>.map RunStep.mk
    |>.and (.optional "name" exact_str)
    |>.and (.optional "shell" exact_str)
    |>.and (.environment "environment")
    |>.and (.optional "background" exact_bool)
    |>.and (.optional "working_directory" exact_str)
    |>.and (.optional "no_output_timeout" exact_str)
    |>.and (.optional "when" exact_runWhen)
    |>.rewrites fun _ => rfl

theorem SaveCacheStep.rewrites : SaveCacheStep.fields.Rewrites rules SaveCacheStep.entries :=
  required_str "key" |>.map SaveCacheStep.mk
    |>.and (.required_strs "paths")
    |>.and (.optional "name" exact_str)
    |>.and (.optional "when" exact_runWhen)
    |>.rewrites fun _ => rfl

theorem RestoreCacheStep.rewrites :
    RestoreCacheStep.fields.Rewrites rules RestoreCacheStep.entries :=
  required_strs "keys" |>.map RestoreCacheStep.mk
    |>.and (.optional "name" exact_str)
    |>.rewrites fun _ => rfl

theorem PersistToWorkspaceStep.rewrites :
    PersistToWorkspaceStep.fields.Rewrites rules PersistToWorkspaceStep.entries :=
  required_str "root" |>.map PersistToWorkspaceStep.mk
    |>.and (.required_strs "paths")
    |>.rewrites fun _ => rfl

theorem AttachWorkspaceStep.rewrites :
    AttachWorkspaceStep.fields.Rewrites rules AttachWorkspaceStep.entries :=
  required_str "at" |>.map AttachWorkspaceStep.mk
    |>.rewrites fun _ => rfl

theorem StoreArtifactsStep.rewrites :
    StoreArtifactsStep.fields.Rewrites rules StoreArtifactsStep.entries :=
  required_str "path" |>.map StoreArtifactsStep.mk
    |>.and (.optional "destination" exact_str)
    |>.rewrites fun _ => rfl

theorem StoreTestResultsStep.rewrites :
    StoreTestResultsStep.fields.Rewrites rules StoreTestResultsStep.entries :=
  required_str "path" |>.map StoreTestResultsStep.mk
    |>.rewrites fun _ => rfl

/-! ## Steps -/

namespace Step

/-- The rules for the settings of each kind of step. -/
def rules? : String → Option (List FieldRule)
  | "checkout" => some CheckoutStep.rules
  | "run" => some RunStep.rules
  | "save_cache" => some SaveCacheStep.rules
  | "restore_cache" => some RestoreCacheStep.rules
  | "persist_to_workspace" => some PersistToWorkspaceStep.rules
  | "attach_workspace" => some AttachWorkspaceStep.rules
  | "store_artifacts" => some StoreArtifactsStep.rules
  | "store_test_results" => some StoreTestResultsStep.rules
  | _ => none

/-- The kind that a value names, and what it has for settings: a text is a kind without settings. -/
def named? : Value → Option (String × Value)
  | .str kind => some (kind, .null)
  | .map [(.str kind, settings)] => some (kind, settings)
  | _ => none

/-- A kind with settings as it is written; the kind alone when nothing is set. -/
def normal (kind : String) : List (String × Value) → Value
  | [] => .str kind
  | set => .keyed kind (.ofEntries set)

/-- What reading a value as a step comes to, by what the value is: settings by the rules of a kind
give a step that is written with them in the order of the rules, and the error for any other value
says what is wrong with it. -/
inductive ReadsAs : Value → Except StepError Step → Prop where
  | step {v settings : Value} {kind : String} {rules : List FieldRule} {es : List (String × Value)}
      {s : Step} (hn : named? v = some (kind, settings)) (hr : rules? kind = some rules)
      (he : settings.HasEntries es) (hc : FieldRule.Conforms rules true es)
      (hw : ∀ ctx : Context, ctx.flatten = false →
        s.contents ctx = .ok (normal kind (FieldRule.rewritten rules es))) :
    ReadsAs v (.ok s)
  | parameters {v settings : Value} {kind : String} {rules : List FieldRule}
      (hn : named? v = some (kind, settings)) (hr : rules? kind = some rules)
      (hc : ∀ es, settings.HasEntries es → ¬ FieldRule.Conforms rules true es) (cause : ReadError) :
    ReadsAs v (.error (.parameters kind cause))
  | unknownKind {v settings : Value} {kind : String} (hn : named? v = some (kind, settings))
      (hr : rules? kind = none) :
    ReadsAs v (.error (.unknownKind kind))
  | kindNotText {key settings : Value} (hk : ¬ key.IsText) :
    ReadsAs (.map [(key, settings)]) (.error .kindNotText)
  | malformed {v : Value} (hn : named? v = none) (he : ∀ e, v ≠ .map [e]) :
    ReadsAs v (.error .malformed)

/-- Settings are read as a step of the kind exactly if they are by the rules, and the step has them
as the rules write them. -/
structure SettledBy (rules : List FieldRule) (kind : String) (settings : Value) (r : Read Step) :
    Prop where
  accepts_iff : (∃ s, r = .ok s) ↔
    ∃ es, settings.HasEntries es ∧ FieldRule.Conforms rules true es
  written_eq {s : Step} {es : List (String × Value)} : r = .ok s → settings.HasEntries es →
    s.written = normal kind (FieldRule.rewritten rules es)

theorem written_eq_normal (s : Step) : s.written = normal s.kind s.entries := by
  unfold written normal
  cases s.entries <;> rfl

theorem settledBy {α : Type} {fs : Fields Value α} {rules : List FieldRule}
    {entries : α → List (String × Value)} (h : fs.Rewrites rules entries) (make : α → Step)
    {kind : String} (hk : ∀ a, (make a).kind = kind) (he : ∀ a, (make a).entries = entries a)
    {settings : Value} (hp : settings.Plain) (record : String) :
    SettledBy rules kind settings (make <$> fs.read record true settings) where
  accepts_iff := by
    have ha : Accepts (fs.read record true) settings ↔ _ := h.accepts_value_iff hp
    rw [← ha]
    simp only [Accepts, map_eq_ok]
    constructor
    · rintro ⟨s, a, ha, -⟩
      exact ⟨a, ha⟩
    · rintro ⟨a, ha⟩
      exact ⟨make a, a, ha, rfl⟩
  written_eq {s es} hs hse := by
    obtain ⟨a, ha, rfl⟩ := map_eq_ok.mp hs
    rw [written_eq_normal, hk, he, h.written_of_read hp hse ha]

theorem readSettings?_eq_none {kind : String} (h : rules? kind = none) (settings : Value) :
    readSettings? kind settings = none := by
  unfold rules? at h
  unfold readSettings?
  split <;> simp_all

theorem readSettings?_settledBy {kind : String} {rules : List FieldRule}
    (h : rules? kind = some rules) {settings : Value} (hp : settings.Plain) :
    ∃ r, readSettings? kind settings = some r ∧ SettledBy rules kind settings r := by
  unfold rules? at h
  split at h <;> cases h
  · exact ⟨_, rfl, settledBy CheckoutStep.rewrites .checkout (fun _ => rfl) (fun _ => rfl) hp _⟩
  · exact ⟨_, rfl, settledBy RunStep.rewrites .run (fun _ => rfl) (fun _ => rfl) hp _⟩
  · exact ⟨_, rfl, settledBy SaveCacheStep.rewrites .saveCache (fun _ => rfl) (fun _ => rfl) hp _⟩
  · exact ⟨_, rfl,
      settledBy RestoreCacheStep.rewrites .restoreCache (fun _ => rfl) (fun _ => rfl) hp _⟩
  · exact ⟨_, rfl, settledBy PersistToWorkspaceStep.rewrites .persistToWorkspace
      (fun _ => rfl) (fun _ => rfl) hp _⟩
  · exact ⟨_, rfl,
      settledBy AttachWorkspaceStep.rewrites .attachWorkspace (fun _ => rfl) (fun _ => rfl) hp _⟩
  · exact ⟨_, rfl,
      settledBy StoreArtifactsStep.rewrites .storeArtifacts (fun _ => rfl) (fun _ => rfl) hp _⟩
  · exact ⟨_, rfl,
      settledBy StoreTestResultsStep.rewrites .storeTestResults (fun _ => rfl) (fun _ => rfl) hp _⟩

theorem named?_plain {v settings : Value} {kind : String} (hv : v.Plain)
    (h : named? v = some (kind, settings)) : settings.Plain := by
  unfold named? at h
  split at h <;> cases h
  · exact .null
  · cases hv with
    | map _ _ hp => exact hp _ List.mem_cons_self

theorem readSettings?_null (kind : String) :
    readSettings? kind .null = readSettings? kind (.map []) := by
  unfold readSettings?
  split <;> rfl

/-- What the settings of a kind come to, as the outcome of reading a step. -/
def settled (kind : String) : Option (Read Step) → Except StepError Step
  | none => .error (.unknownKind kind)
  | some (.ok s) => .ok s
  | some (.error cause) => .error (.parameters kind cause)

theorem ofValue_of_named? {v settings : Value} {kind : String}
    (h : named? v = some (kind, settings)) :
    ofValue v = settled kind (readSettings? kind settings) := by
  unfold named? at h
  split at h <;> cases h
  -- No settings, whether left out or null, are read as the empty ones.
  · rw [readSettings?_null]
    rfl
  · by_cases hn : settings = .null
    · rw [hn, readSettings?_null]
      rfl
    · simp only [ofValue, split, ok_bind, if_neg hn]
      rfl

theorem readsAs_of_not_named {v : Value} (h : named? v = none) : ReadsAs v (ofValue v) := by
  cases v with
  | str kind => cases h
  | map es =>
    match es with
    | [] => exact .malformed h nofun
    | [(key, settings)] =>
      cases key with
      | str kind => cases h
      | _ => exact .kindNotText nofun
    | (key, settings) :: e :: es =>
      have ho : ofValue (.map ((key, settings) :: e :: es)) = .error .malformed := by
        cases key <;> rfl
      rw [ho]
      exact .malformed h nofun
  | _ => exact .malformed h nofun

/-- Every value without tags reads as a step or is refused as the rules of the kinds say. -/
theorem ofValue_readsAs {v : Value} (hv : v.Plain) : ReadsAs v (ofValue v) := by
  cases hn : named? v with
  | none => exact readsAs_of_not_named hn
  | some ks =>
    obtain ⟨kind, settings⟩ := ks
    rw [ofValue_of_named? hn]
    cases hr : rules? kind with
    | none =>
      rw [readSettings?_eq_none hr]
      exact .unknownKind hn hr
    | some rules =>
      obtain ⟨r, hrs, hs⟩ := readSettings?_settledBy hr (named?_plain hv hn)
      rw [hrs]
      cases r with
      | ok s =>
        obtain ⟨es, he, hc⟩ := hs.accepts_iff.mp ⟨s, rfl⟩
        refine .step hn hr he hc fun ctx hf => ?_
        rw [contents_eq_written s hf, hs.written_eq rfl he]
      | error cause =>
        refine .parameters hn hr (fun es he hc => ?_) cause
        obtain ⟨s, h⟩ := hs.accepts_iff.mpr ⟨es, he, hc⟩
        cases h

/-- Settings out of order, with one that is null and variables in an order of their own. -/
theorem ofValue_readsAs_run :
    let v : Value := .keyed "run" (.ofEntries [
      ("when", .str "on_fail"), ("name", .null), ("command", .str "make"),
      ("environment", .ofEntries [("CC", .str "gcc"), ("AR", .str "")])])
    v.Plain ∧ ReadsAs v (ofValue v) ∧
      ∃ s, ofValue v = .ok s ∧ s.contents .templated = .ok (.keyed "run" (.ofEntries [
        ("command", .str "make"),
        ("environment", .ofEntries [("CC", .str "gcc"), ("AR", .str "")]),
        ("when", .str "on_fail")])) := by
  intro v
  have hp : v.Plain := by
    change (Value.ofEntries [("run", _)]).Plain
    refine .ofEntries (by decide) (List.forall_mem_singleton.mpr ?_)
    refine .ofEntries (by decide) ?_
    simp only [List.forall_mem_cons]
    refine ⟨.str _, .null, .str _, .ofEntries (by decide) ?_, nofun⟩
    simp only [List.forall_mem_cons]
    exact ⟨.str _, .str _, nofun⟩
  exact ⟨hp, ofValue_readsAs hp, _, rfl, by decide⟩

end Step

end JobConfig

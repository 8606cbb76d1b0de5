import JobConfig.Project.Definition
import JobConfig.Proofs.DeclarationRules
import JobConfig.Proofs.StepRoundTrip

/-!
# Executors and their definitions

An executor that is no reference is defined in the form in which it is written. With a name among
them, in whatever order, its entries read as a definition that gives it back
(`Executor.read_definition`). The other way round, a definition that gives an executor has one of
the kinds and no other, and the executor is written with the settings of the definition
(`ExecutorDefinition.restatedAs_of_read`): in the order of the fields, without those that are null
and without an environment that has no variables (`Value.RestatedAs`). `Executor.defined_as_written`
says both.
-/

namespace JobConfig

/-! ## Reading settings back -/

open Fields.Inverts in
theorem DockerImage.read_toValue (i : DockerImage) : DockerImage.read i.toValue = .ok i :=
  required_str "image" i.image |>.map DockerImage.mk
    |>.and (.optional_str "name" i.name)
    |>.and (.optional_strs "entrypoint" i.entrypoint)
    |>.and (.optional_strs "command" i.command)
    |>.and (.optional_str "user" i.user)
    |>.and (defaulted_environment "environment" i.environment)
    |>.read_record _ _

open Fields.Inverts in
theorem MachineSettings.read_toValue (m : MachineSettings) :
    MachineSettings.read m.toValue = .ok m :=
  required_str "image" m.image |>.map MachineSettings.mk
    |>.and (.optional_bool "docker_layer_caching" m.dockerLayerCaching)
    |>.read_record _ _

open Fields.Inverts in
theorem MacosSettings.read_toValue (m : MacosSettings) : MacosSettings.read m.toValue = .ok m :=
  required_str "xcode" m.xcode |>.map MacosSettings.mk
    |>.read_record _ _

namespace ExecutorDefinition

theorem inverts_docker (o : Option (List DockerImage)) :
    (Fields.optional "docker" (Source.readList DockerImage.read)).Inverts
      [("docker", o.map fun images => .seq (images.map DockerImage.toValue))] o :=
  .optional _ o fun images _ => ⟨nofun, Value.readList_map DockerImage.read_toValue images⟩

theorem inverts_machine (o : Option MachineSettings) :
    (Fields.optional "machine" MachineSettings.read).Inverts
      [("machine", o.map MachineSettings.toValue)] o :=
  .optional _ o fun m _ => ⟨nofun, m.read_toValue⟩

theorem inverts_macos (o : Option MacosSettings) :
    (Fields.optional "macos" MacosSettings.read).Inverts
      [("macos", o.map MacosSettings.toValue)] o :=
  .optional _ o fun m _ => ⟨nofun, m.read_toValue⟩

/-- A definition as it is written, field by field. -/
def written (d : ExecutorDefinition) : List (String × Option Value) := [
  ("name", some (.str d.name)),
  ("docker", d.docker.map fun images => .seq (images.map DockerImage.toValue)),
  ("machine", d.machine.map MachineSettings.toValue),
  ("macos", d.macos.map MacosSettings.toValue),
  ("resource_class", d.resourceClass.map .str)]

open Fields.Inverts in
theorem inverts_written (d : ExecutorDefinition) :
    ExecutorDefinition.fields.Inverts d.written d :=
  required_str "name" d.name |>.map ExecutorDefinition.mk
    |>.and (inverts_docker d.docker)
    |>.and (inverts_machine d.machine)
    |>.and (inverts_macos d.macos)
    |>.and (.optional_str "resource_class" d.resourceClass)

end ExecutorDefinition

/-! ## Defining executors -/

namespace Executor

/-- The executors that can be defined: a container executor has an image, and a reference to an
executor is none itself. -/
def Definable : Executor → Prop
  | .docker images _ => images ≠ []
  | .machine .. => True
  | .macos .. => True
  | .reusable .. => False

/-- The definition of an executor under a name. A reference has none and gets one without a kind. -/
def definition (name : String) : Executor → ExecutorDefinition
  | .docker images c => ⟨name, some images, none, none, c⟩
  | .machine m c => ⟨name, none, some m, none, c⟩
  | .macos m c => ⟨name, none, none, some m, c⟩
  | .reusable .. => ⟨name, none, none, none, none⟩

theorem name_definition (name : String) (e : Executor) : (e.definition name).name = name := by
  cases e <;> rfl

theorem executor?_definition {e : Executor} (h : e.Definable) (name : String) :
    (e.definition name).executor? = some e := by
  cases e with
  | docker images c =>
    cases images with
    | nil => exact absurd rfl h
    | cons image images => rfl
  | machine m c => rfl
  | macos m c => rfl
  | reusable name arguments => exact h.elim

/-- A definition is written as its name and the entries of the executor. -/
theorem setFields_definition {e : Executor} (h : e.Definable) (name : String) :
    Value.setFields (e.definition name).written = ("name", .str name) :: e.written := by
  cases e with
  | docker images c => cases c <;> rfl
  | machine m c => cases c <;> rfl
  | macos m c => cases c <;> rfl
  | reusable name arguments => exact h.elim

/-- A definition that gives an executor is the definition of that executor. -/
theorem eq_definition {d : ExecutorDefinition} {e : Executor} (h : d.executor? = some e) :
    e.Definable ∧ d = e.definition d.name :=
  match d, h with
  | ⟨_, some (_ :: _), none, none, _⟩, rfl => ⟨List.cons_ne_nil _ _, rfl⟩
  | ⟨_, none, some _, none, _⟩, rfl => ⟨trivial, rfl⟩
  | ⟨_, none, none, some _, _⟩, rfl => ⟨trivial, rfl⟩

/-- With its name among them, in whatever order, the entries of an executor read as its
definition. -/
theorem read_definition {e : Executor} (h : e.Definable) (name : String)
    {es : List (String × Value)} (hes : es.Perm (("name", .str name) :: e.written)) :
    ExecutorDefinition.read (Value.ofEntries es) = .ok (e.definition name) :=
  (e.definition name).inverts_written.read_of_perm _ _ (setFields_definition h name ▸ hes)

end Executor

/-! ## Settings that are said again -/

/-- The mapping `w` says what the mapping `v` says, in the order of the fields, without what is null
and without an environment that has no variables. -/
def Value.RestatedAs (fields : List String) (v w : Value) : Prop :=
  ∃ es fs, v = .ofEntries es ∧ w = .ofEntries fs ∧ (entryKeys fs).Sublist fields ∧
    ∀ e, e ∈ fs ↔ e ∈ es ∧ e.2 ≠ .null ∧ e ≠ ("environment", .map [])

namespace FieldRule

/-- What is written for a value is the value itself, unless it is null or an environment without
variables. -/
def Restates (r : FieldRule) : Prop :=
  ∀ v, r.takes v → ∀ u, r.written v = some u ↔
    v = u ∧ v ≠ .null ∧ (r.name, v) ≠ ("environment", .map [])

theorem Verbatim.restates {r : FieldRule} (h : r.Verbatim) (hn : r.name ≠ "environment") :
    r.Restates := by
  intro v hv u
  have he : (r.name, v) ≠ ("environment", .map []) := fun he => hn (congrArg Prod.fst he)
  rw [h.written_eq_some_iff hv u, and_iff_left he]

theorem restates_environment : (FieldRule.environment "environment").Restates := by
  intro v _ u
  by_cases hn : v = .null
  · simp [FieldRule.environment, hn]
  · by_cases he : v = .map [] <;> simp [FieldRule.environment, hn, he]

end FieldRule

namespace Fields.Rewrites

variable {α : Type} {fs : Fields Value α} {rules : List FieldRule}
  {written : α → List (String × Value)}

/-- Settings that were read are said again as they are written. -/
theorem restatedAs (h : fs.Rewrites rules written) (hr : ∀ r ∈ rules, r.Restates)
    (hn : ∃ r ∈ rules, r.required = true) {kind : String} {v : Value} {a : α} (hv : v.Plain)
    (ha : fs.read kind true v = .ok a) :
    v.RestatedAs (FieldRule.names rules) (.ofEntries (written a)) := by
  obtain ⟨es, he, hc⟩ := (h.accepts_value_iff hv).mp ⟨a, ha⟩
  have hes : v = .ofEntries es := by
    rcases he with he | ⟨-, rfl⟩
    · exact he
    · obtain ⟨r, hm, hq⟩ := hn
      cases hc.complete r hm hq
  refine ⟨es, _, hes, congrArg _ (h.written_of_read hv he ha),
    FieldRule.entryKeys_rewritten_sublist rules es, fun e => ?_⟩
  rw [FieldRule.mem_rewritten_iff (fun e => e.2 ≠ .null ∧ e ≠ ("environment", .map [])) hr
    (hv.of_hasEntries he).1 hc]
  exact ⟨fun h => ⟨h.1, h.2.1⟩, fun h => ⟨h.1, h.2, hc.known e h.1 rfl⟩⟩

end Fields.Rewrites

/-! ## Rules for the kinds -/

def DockerImage.rules : List FieldRule := [
  .needed "image" Value.IsText,
  .optional "name" Value.IsText,
  .optional "entrypoint" Value.AreTexts,
  .optional "command" Value.AreTexts,
  .optional "user" Value.IsText,
  .environment "environment"]

def MachineSettings.rules : List FieldRule :=
  [.needed "image" Value.IsText, .optional "docker_layer_caching" Value.IsFlag]

def MacosSettings.rules : List FieldRule :=
  [.needed "xcode" Value.IsText]

/-- The entries of an image as they are written. -/
def DockerImage.entries (i : DockerImage) : List (String × Value) :=
  Value.setFields [
    ("image", some (.str i.image)),
    ("name", i.name.map .str),
    ("entrypoint", i.entrypoint.map .strs),
    ("command", i.command.map .strs),
    ("user", i.user.map .str),
    ("environment", environmentValue i.environment)]

def MachineSettings.entries (m : MachineSettings) : List (String × Value) :=
  Value.setFields [
    ("image", some (.str m.image)),
    ("docker_layer_caching", m.dockerLayerCaching.map .bool)]

def MacosSettings.entries (m : MacosSettings) : List (String × Value) :=
  Value.setFields [("xcode", some (.str m.xcode))]

open Fields.Obeys in
theorem DockerImage.rewrites : DockerImage.fields.Rewrites rules DockerImage.entries :=
  required_str "image" |>.map DockerImage.mk
    |>.and (.optional "name" exact_str)
    |>.and (.optional "entrypoint" exact_texts)
    |>.and (.optional "command" exact_texts)
    |>.and (.optional "user" exact_str)
    |>.and (.environment "environment")
    |>.rewrites fun _ => rfl

open Fields.Obeys in
theorem MachineSettings.rewrites : MachineSettings.fields.Rewrites rules MachineSettings.entries :=
  required_str "image" |>.map MachineSettings.mk
    |>.and (.optional "docker_layer_caching" exact_bool)
    |>.rewrites fun _ => rfl

open Fields.Obeys in
theorem MacosSettings.rewrites : MacosSettings.fields.Rewrites rules MacosSettings.entries :=
  required_str "xcode" |>.map MacosSettings.mk
    |>.rewrites fun _ => rfl

open FieldRule in
theorem DockerImage.restatedAs {v : Value} {i : DockerImage} (hv : v.Plain)
    (h : DockerImage.read v = .ok i) :
    v.RestatedAs ["image", "name", "entrypoint", "command", "user", "environment"] i.toValue := by
  refine DockerImage.rewrites.restatedAs ?_ ⟨_, List.mem_cons_self, rfl⟩ hv h
  simp only [rules, List.forall_mem_cons]
  exact ⟨(Verbatim.needed _ nofun).restates (by decide),
    (Verbatim.optional _ _).restates (by decide), (Verbatim.optional _ _).restates (by decide),
    (Verbatim.optional _ _).restates (by decide), (Verbatim.optional _ _).restates (by decide),
    restates_environment, nofun⟩

open FieldRule in
theorem MachineSettings.restatedAs {v : Value} {m : MachineSettings} (hv : v.Plain)
    (h : MachineSettings.read v = .ok m) :
    v.RestatedAs ["image", "docker_layer_caching"] m.toValue := by
  refine MachineSettings.rewrites.restatedAs ?_ ⟨_, List.mem_cons_self, rfl⟩ hv h
  simp only [rules, List.forall_mem_cons]
  exact ⟨(Verbatim.needed _ nofun).restates (by decide),
    (Verbatim.optional _ _).restates (by decide), nofun⟩

open FieldRule in
theorem MacosSettings.restatedAs {v : Value} {m : MacosSettings} (hv : v.Plain)
    (h : MacosSettings.read v = .ok m) : v.RestatedAs ["xcode"] m.toValue := by
  refine MacosSettings.rewrites.restatedAs ?_ ⟨_, List.mem_cons_self, rfl⟩ hv h
  simp only [rules, List.forall_mem_cons]
  exact ⟨(Verbatim.needed _ nofun).restates (by decide), nofun⟩

/-- Each image of a sequence is said again. -/
theorem DockerImage.restatedAs_list {v : Value} {images : List DockerImage} (hv : v.Plain)
    (hn : v ≠ .null) (h : Source.readList DockerImage.read v = .ok images) :
    ∃ items, v = .seq items ∧ List.Forall₂
      (Value.RestatedAs ["image", "name", "entrypoint", "command", "user", "environment"])
      items (images.map DockerImage.toValue) := by
  cases hv with
  | seq hp =>
    simp only [Source.readList, Value.within_eq, Value.items_eq, ok_bind, mapM_eq_ok_iff] at h
    refine ⟨_, rfl, ?_⟩
    rw [List.forall₂_map_right_iff]
    exact ((List.forall₂_and_left _ _).mpr ⟨hp, h⟩).imp fun _ _ hi => restatedAs hi.1 hi.2
  | null => exact absurd rfl hn
  | _ => cases h

/-! ## Reading definitions -/

/-- What is there under a name and not null. -/
def given? (name : String) (es : List (String × Value)) : Option Value :=
  (valueAt? name es).filter fun v => v ≠ .null

theorem given?_eq_some_iff {name : String} {es : List (String × Value)} {v : Value}
    (hd : (entryKeys es).Nodup) : given? name es = some v ↔ (name, v) ∈ es ∧ v ≠ .null := by
  rw [given?, Option.filter_eq_some_iff, decide_eq_true_iff]
  exact and_congr_left' ⟨mem_of_valueAt?, valueAt?_of_mem hd⟩

/-- The entry of a name, if it is not null. -/
theorem filter_eq_given? {es : List (String × Value)} (hd : (entryKeys es).Nodup) (name : String) :
    es.filter (fun e => e.1 = name ∧ e.2 ≠ .null) =
      ((given? name es).map fun v => (name, v)).toList := by
  induction es with
  | nil => rfl
  | cons e es ih =>
    obtain ⟨k, v⟩ := e
    rw [entryKeys_cons, List.nodup_cons] at hd
    by_cases hk : k = name
    · subst hk
      have ht : es.filter (fun e => e.1 = k ∧ e.2 ≠ .null) = [] := by
        rw [ih hd.2, given?, valueAt?_eq_none_iff.mpr hd.1]
        rfl
      by_cases hn : v = .null
      · rw [List.filter_cons_of_neg (by simp [hn]), ht]
        simp [given?, valueAt?, hn, Option.filter_some]
      · rw [List.filter_cons_of_pos (by simp [hn]), ht]
        simp [given?, valueAt?, hn, Option.filter_some]
    · rw [List.filter_cons_of_neg (by simp [hk]), ih hd.2]
      simp [given?, valueAt?, hk]

theorem Value.map_str_of_rel {o : Option Value} {c : Option String}
    (h : Option.Rel (fun v text => Source.str v = .ok text) o c) (hp : ∀ v ∈ o, v.Plain) :
    o = c.map .str := by
  cases h with
  | none => rfl
  | some ht => exact congrArg some ((hp _ rfl).eq_str ht)

theorem exists_of_rel_some {α β : Type} {r : α → β → Prop} {o : Option α} {b : β}
    (h : Option.Rel r o (some b)) : ∃ a, o = some a ∧ r a b := by
  cases h with
  | some h => exact ⟨_, rfl, h⟩

theorem eq_none_of_rel {α β : Type} {r : α → β → Prop} {o : Option α}
    (h : Option.Rel r o none) : o = none := by
  cases h
  rfl

namespace ExecutorDefinition

/-- What a definition is read from. -/
theorem of_read {es : List (String × Value)} {d : ExecutorDefinition} (hd : (entryKeys es).Nodup)
    (hp : ∀ e ∈ es, e.2.Plain) (h : ExecutorDefinition.read (Value.ofEntries es) = .ok d) :
    ("name", .str d.name) ∈ es ∧
      Option.Rel (fun v images => Source.readList DockerImage.read v = .ok images)
        (given? "docker" es) d.docker ∧
      Option.Rel (fun v m => MachineSettings.read v = .ok m) (given? "machine" es) d.machine ∧
      Option.Rel (fun v m => MacosSettings.read v = .ok m) (given? "macos" es) d.macos ∧
      given? "resource_class" es = d.resourceClass.map .str := by
  obtain ⟨-, hb⟩ := Fields.build_of_read_strict hd h
  simp only [fields, Fields.build_and_eq_ok_iff, Fields.build_map_eq_ok_iff,
    Fields.build_optional_eq_ok_iff] at hb
  obtain ⟨_, ⟨_, ⟨_, ⟨_, ⟨name, hn, rfl⟩, docker, hdo, rfl⟩, machine, hm, rfl⟩, macos, hx, rfl⟩,
    c, hc, rfl⟩ := hb
  refine ⟨?_, hdo, hm, hx, Value.map_str_of_rel hc fun v hv => ?_⟩
  · simp only [Fields.required, Fields.field] at hn
    cases hv : valueAt? "name" es with
    | none =>
      rw [hv] at hn
      cases hn
    | some v =>
      rw [hv] at hn
      have hm := mem_of_valueAt? hv
      have hs : v = .str name := (hp _ hm).eq_str hn
      exact hs ▸ hm
  · exact hp _ ((given?_eq_some_iff hd).mp hv).1

/-- The names of what a definition may define. -/
def kinds : List String :=
  ["docker", "machine", "macos"]

/-- How the content of a definition is said again by the executor that is defined: settings by their
fields, of container images each, at least one. -/
inductive RestatedAs : String → Value → Value → Prop where
  | docker {items items' : List Value} (hn : items ≠ []) (h : List.Forall₂
      (Value.RestatedAs ["image", "name", "entrypoint", "command", "user", "environment"])
      items items') : RestatedAs "docker" (.seq items) (.seq items')
  | machine {v w : Value} (h : v.RestatedAs ["image", "docker_layer_caching"] w) :
      RestatedAs "machine" v w
  | macos {v w : Value} (h : v.RestatedAs ["xcode"] w) : RestatedAs "macos" v w

/-- A definition that gives an executor is one of one kind only, and the executor is written with
the content of the definition said again and with its resource class. -/
theorem restatedAs_of_read {es : List (String × Value)} {d : ExecutorDefinition} {e : Executor}
    (hd : (entryKeys es).Nodup) (hp : ∀ e ∈ es, e.2.Plain)
    (hr : ExecutorDefinition.read (Value.ofEntries es) = .ok d) (he : d.executor? = some e) :
    ∃ kind content content', RestatedAs kind content content' ∧
      (∀ k ∈ kinds, ∀ v, (k, v) ∈ es ∧ v ≠ .null ↔ k = kind ∧ v = content) ∧
      e.written = (kind, content') :: es.filter fun f => f.1 = "resource_class" ∧ f.2 ≠ .null := by
  obtain ⟨h, hde⟩ := Executor.eq_definition he
  obtain ⟨-, hdo, hm, hx, hc⟩ := of_read hd hp hr
  rw [hde] at hdo hm hx hc
  have hplain {k : String} {v : Value} (hg : given? k es = some v) : v.Plain ∧ v ≠ .null :=
    have hv := (given?_eq_some_iff hd).mp hg
    ⟨hp _ hv.1, hv.2⟩
  simp only [filter_eq_given? hd, hc, ← given?_eq_some_iff hd]
  cases e with
  | docker images c =>
    obtain ⟨v, hv, hi⟩ := exists_of_rel_some hdo
    obtain ⟨items, rfl, hall⟩ := DockerImage.restatedAs_list (hplain hv).1 (hplain hv).2 hi
    refine ⟨"docker", _, _, .docker ?_ hall, ?_, ?_⟩
    · rintro rfl
      exact h (List.map_eq_nil_iff.mp (List.forall₂_nil_left_iff.mp hall))
    · simp [kinds, hv, eq_none_of_rel hm, eq_none_of_rel hx, eq_comm]
    · cases c <;> rfl
  | machine m c =>
    obtain ⟨v, hv, hi⟩ := exists_of_rel_some hm
    refine ⟨"machine", v, _, .machine (MachineSettings.restatedAs (hplain hv).1 hi), ?_, ?_⟩
    · simp [kinds, hv, eq_none_of_rel hdo, eq_none_of_rel hx, eq_comm]
    · cases c <;> rfl
  | macos m c =>
    obtain ⟨v, hv, hi⟩ := exists_of_rel_some hx
    refine ⟨"macos", v, _, .macos (MacosSettings.restatedAs (hplain hv).1 hi), ?_, ?_⟩
    · simp [kinds, hv, eq_none_of_rel hdo, eq_none_of_rel hm, eq_comm]
    · cases c <;> rfl
  | reusable name arguments => exact h.elim

end ExecutorDefinition

/-! ## Both ways -/

namespace Executor

open ExecutorDefinition in
/-- Executors are defined in the form in which they are written: what is written of one reads, with
a name, as a definition that gives it back, and what a definition gives is written as the definition
has it. -/
theorem defined_as_written {ctx : Context} (h : ctx.flatten = false) :
    (∀ (e : Executor) (name : String), e.Definable →
      ∃ fragment, e.fragment ctx = .ok fragment ∧
        ∀ es : List (String × Value), es.Perm (("name", .str name) :: fragment) →
          ∃ d, ExecutorDefinition.read (Value.ofEntries es) = .ok d ∧ d.name = name ∧
            d.executor? = some e) ∧
    ∀ (v : Value) (d : ExecutorDefinition) (e : Executor), v.Plain →
      ExecutorDefinition.read v = .ok d → d.executor? = some e →
      ∃ es kind content content', v = .ofEntries es ∧ ("name", .str d.name) ∈ es ∧
        RestatedAs kind content content' ∧
        (∀ k ∈ kinds, ∀ w, (k, w) ∈ es ∧ w ≠ .null ↔ k = kind ∧ w = content) ∧
        e.fragment ctx = .ok ((kind, content') ::
          es.filter fun f => f.1 = "resource_class" ∧ f.2 ≠ .null) := by
  constructor
  · intro e name he
    refine ⟨e.written, fragment_eq_written e h, fun es hes => ?_⟩
    exact ⟨e.definition name, read_definition he name hes, name_definition name e,
      executor?_definition he name⟩
  · intro v d e hv hr he
    obtain ⟨es, hes⟩ := Fields.exists_entries_of_read hv hr
    obtain ⟨hd, hp⟩ := hv.of_hasEntries hes
    have hr' : ExecutorDefinition.read (Value.ofEntries es) = .ok d :=
      (Fields.read_of_hasEntries hes).symm.trans hr
    have hn := (of_read hd hp hr').1
    -- Null has no entries, so no name.
    have hve : v = .ofEntries es := by
      rcases hes with hes | ⟨-, rfl⟩
      · exact hes
      · cases hn
    obtain ⟨kind, content, content', hc, hk, hw⟩ := restatedAs_of_read hd hp hr' he
    exact ⟨es, kind, content, content', hve, hn, hc, hk, hw ▸ fragment_eq_written e h⟩

open ExecutorDefinition in
/-- A database beside the image of a job, and a definition of both that has its entries in another
order, keys without a value and an environment without variables. -/
theorem defined_as_written_postgres :
    let vars : Dict String := .ofList [("POSTGRES_USER", "ci")]
    let e : Executor := .docker
      [{ image := "cimg/node:20.5" }, { image := "cimg/postgres:15.0", environment := vars }]
      (some "large")
    let postgres := Value.ofEntries [("environment", .ofEntries [("POSTGRES_USER", .str "ci")]),
      ("user", .null), ("image", .str "cimg/postgres:15.0")]
    let node := Value.ofEntries [("image", .str "cimg/node:20.5"), ("environment", .ofEntries [])]
    let v := Value.ofEntries [("resource_class", .str "large"), ("machine", .null),
      ("docker", .seq [node, postgres]), ("name", .str "node")]
    let d := e.definition "node"
    (Context.templated.flatten = false ∧ e.Definable ∧ v.Plain ∧
      ExecutorDefinition.read v = .ok d ∧ d.executor? = some e) ∧
    (∃ fragment, e.fragment .templated = .ok fragment ∧
      ∀ es : List (String × Value), es.Perm (("name", .str "node") :: fragment) →
        ∃ d, ExecutorDefinition.read (Value.ofEntries es) = .ok d ∧ d.name = "node" ∧
          d.executor? = some e) ∧
    ∃ es kind content content', v = .ofEntries es ∧ ("name", .str d.name) ∈ es ∧
      RestatedAs kind content content' ∧
      (∀ k ∈ kinds, ∀ w, (k, w) ∈ es ∧ w ≠ .null ↔ k = kind ∧ w = content) ∧
      e.fragment .templated = .ok ((kind, content') ::
        es.filter fun f => f.1 = "resource_class" ∧ f.2 ≠ .null) := by
  intro vars e postgres node v d
  have he : e.Definable := List.cons_ne_nil _ _
  have hn : node.Plain := .ofEntries (by decide) <| by
    simp only [List.forall_mem_cons]
    exact ⟨.str _, .ofEntries List.nodup_nil nofun, nofun⟩
  have hp : postgres.Plain := .ofEntries (by decide) <| by
    simp only [List.forall_mem_cons]
    exact ⟨.ofEntries (by decide) (List.forall_mem_singleton.mpr (.str _)), .null, .str _, nofun⟩
  have hv : v.Plain := .ofEntries (by decide) <| by
    simp only [List.forall_mem_cons]
    exact ⟨.str _, .null, .seq (List.forall_mem_cons.mpr ⟨hn, List.forall_mem_singleton.mpr hp⟩),
      .str _, nofun⟩
  have hr : ExecutorDefinition.read v = .ok d := by decide
  have hd : d.executor? = some e := rfl
  exact ⟨⟨rfl, he, hv, hr, hd⟩, (defined_as_written rfl).1 e "node" he,
    (defined_as_written rfl).2 v d e hv hr hd⟩

end Executor

end JobConfig

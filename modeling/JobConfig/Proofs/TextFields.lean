import JobConfig.Proofs.StepRoundTrip
import JobConfig.Proofs.Texts
import JobConfig.Proofs.Written

/-!
# Fields that hold texts

A text that is one reference and no more is resolved to the value that the reference stands for,
with the value's own type. The settings of steps are flags, constants and texts, and a text is read
from nothing but a text. So what a reader of settings takes, it takes after resolving exactly if
each such reference stands for a text (`Value.StaysText`). `KeepsTexts` is this law of a reader, and
`Fields.KeepsTexts` the law of a description of fields; like the description itself it is put
together by `map` and `and`. The main statement is `Step.ofValue_resolve_iff`: a step that has been
resolved is a step exactly if its texts have stayed texts.
-/

namespace JobConfig

variable {ε : Type} {lookup : String → Except ε Literal} {α β : Type}

/-! ## Texts that stay texts -/

namespace Value

/-- Each text of the value that is one reference and no more stands for a text. -/
def StaysText (lookup : String → Except ε Literal) (v : Value) : Prop :=
  ∀ text ∈ v.texts, ∀ name l, Template.soleReference? text = some name → lookup name = .ok l →
    ∃ given, l = .str given

theorem staysText_seq {vs : List Value} :
    (seq vs).StaysText lookup ↔ ∀ v ∈ vs, v.StaysText lookup := by
  simp only [StaysText, texts_seq, List.forall_mem_flatMap]

theorem staysText_ofEntries {es : List (String × Value)} :
    (ofEntries es).StaysText lookup ↔ ∀ e ∈ es, e.2.StaysText lookup := by
  simp only [StaysText, ofEntries, texts_map, List.flatMap_map, List.forall_mem_flatMap]

theorem staysText_keyed {name : String} {v : Value} :
    (keyed name v).StaysText lookup ↔ v.StaysText lookup := by
  simp only [StaysText, keyed, texts, textsOfEntries, List.append_nil]

theorem staysText_of_sole {text name : String} {l : Literal}
    (hs : Template.soleReference? text = some name) (hl : lookup name = .ok l) :
    (str text).StaysText lookup ↔ ∃ given, l = .str given := by
  simp only [StaysText, texts, List.forall_mem_singleton, hs, Option.some.injEq]
  constructor
  · intro h
    exact h name l rfl hl
  · rintro h _ l' rfl hl'
    rw [hl] at hl'
    cases hl'
    exact h

theorem staysText_of_not_sole {text : String} (hs : Template.soleReference? text = none) :
    (str text).StaysText lookup := by
  simp [StaysText, texts, hs]

/-- A text is resolved to a text exactly if it stays one. -/
theorem resolveText_eq_str_iff {text : String} {w : Value} (h : resolveText lookup text = .ok w) :
    (∃ given, w = .str given) ↔ (str text).StaysText lookup := by
  unfold resolveText at h
  split at h
  · rename_i name hs
    obtain ⟨l, hl, rfl⟩ := map_eq_ok.mp h
    rw [staysText_of_sole hs hl]
    cases l <;> simp [Literal.toValue]
  · rename_i hs
    obtain ⟨o, -, hw⟩ := bind_eq_ok.mp h
    rw [pure_eq_ok_iff] at hw
    exact iff_of_true ⟨_, hw.symm⟩ (staysText_of_not_sole hs)

theorem soleReference?_of_unreferenced {text : String} (h : Template.references text = []) :
    Template.soleReference? text = none := by
  cases hs : Template.soleReference? text with
  | none => rfl
  | some name =>
    rw [Template.references_of_soleReference? hs] at h
    cases h

/-- A text without references is left as it is. -/
theorem resolveText_of_unreferenced {text : String} (h : Template.references text = []) :
    resolveText lookup text = .ok (.str text) := by
  simp only [resolveText, soleReference?_of_unreferenced h, Template.substitute, h]
  rfl

theorem staysText_of_unreferenced {text : String} (h : Template.references text = []) :
    (str text).StaysText lookup :=
  staysText_of_not_sole (soleReference?_of_unreferenced h)

/-- What a value of the grammar is resolved to has no tag and is not null. -/
theorem Simple.untag_resolve {v w : Value} (hv : v.Simple) (h : v.resolve lookup = .ok w) :
    w.untag = w ∧ w ≠ .null := by
  cases hv.of_resolve h <;> exact ⟨rfl, by simp⟩

theorem resolve_keyed {name : String} {v w : Value}
    (h : (keyed name v).resolve lookup = .ok w) :
    ∃ u, w = keyed name u ∧ v.resolve lookup = .ok u := by
  simp only [keyed, resolve, resolveEntries, bind_eq_ok, pure_eq_ok_iff] at h
  obtain ⟨_, ⟨u, hu, _, ⟨⟩, rfl⟩, rfl⟩ := h
  exact ⟨u, rfl, hu⟩

end Value

/-- What related elements of two lists agree on, the lists agree on. -/
theorem forall_mem_iff_of_forall₂ {R : α → β → Prop} {p : α → Prop} {q : β → Prop} {as : List α}
    {bs : List β} (h : List.Forall₂ R as bs) (hpq : ∀ a ∈ as, ∀ b, R a b → (q b ↔ p a)) :
    (∀ b ∈ bs, q b) ↔ ∀ a ∈ as, p a := by
  induction h with
  | nil => simp
  | cons h _ ih =>
    rw [List.forall_mem_cons] at hpq
    rw [List.forall_mem_cons, List.forall_mem_cons, hpq.1 _ h, ih hpq.2]

/-! ## Readers -/

/-- A value that the reader takes is one that it takes after resolving exactly if the value's texts
stay texts. -/
def KeepsTexts (lookup : String → Except ε Literal) (read : Value → Read α) : Prop :=
  ∀ ⦃v w⦄, v.Simple → Accepts read v → v.resolve lookup = .ok w →
    (Accepts read w ↔ v.StaysText lookup)

theorem keepsTexts_str : KeepsTexts lookup Source.str := by
  intro v w hv ha h
  rw [accepts_str_iff (hv.untag_resolve h).1]
  cases hv with
  | str text => exact Value.resolveText_eq_str_iff h
  | _ => simp [Accepts, Source.str, Value.readStr, Value.untag] at ha

theorem keepsTexts_bool : KeepsTexts lookup Source.bool := by
  intro v w hv ha h
  cases hv with
  | bool b =>
    cases h
    exact iff_of_true ha nofun
  | _ => simp [Accepts, Source.bool, Value.readBool, Value.untag] at ha

theorem KeepsTexts.readList {read : Value → Read α} (hr : KeepsTexts lookup read) :
    KeepsTexts lookup (Source.readList read) := by
  intro v w hv ha h
  cases hv with
  | @seq vs hvs =>
    obtain ⟨ws, hws, hw⟩ := bind_eq_ok.mp h
    cases hw
    rw [accepts_readList_iff] at ha
    rw [accepts_readList_iff, Value.staysText_seq]
    exact forall_mem_iff_of_forall₂ (Value.resolveItems_eq_ok.mp hws) fun v hm w hvw =>
      hr (hvs v hm) (ha v hm) hvw
  | _ => simp [Accepts, Source.readList, Source.items, Value.readItems, Value.untag] at ha

theorem KeepsTexts.readDict {read : Value → Read α} (hr : KeepsTexts lookup read) :
    KeepsTexts lookup (Source.readDict read) := by
  intro v w hv ha h
  cases hv with
  | @map es hes =>
    obtain ⟨fs, rfl, hfs⟩ := Value.resolve_ofEntries h
    have ha' : ∀ e ∈ es, Accepts read e.2 := accepts_readDict_iff.mp ha
    refine accepts_readDict_iff.trans (.trans ?_ Value.staysText_ofEntries.symm)
    exact forall_mem_iff_of_forall₂ hfs fun e hm f hef => hr (hes e hm) (ha' e hm) hef.2
  | _ => simp [Accepts, Source.readDict, Source.entries, Value.readEntries, Value.untag] at ha

theorem KeepsTexts.readOptional {read : Value → Read α} (hr : KeepsTexts lookup read) :
    KeepsTexts lookup (Source.readOptional read) := by
  intro v w hv ha h
  have hn : v ≠ .null := by
    rintro rfl
    cases hv
  rw [accepts_readOptional_iff hn] at ha
  rw [accepts_readOptional_iff (hv.untag_resolve h).2]
  exact hr hv ha h

theorem RunWhen.references_name (c : RunWhen) : Template.references c.name = [] :=
  Template.references_of_unopened (Template.unopened_of_notMem (by cases c <;> decide))

/-- The names of constants are no references. -/
theorem keepsTexts_runWhen : KeepsTexts lookup RunWhen.read := by
  intro v w hv ha h
  cases hv with
  | str text =>
    have hm : text ∈ entryKeys (RunWhen.all.map fun c => (c.name, c)) := by
      rw [← valueAt?_isSome_iff]
      cases hc : valueAt? text (RunWhen.all.map fun c => (c.name, c)) with
      | some c => rfl
      | none =>
        simp [Accepts, RunWhen.read, Source.choice, Value.readChoice, hc, Read.fail] at ha
    obtain ⟨c, rfl⟩ : ∃ c : RunWhen, c.name = text := by
      simp only [entryKeys, List.map_map, List.mem_map] at hm
      obtain ⟨c, -, hc⟩ := hm
      exact ⟨c, hc⟩
    rw [Value.resolve, Value.resolveText_of_unreferenced c.references_name] at h
    cases h
    exact iff_of_true ha (Value.staysText_of_unreferenced c.references_name)
  | _ => simp [Accepts, RunWhen.read, Source.choice, Value.readChoice] at ha

/-! ## Fields -/

namespace Fields

/-- The fields hold texts: what fits a field fits it after resolving exactly if its texts stay
texts, and whether the record can be built depends on what fits and is there only. -/
structure KeepsTexts (lookup : String → Except ε Literal) (fs : Fields Value α) : Prop where
  check_iff {name : String} {v w : Value} :
    v.Simple → fs.check name v = .ok () → v.resolve lookup = .ok w →
      (fs.check name w = .ok () ↔ (name ∈ fs.names → v.StaysText lookup))
  build_ok {find find' : String → Option Value} :
    (∀ name, (find' name).isSome = (find name).isSome) →
      (∀ name w, find' name = some w → fs.check name w = .ok ()) →
      (∃ a, fs.build find = .ok a) → ∃ a, fs.build find' = .ok a

namespace KeepsTexts

theorem field (name : String) {read : Value → Read α} (absent : Read α)
    (h : JobConfig.KeepsTexts lookup read) : (Fields.field name read absent).KeepsTexts lookup where
  check_iff {other v w} hv hc hw := by
    simp only [Fields.field, List.mem_singleton] at hc ⊢
    split
    · rename_i he
      rw [if_pos he, outcome_eq_ok_iff] at hc
      rw [outcome_eq_ok_iff]
      exact (h hv hc hw).trans (by simp [he])
    · rename_i he
      simp [he]
  build_ok {find find'} hs hc hb := by
    simp only [Fields.field] at hs hc hb ⊢
    specialize hs name
    specialize hc name
    cases hf : find' name with
    | none =>
      cases hf' : find name with
      | none => simpa [hf'] using hb
      | some v => simp [hf, hf'] at hs
    | some w =>
      have hw := hc w hf
      rw [if_pos rfl, outcome_eq_ok_iff] at hw
      exact hw

theorem required (name : String) {read : Value → Read α} (h : JobConfig.KeepsTexts lookup read) :
    (Fields.required name read).KeepsTexts lookup :=
  field name _ h

theorem optional (name : String) {read : Value → Read α} (h : JobConfig.KeepsTexts lookup read) :
    (Fields.optional name read).KeepsTexts lookup :=
  field name _ h.readOptional

theorem defaulted (name : String) {read : Value → Read α} (absent : α)
    (h : JobConfig.KeepsTexts lookup read) : (Fields.defaulted name read absent).KeepsTexts lookup :=
  field name _ h

theorem map {fs : Fields Value α} (h : fs.KeepsTexts lookup) (f : α → β) :
    (fs.map f).KeepsTexts lookup where
  check_iff := h.check_iff
  build_ok hs hc hb := by
    obtain ⟨b, hb⟩ := hb
    obtain ⟨a, ha, -⟩ := map_eq_ok.mp hb
    obtain ⟨a', ha'⟩ := h.build_ok hs hc ⟨a, ha⟩
    exact ⟨f a', map_eq_ok.mpr ⟨a', ha', rfl⟩⟩

theorem check_and_eq_ok_iff {fs : Fields Value (α → β)} {gs : Fields Value α} {name : String}
    {v : Value} : (fs.and gs).check name v = .ok () ↔
      fs.check name v = .ok () ∧ gs.check name v = .ok () := by
  simp only [Fields.and]
  cases fs.check name v <;> simp

theorem and {fs : Fields Value (α → β)} {gs : Fields Value α} (hf : fs.KeepsTexts lookup)
    (hg : gs.KeepsTexts lookup) : (fs.and gs).KeepsTexts lookup where
  check_iff hv hc hw := by
    rw [check_and_eq_ok_iff] at hc ⊢
    rw [hf.check_iff hv hc.1 hw, hg.check_iff hv hc.2 hw]
    simp only [Fields.and, List.mem_append, or_imp]
  build_ok {find find'} hs hc hb := by
    have hcf name w h := (check_and_eq_ok_iff.mp (hc name w h)).1
    have hcg name w h := (check_and_eq_ok_iff.mp (hc name w h)).2
    obtain ⟨b, hb⟩ := hb
    simp only [Fields.and, bind_eq_ok, pure_eq_ok_iff] at hb
    obtain ⟨f, hbf, a, hbg, -⟩ := hb
    obtain ⟨f', hf'⟩ := hf.build_ok hs hcf ⟨f, hbf⟩
    obtain ⟨a', ha'⟩ := hg.build_ok hs hcg ⟨a, hbg⟩
    exact ⟨f' a', by simp [Fields.and, hf', ha']⟩

end KeepsTexts

/-! ## Records -/

variable {fs : Fields Value α} {es : List (String × Value)}

/-- A record that has been resolved is read exactly if its texts have stayed texts. -/
theorem KeepsTexts.accepts_resolved_iff (h : fs.KeepsTexts lookup) {kind : String}
    {es' : List (String × Value)} (hs : ∀ e ∈ es, e.2.Simple)
    (ha : Accepts (fs.read kind true) (.ofEntries es))
    (hr : List.Forall₂ (Value.ResolvedTo lookup) es es') :
    Accepts (fs.read kind true) (.ofEntries es') ↔ ∀ e ∈ es, e.2.StaysText lookup := by
  rw [accepts_read_iff] at ha
  obtain ⟨hd, hfit, hb⟩ := ha
  have hk := Value.entryKeys_eq_of_resolved hr
  have hfit' : (∀ f ∈ es', f.1 ∈ fs.names ∧ fs.check f.1 f.2 = .ok ()) ↔
      ∀ e ∈ es, e.2.StaysText lookup := by
    refine forall_mem_iff_of_forall₂ hr fun e hm f hef => ?_
    obtain ⟨hn, hc⟩ := hfit e hm
    rw [hef.1, h.check_iff (hs e hm) hc hef.2]
    simp [hn]
  rw [accepts_read_iff, hk, ← hfit']
  refine ⟨fun ⟨_, hf, _⟩ => hf, fun hf => ⟨hd, hf, h.build_ok (fun name => ?_) ?_ hb⟩⟩
  · rw [Bool.eq_iff_iff, valueAt?_isSome_iff, valueAt?_isSome_iff, hk]
  · intro name w hw
    exact (hf (name, w) (mem_of_valueAt? hw)).2

end Fields

/-! ## Steps -/

open Fields.KeepsTexts

theorem CheckoutStep.keepsTexts_fields : CheckoutStep.fields.KeepsTexts lookup :=
  optional "path" keepsTexts_str |>.map CheckoutStep.mk

theorem RunStep.keepsTexts_fields : RunStep.fields.KeepsTexts lookup :=
  required "command" keepsTexts_str |>.map RunStep.mk
    |>.and (.optional "name" keepsTexts_str)
    |>.and (.optional "shell" keepsTexts_str)
    |>.and (.defaulted "environment" ∅ keepsTexts_str.readDict)
    |>.and (.optional "background" keepsTexts_bool)
    |>.and (.optional "working_directory" keepsTexts_str)
    |>.and (.optional "no_output_timeout" keepsTexts_str)
    |>.and (.optional "when" keepsTexts_runWhen)

theorem SaveCacheStep.keepsTexts_fields : SaveCacheStep.fields.KeepsTexts lookup :=
  required "key" keepsTexts_str |>.map SaveCacheStep.mk
    |>.and (.required "paths" keepsTexts_str.readList)
    |>.and (.optional "name" keepsTexts_str)
    |>.and (.optional "when" keepsTexts_runWhen)

theorem RestoreCacheStep.keepsTexts_fields : RestoreCacheStep.fields.KeepsTexts lookup :=
  required "keys" keepsTexts_str.readList |>.map RestoreCacheStep.mk
    |>.and (.optional "name" keepsTexts_str)

theorem PersistToWorkspaceStep.keepsTexts_fields :
    PersistToWorkspaceStep.fields.KeepsTexts lookup :=
  required "root" keepsTexts_str |>.map PersistToWorkspaceStep.mk
    |>.and (.required "paths" keepsTexts_str.readList)

theorem AttachWorkspaceStep.keepsTexts_fields : AttachWorkspaceStep.fields.KeepsTexts lookup :=
  required "at" keepsTexts_str |>.map AttachWorkspaceStep.mk

theorem StoreArtifactsStep.keepsTexts_fields : StoreArtifactsStep.fields.KeepsTexts lookup :=
  required "path" keepsTexts_str |>.map StoreArtifactsStep.mk
    |>.and (.optional "destination" keepsTexts_str)

theorem StoreTestResultsStep.keepsTexts_fields : StoreTestResultsStep.fields.KeepsTexts lookup :=
  required "path" keepsTexts_str |>.map StoreTestResultsStep.mk

namespace Step

theorem resolved_settings_iff {fs : Fields Value α} (hf : fs.KeepsTexts lookup) {make : α → Step}
    {kind : String} {es es' : List (String × Value)} {a : α} (hs : ∀ e ∈ es, e.2.Simple)
    (ha : fs.read kind true (.ofEntries es) = .ok a)
    (h : List.Forall₂ (Value.ResolvedTo lookup) es es') :
    (∃ s, some (make <$> fs.read kind true (.ofEntries es')) = some (.ok s)) ↔
      ∀ e ∈ es, e.2.StaysText lookup := by
  rw [← hf.accepts_resolved_iff hs ⟨a, ha⟩ h, Accepts]
  cases fs.read kind true (.ofEntries es') <;> simp

/-- The settings of a step, resolved, are settings of its kind exactly if the texts in them have
stayed texts. -/
theorem readSettings?_resolved_iff (s : Step) {es : List (String × Value)}
    (h : List.Forall₂ (Value.ResolvedTo lookup) s.entries es) :
    (∃ s', readSettings? s.kind (.ofEntries es) = some (.ok s')) ↔
      ∀ e ∈ s.entries, e.2.StaysText lookup := by
  have hs := s.simple_entries
  cases s with
  | checkout s => exact resolved_settings_iff CheckoutStep.keepsTexts_fields hs s.read_entries h
  | run s => exact resolved_settings_iff RunStep.keepsTexts_fields hs s.read_entries h
  | saveCache s => exact resolved_settings_iff SaveCacheStep.keepsTexts_fields hs s.read_entries h
  | restoreCache s =>
    exact resolved_settings_iff RestoreCacheStep.keepsTexts_fields hs s.read_entries h
  | persistToWorkspace s =>
    exact resolved_settings_iff PersistToWorkspaceStep.keepsTexts_fields hs s.read_entries h
  | attachWorkspace s =>
    exact resolved_settings_iff AttachWorkspaceStep.keepsTexts_fields hs s.read_entries h
  | storeArtifacts s =>
    exact resolved_settings_iff StoreArtifactsStep.keepsTexts_fields hs s.read_entries h
  | storeTestResults s =>
    exact resolved_settings_iff StoreTestResultsStep.keepsTexts_fields hs s.read_entries h

theorem references_kind (s : Step) : Template.references s.kind = [] :=
  Template.references_of_unopened (Template.unopened_of_notMem (by cases s <;> rw [kind] <;> decide))

/-- A mapping of a kind to settings is a step exactly if the settings are ones of the kind. -/
theorem ofValue_keyed_eq_ok_iff {kind : String} {settings : Value} (h : settings ≠ .null)
    {s : Step} : ofValue (.keyed kind settings) = .ok s ↔
      readSettings? kind settings = some (.ok s) := by
  simp only [ofValue, Value.keyed, split, ok_bind, if_neg h]
  rcases readSettings? kind settings with - | cause | step <;> simp

/-- What a step is resolved to is a step exactly if its texts stay texts. -/
theorem ofValue_resolve_iff (s : Step) {w : Value} (h : s.written.resolve lookup = .ok w) :
    (∃ s', ofValue w = .ok s') ↔ s.written.StaysText lookup := by
  have hw := s.ofValue_written
  unfold written at h hw ⊢
  split at h
  · rename_i he
    rw [he] at hw
    rw [Value.resolve, Value.resolveText_of_unreferenced s.references_kind] at h
    cases h
    exact iff_of_true ⟨s, hw⟩ (Value.staysText_of_unreferenced s.references_kind)
  · obtain ⟨c, rfl, hc⟩ := Value.resolve_keyed h
    obtain ⟨es, rfl, hes⟩ := Value.resolve_ofEntries hc
    have hn : Value.ofEntries es ≠ .null := by simp [Value.ofEntries]
    rw [exists_congr fun _ => ofValue_keyed_eq_ok_iff hn, readSettings?_resolved_iff s hes,
      Value.staysText_keyed, Value.staysText_ofEntries]

end Step

end JobConfig

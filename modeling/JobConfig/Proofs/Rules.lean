import JobConfig.Proofs.FieldTypes
import Mathlib.Data.Set.List

/-!
# Rules for fields

What a field takes, and what is kept of it, can be said without its reader. A `FieldRule` says for
one field whether it has to be there, which values it takes, and what is written for one of them:
nothing, when the field is left out. Entries conform to the rules of a record
(`FieldRule.Conforms`) when they are fields, fit them, and none is missing; they are written again
in the order of the rules (`FieldRule.rewritten`).

Each kind of field has a reader that is exact (`Exact`): it takes the values of one type, and what
it reads is written as the very value that was read. So a rule of the kind describes the field
(`FieldRule.Describes`).
-/

namespace JobConfig

/-! ## Plain values -/

namespace Value

/-- A value without tags. A key is there once in a mapping, which a list of entries does not say of
itself. -/
inductive Plain : Value → Prop where
  | null : Plain .null
  | bool (b : Bool) : Plain (.bool b)
  | int (n : Int) : Plain (.int n)
  | float (x : Double) : Plain (.float x)
  | str (text : String) : Plain (.str text)
  | seq {items : List Value} (h : ∀ v ∈ items, Plain v) : Plain (.seq items)
  | map {es : List (Value × Value)} (hd : es.Pairwise fun e f => same e.1 f.1 = false)
    (hk : ∀ e ∈ es, Plain e.1) (hv : ∀ e ∈ es, Plain e.2) : Plain (.map es)

def IsFlag (v : Value) : Prop :=
  ∃ b, v = .bool b

/-- A sequence of texts. -/
def AreTexts (v : Value) : Prop :=
  ∃ items, v = .seq items ∧ ∀ i ∈ items, i.IsText

/-- One of some names. -/
def IsOneOf (names : List String) (v : Value) : Prop :=
  ∃ name ∈ names, v = .str name

/-- The value is a mapping with texts for keys, and these are its entries; null has none. -/
def HasEntries (v : Value) (es : List (String × Value)) : Prop :=
  v = .ofEntries es ∨ v = .null ∧ es = []

theorem HasEntries.unique {v : Value} {es fs : List (String × Value)} (h : v.HasEntries es)
    (h' : v.HasEntries fs) : es = fs := by
  rcases h with rfl | ⟨rfl, rfl⟩ <;> rcases h' with h' | ⟨h', rfl⟩
  · exact ofEntries_injective h'
  · cases h'
  · cases h'
  · rfl

theorem Plain.untag {v : Value} (h : v.Plain) : v.untag = v := by
  cases h <;> rfl

theorem Plain.of_ofEntries {es : List (String × Value)} (h : (ofEntries es).Plain) :
    (entryKeys es).Nodup ∧ ∀ e ∈ es, e.2.Plain := by
  cases h with
  | map hd _ hv =>
    rw [List.pairwise_map] at hd
    refine ⟨List.pairwise_map.mpr (hd.imp fun h => ?_), fun e he => hv _ (List.mem_map_of_mem he)⟩
    simpa [same] using h

theorem Plain.ofEntries {es : List (String × Value)} (hd : (entryKeys es).Nodup)
    (hp : ∀ e ∈ es, e.2.Plain) : (ofEntries es).Plain :=
  .map (List.pairwise_map.mpr ((List.pairwise_map.mp hd).imp fun h => by simpa [same] using h))
    (List.forall_mem_map.mpr fun e _ => .str e.1) (List.forall_mem_map.mpr hp)

theorem Plain.of_hasEntries {v : Value} {es : List (String × Value)} (h : v.Plain)
    (he : v.HasEntries es) : (entryKeys es).Nodup ∧ ∀ e ∈ es, e.2.Plain := by
  rcases he with rfl | ⟨-, rfl⟩
  · exact h.of_ofEntries
  · exact ⟨List.nodup_nil, nofun⟩

end Value

/-! ## Rules -/

/-- The rule for one field of a record. -/
structure FieldRule where
  name : String
  /-- The field has to be there. -/
  required : Bool
  /-- The values that the field takes. -/
  takes : Value → Prop
  /-- What is written for a value that the field takes. -/
  written : Value → Option Value

namespace FieldRule

/-- A field that has to be there, with a value of some type. -/
def needed (name : String) (type : Value → Prop) : FieldRule :=
  ⟨name, true, type, some⟩

/-- A field that has to be there, with a sequence of texts; null stands for the empty one. -/
def neededTexts (name : String) : FieldRule :=
  ⟨name, true, fun v => v = .null ∨ v.AreTexts, fun v => some (if v = .null then .seq [] else v)⟩

/-- A field that may be left out; null leaves it out too. -/
def optional (name : String) (type : Value → Prop) : FieldRule :=
  ⟨name, false, fun v => v = .null ∨ type v, fun v => if v = .null then none else some v⟩

/-- A field of variables. It may be left out; null and no variables at all leave it out too. -/
def environment (name : String) : FieldRule :=
  ⟨name, false, fun v => v = .null ∨ v.AreVariables,
    fun v => if v = .null ∨ v = .map [] then none else some v⟩

/-- The names of the fields. -/
def names (rules : List FieldRule) : List String :=
  rules.map name

/-- What is written for the fields, by the values that are there. -/
def fields (rules : List FieldRule) (find : String → Option Value) :
    List (String × Option Value) :=
  rules.map fun r => (r.name, (find r.name).bind r.written)

/-- Entries written again: fields only, in the order of the rules. -/
def rewritten (rules : List FieldRule) (es : List (String × Value)) : List (String × Value) :=
  Value.setFields (fields rules fun name => valueAt? name es)

/-- The entries are those of a record by the rules. Unless `strict`, there may be others. -/
structure Conforms (rules : List FieldRule) (strict : Bool) (es : List (String × Value)) :
    Prop where
  known : ∀ e ∈ es, strict = true → e.1 ∈ names rules
  takes : ∀ e ∈ es, ∀ r ∈ rules, r.name = e.1 → r.takes e.2
  complete : ∀ r ∈ rules, r.required = true → r.name ∈ entryKeys es

/-- Where each field is written as the very value that is there, if it is written at all, the
entries that are written again are those of the fields that are written. -/
theorem mem_rewritten_iff {rules : List FieldRule} {strict : Bool} {es : List (String × Value)}
    (kept : String × Value → Prop)
    (hk : ∀ r ∈ rules, ∀ v, r.takes v → ∀ u, r.written v = some u ↔ v = u ∧ kept (r.name, v))
    (hd : (entryKeys es).Nodup) (hc : Conforms rules strict es) {e : String × Value} :
    e ∈ rewritten rules es ↔ e ∈ es ∧ kept e ∧ e.1 ∈ names rules := by
  obtain ⟨name, v⟩ := e
  simp only [rewritten, Value.setFields, fields, names, List.mem_filterMap, List.mem_map,
    Option.map_eq_some_iff]
  constructor
  · rintro ⟨_, ⟨r, hr, rfl⟩, u, hu, he⟩
    cases he
    obtain ⟨x, hx, hu⟩ := Option.bind_eq_some_iff.mp hu
    have hm := mem_of_valueAt? hx
    obtain ⟨rfl, hn⟩ := (hk r hr x (hc.takes _ hm r hr rfl) v).mp hu
    exact ⟨hm, hn, r, hr, rfl⟩
  · rintro ⟨hm, hn, r, hr, rfl⟩
    refine ⟨_, ⟨r, hr, rfl⟩, v, ?_, rfl⟩
    rw [valueAt?_of_mem hd hm]
    exact (hk r hr v (hc.takes _ hm r hr rfl) v).mpr ⟨rfl, hn⟩

theorem entryKeys_rewritten_sublist (rules : List FieldRule) (es : List (String × Value)) :
    (entryKeys (rewritten rules es)).Sublist (names rules) := by
  have hk : entryKeys (fields rules fun name => valueAt? name es) = names rules := by
    simp [entryKeys, fields, names, Function.comp_def]
  exact hk ▸ Value.entryKeys_setFields_sublist _

end FieldRule

/-! ## Exact readers -/

variable {α β γ : Type}

/-- The reader takes the values of a type and nothing else, null apart, and `write` gives the very
value that was read. -/
structure Exact (read : Value → Read α) (type : Value → Prop) (write : α → Value) : Prop where
  accepts_iff {v : Value} : v.Plain → v ≠ .null → (Accepts read v ↔ type v)
  write_eq {v : Value} {a : α} : v.Plain → v ≠ .null → read v = .ok a → write a = v

theorem Value.Plain.eq_str {v : Value} {text : String} (hv : v.Plain)
    (h : Source.str v = .ok text) : v = .str text := by
  obtain ⟨other, rfl⟩ := (accepts_str_iff hv.untag).mp ⟨text, h⟩
  cases h
  rfl

theorem exact_str : Exact Source.str Value.IsText .str where
  accepts_iff hv _ := accepts_str_iff hv.untag
  write_eq hv _ h := (hv.eq_str h).symm

theorem exact_bool : Exact Source.bool Value.IsFlag .bool where
  accepts_iff {v} hv _ := by
    cases hv <;> simp [Accepts, Source.bool, Value.readBool, Value.untag, Value.IsFlag]
  write_eq {v a} hv _ h := by
    cases hv with
    | bool b =>
      cases h
      rfl
    | _ => cases h

/-- A constant is read from its name. -/
theorem exact_choice {named : List (String × α)} {write : α → Value}
    (hw : ∀ e ∈ named, write e.2 = .str e.1) :
    Exact (Source.choice named) (Value.IsOneOf (entryKeys named)) write where
  accepts_iff {v} hv _ := by
    cases hv with
    | str name =>
      have hs : Value.IsOneOf (entryKeys named) (.str name) ↔ name ∈ entryKeys named := by
        simp [Value.IsOneOf]
      rw [hs, ← valueAt?_isSome_iff]
      cases h : valueAt? name named <;>
        simp [Accepts, Source.choice, Value.readChoice, h, Read.fail]
    | _ => simp [Accepts, Source.choice, Value.readChoice, Value.IsOneOf]
  write_eq {v a} hv _ h := by
    cases hv with
    | str name =>
      simp only [Source.choice, Value.readChoice] at h
      split at h
      · rename_i hn
        cases h
        exact hw _ (mem_of_valueAt? hn)
      · cases h
    | _ => cases h

theorem Value.map_str_eq {items : List Value} {texts : List String}
    (h : List.Forall₂ (fun v text => Source.str v = .ok text) items texts)
    (hp : ∀ v ∈ items, v.Plain) : texts.map Value.str = items := by
  induction h with
  | nil => rfl
  | @cons v text items texts h _ ih =>
    rw [List.forall_mem_cons] at hp
    rw [List.map_cons, ih hp.2, hp.1.eq_str h]

theorem exact_texts : Exact (Source.readList Source.str) Value.AreTexts Value.strs where
  accepts_iff {v} hv hn := by
    cases hv with
    | seq hp =>
      rw [accepts_readList_iff]
      constructor
      · intro h
        exact ⟨_, rfl, fun v hv => (accepts_str_iff (hp v hv).untag).mp (h v hv)⟩
      · rintro ⟨items, ⟨⟩, h⟩ v hv
        exact (accepts_str_iff (hp v hv).untag).mpr (h v hv)
    | null => exact absurd rfl hn
    | _ =>
      simp [Accepts, Source.readList, Source.items, Value.readItems, Value.untag, Value.AreTexts]
  write_eq {v a} hv hn h := by
    cases hv with
    | seq hp =>
      simp only [Source.readList, Value.within_eq, Value.items_eq, ok_bind, mapM_eq_ok_iff] at h
      rw [Value.strs, Value.map_str_eq h hp]
    | null => exact absurd rfl hn
    | _ => cases h

/-- A list of values of a function is what the function makes of a list. -/
theorem exists_map_eq {f : β → α} {as : List α} (h : ∀ a ∈ as, ∃ b, f b = a) :
    ∃ bs : List β, bs.map f = as := by
  have hr : as ∈ Set.range (List.map f) := Set.range_list_map f ▸ h
  exact hr

/-- Entries whose keys are texts are entries by name. -/
theorem Value.exists_entries_of_isText {es : List (Value × Value)} (h : ∀ e ∈ es, e.1.IsText) :
    ∃ fs : List (String × Value), fs.map (fun e => (.str e.1, e.2)) = es :=
  exists_map_eq fun e he =>
    have ⟨name, hn⟩ := h e he
    ⟨(name, e.2), Prod.ext hn.symm rfl⟩

theorem Value.isText_of_readEntries {read : Value → Read α} {es : List (Value × Value)}
    (hk : ∀ e ∈ es, e.1.Plain) {d d' : Dict α} (h : Source.readEntries read d es = .ok d') :
    ∀ e ∈ es, e.1.IsText := by
  induction es generalizing d with
  | nil => exact nofun
  | cons e es ih =>
    rw [List.forall_mem_cons] at hk ⊢
    obtain ⟨name, hn, h⟩ := bind_eq_ok.mp h
    obtain ⟨a, -, h⟩ := bind_eq_ok.mp h
    exact ⟨(accepts_str_iff hk.1.untag).mp ⟨name, hn⟩, ih hk.2 h⟩

theorem areVariables_of_readDict {v : Value} (hv : v.Plain) (hn : v ≠ .null)
    (h : Accepts (Source.readDict Source.str) v) : v.AreVariables := by
  cases hv with
  | map hd hk hp =>
    obtain ⟨d, hr⟩ := h
    simp only [Source.readDict, Value.within_eq, Value.entries_eq, ok_bind] at hr
    obtain ⟨es, rfl⟩ := Value.exists_entries_of_isText (Value.isText_of_readEntries hk hr)
    have ha := accepts_readEntries_iff ∅ |>.mp ⟨d, hr⟩
    refine ⟨es, rfl, fun e he => (accepts_str_iff ?_).mp (ha e he)⟩
    exact (hp _ (List.mem_map_of_mem he)).untag
  | null => exact absurd rfl hn
  | _ => simp [Accepts, Source.readDict, Source.entries, Value.readEntries, Value.untag] at h

theorem exact_variables : Exact (Source.readDict Source.str) Value.AreVariables
    (fun d => .ofEntries (d.map Value.str).entries) where
  accepts_iff hv hn := by
    refine ⟨areVariables_of_readDict hv hn, ?_⟩
    rintro ⟨es, rfl, ht⟩
    refine accepts_readDict_iff.mpr fun e he => ?_
    obtain ⟨text, he⟩ := ht e he
    exact ⟨text, by rw [he]; rfl⟩
  write_eq {v d} hv hn h := by
    obtain ⟨es, rfl, ht⟩ := areVariables_of_readDict hv hn ⟨d, h⟩
    obtain ⟨fs, rfl⟩ : ∃ fs : List (String × String), fs.map (fun f => (f.1, .str f.2)) = es :=
      exists_map_eq fun e he =>
        have ⟨text, hx⟩ := ht e he
        ⟨(e.1, text), Prod.ext rfl hx.symm⟩
    have hd := hv.of_ofEntries.1
    rw [entryKeys_map] at hd
    have hr (d : Dict String) :
        Source.readDict Source.str (Value.ofEntries (d.map Value.str).entries) = .ok d :=
      Value.readDict_map d fun e _ => Value.str_eq e.2
    cases (hr ⟨fs, hd⟩).symm.trans h
    rfl

/-! ## Fields -/

namespace FieldRule

/-- The rule describes a field that is read by `read`, or as `absent` when it is not there, and that
is written by `write`. -/
structure Describes (r : FieldRule) (read : Value → Read α) (absent : Read α)
    (write : α → Option Value) : Prop where
  accepts_iff {v : Value} : v.Plain → (Accepts read v ↔ r.takes v)
  written_eq {v : Value} {a : α} : v.Plain → read v = .ok a → r.written v = write a
  absent_iff : (∃ a, absent = .ok a) ↔ r.required = false
  absent_eq {a : α} : absent = .ok a → write a = none

namespace Describes

variable {r : FieldRule} {read : Value → Read α} {absent : Read α} {type : Value → Prop}
  {write : α → Value}

theorem needed (name : String) (h : Exact read type write) (hr : ¬ Accepts read .null)
    (ht : ¬ type .null) : (FieldRule.needed name type).Describes read
      (Read.fail (.missingField name)) fun a => some (write a) where
  accepts_iff {v} hv := by
    by_cases hn : v = .null
    · subst hn
      exact iff_of_false hr ht
    · exact h.accepts_iff hv hn
  written_eq {v a} hv ha := by
    have hn : v ≠ .null := by
      rintro rfl
      exact hr ⟨a, ha⟩
    exact congrArg some (h.write_eq hv hn ha).symm
  absent_iff := ⟨nofun, nofun⟩
  absent_eq := nofun

/-- A field that reads null as `a₀`, and any other value as the rule has it. -/
theorem of_null {write : α → Option Value} {a₀ : α} (hr : read .null = .ok a₀)
    (ht : r.takes .null) (hw : r.written .null = write a₀)
    (accepts_iff : ∀ {v : Value}, v.Plain → v ≠ .null → (Accepts read v ↔ r.takes v))
    (written_eq : ∀ {v : Value} {a : α}, v.Plain → v ≠ .null → read v = .ok a →
      r.written v = write a)
    (absent_iff : (∃ a, absent = .ok a) ↔ r.required = false)
    (absent_eq : ∀ {a : α}, absent = .ok a → write a = none) :
    r.Describes read absent write where
  accepts_iff {v} hv := by
    by_cases hn : v = .null
    · subst hn
      exact iff_of_true ⟨a₀, hr⟩ ht
    · exact accepts_iff hv hn
  written_eq {v a} hv ha := by
    by_cases hn : v = .null
    · subst hn
      cases hr.symm.trans ha
      exact hw
    · exact written_eq hv hn ha
  absent_iff := absent_iff
  absent_eq := absent_eq

theorem neededTexts (name : String) : (FieldRule.neededTexts name).Describes
    (Source.readList Source.str) (Read.fail (.missingField name))
      fun texts => some (.strs texts) := by
  refine of_null rfl (.inl rfl) rfl (fun hv hn => ?_) (fun hv hn h => ?_) ⟨nofun, nofun⟩ nofun
  · exact (exact_texts.accepts_iff hv hn).trans (or_iff_right hn).symm
  · exact congrArg some ((if_neg hn).trans (exact_texts.write_eq hv hn h).symm)

theorem optional (name : String) (h : Exact read type write) :
    (FieldRule.optional name type).Describes (Source.readOptional read) (.ok none)
      (Option.map write) := by
  refine of_null rfl (.inl rfl) rfl (fun hv hn => ?_) (fun hv hn ho => ?_)
    ⟨fun _ => rfl, fun _ => ⟨none, rfl⟩⟩ ?_
  · rw [accepts_readOptional_iff hn, h.accepts_iff hv hn]
    exact (or_iff_right hn).symm
  · simp only [Source.readOptional, Value.isUnset_eq_false hn, ok_bind] at ho
    obtain ⟨a, ha, rfl⟩ := map_eq_ok.mp ho
    exact (if_neg hn).trans (congrArg some (h.write_eq hv hn ha).symm)
  · rintro _ ⟨⟩
    rfl

theorem environment (name : String) : (FieldRule.environment name).Describes
    (Source.readDict Source.str) (.ok ∅) environmentValue := by
  refine of_null rfl (.inl rfl) rfl (fun hv hn => ?_) (fun {v d} hv hn h => ?_)
    ⟨fun _ => rfl, fun _ => ⟨∅, rfl⟩⟩ ?_
  · exact (exact_variables.accepts_iff hv hn).trans (or_iff_right hn).symm
  · rw [← exact_variables.write_eq hv hn h]
    obtain ⟨es, hd⟩ := d
    cases es <;> simp [FieldRule.environment, environmentValue, Value.ofEntries, Dict.map,
      Dict.isEmpty]
  · rintro _ ⟨⟩
    rfl

end Describes

end FieldRule

end JobConfig

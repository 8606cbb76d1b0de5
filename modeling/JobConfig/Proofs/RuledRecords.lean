import JobConfig.Proofs.Rules

/-!
# Records by rules

The reader of a record takes what conforms to rules, and what it reads is written again as they say
(`Fields.Rewrites`). As a description of a record is put together by `map` and `and`, so is the
proof that it obeys rules (`Fields.Obeys`): `Fields.Obeys.field` is for one field, and
`Fields.Obeys.rewrites` goes over to the whole record. What has to be there for a record to be built
is said field by field by `Fields.build_and_eq_ok_iff` and its like.
-/

namespace JobConfig

variable {α β γ : Type}

namespace FieldRule

/-- The values that are there fit the rules. -/
def Fits (rules : List FieldRule) (find : String → Option Value) : Prop :=
  ∀ r ∈ rules, ∀ v ∈ find r.name, v.Plain ∧ r.takes v

end FieldRule

namespace Fields

/-- The description obeys the rules: it takes what they take, and what it gives is made from parts
that are written as the rules say. -/
structure Obeys (fs : Fields Value α) (rules : List FieldRule) (make : β → α)
    (written : β → List (String × Option Value)) : Prop where
  names_eq : fs.names = FieldRule.names rules
  check_iff {name : String} {v : Value} :
    v.Plain → (fs.check name v = .ok () ↔ ∀ r ∈ rules, r.name = name → r.takes v)
  build_iff {find : String → Option Value} : FieldRule.Fits rules find →
    ((∃ a, fs.build find = .ok a) ↔ ∀ r ∈ rules, r.required = true → (find r.name).isSome = true)
  parts {find : String → Option Value} {a : α} : FieldRule.Fits rules find →
    fs.build find = .ok a → ∃ b, make b = a ∧ written b = FieldRule.fields rules find

namespace Obeys

theorem field {r : FieldRule} {read : Value → Read α} {absent : Read α} {write : α → Option Value}
    (h : r.Describes read absent write) :
    (Fields.field r.name read absent).Obeys [r] id fun a => [(r.name, write a)] where
  names_eq := rfl
  check_iff {name v} hv := by
    simp only [Fields.field, List.forall_mem_singleton]
    split
    · rename_i hn
      rw [outcome_eq_ok_iff]
      exact (h.accepts_iff hv).trans (by simp [hn])
    · rename_i hn
      simp [Ne.symm hn]
  build_iff {find} hf := by
    simp only [FieldRule.Fits, List.forall_mem_singleton] at hf ⊢
    simp only [Fields.field]
    cases hv : find r.name with
    | none =>
      have ha := h.absent_iff
      simpa using ha
    | some v =>
      obtain ⟨hp, ht⟩ := hf v hv
      have ha : ∃ a, read v = .ok a := (h.accepts_iff hp).mpr ht
      simpa using ha
  parts {find a} hf hb := by
    simp only [FieldRule.Fits, List.forall_mem_singleton] at hf
    refine ⟨a, rfl, ?_⟩
    simp only [Fields.field] at hb
    simp only [FieldRule.fields, List.map_cons, List.map_nil]
    cases hv : find r.name with
    | none =>
      rw [hv] at hb
      rw [h.absent_eq hb, Option.bind_none]
    | some v =>
      rw [hv] at hb
      rw [Option.bind_some, h.written_eq (hf v hv).1 hb]

theorem map {fs : Fields Value α} {rules : List FieldRule} {make : β → α}
    {written : β → List (String × Option Value)} (h : fs.Obeys rules make written) (f : α → γ) :
    (fs.map f).Obeys rules (f ∘ make) written where
  names_eq := h.names_eq
  check_iff := h.check_iff
  build_iff {find} hf := by
    rw [← h.build_iff hf]
    simp only [Fields.map]
    cases fs.build find <;> simp [Except.map]
  parts hf hb := by
    obtain ⟨a, ha, rfl⟩ := map_eq_ok.mp hb
    obtain ⟨b, rfl, hw⟩ := h.parts hf ha
    exact ⟨b, rfl, hw⟩

theorem and {β' : Type} {fs : Fields Value (α → γ)} {gs : Fields Value α}
    {rules more : List FieldRule} {make : β → α → γ} {make' : β' → α}
    {written : β → List (String × Option Value)} {written' : β' → List (String × Option Value)}
    (hf : fs.Obeys rules make written) (hg : gs.Obeys more make' written') :
    (fs.and gs).Obeys (rules ++ more) (fun b : β × β' => make b.1 (make' b.2))
      fun b => written b.1 ++ written' b.2 where
  names_eq := by
    simp only [Fields.and, hf.names_eq, hg.names_eq, FieldRule.names, List.map_append]
  check_iff hv := by
    rw [KeepsTexts.check_and_eq_ok_iff, hf.check_iff hv, hg.check_iff hv, List.forall_mem_append]
  build_iff {find} h := by
    obtain ⟨h₁, h₂⟩ := List.forall_mem_append.mp h
    rw [List.forall_mem_append, ← hf.build_iff h₁, ← hg.build_iff h₂]
    simp only [Fields.and]
    cases fs.build find <;> cases gs.build find <;> simp
  parts {find a} h hb := by
    obtain ⟨h₁, h₂⟩ := List.forall_mem_append.mp h
    simp only [Fields.and, bind_eq_ok, pure_eq_ok_iff] at hb
    obtain ⟨f, hbf, c, hbg, rfl⟩ := hb
    obtain ⟨b, rfl, hb⟩ := hf.parts h₁ hbf
    obtain ⟨b', rfl, hb'⟩ := hg.parts h₂ hbg
    exact ⟨(b, b'), rfl, by rw [hb, hb', FieldRule.fields, FieldRule.fields, FieldRule.fields,
      List.map_append]⟩

/-! ### One field each -/

theorem required_str (name : String) : (Fields.required name Source.str).Obeys
    [.needed name Value.IsText] id fun text => [(name, some (.str text))] :=
  field (.needed name exact_str nofun nofun)

theorem required_strs (name : String) : (Fields.required name (Source.readList Source.str)).Obeys
    [.neededTexts name] id fun texts => [(name, some (.strs texts))] :=
  field (.neededTexts name)

theorem optional (name : String) {read : Value → Read α} {type : Value → Prop} {write : α → Value}
    (h : Exact read type write) : (Fields.optional name read).Obeys
      [.optional name type] id fun o => [(name, o.map write)] :=
  field (.optional name h)

theorem environment (name : String) :
    (Fields.defaulted name (Source.readDict Source.str) ∅).Obeys
      [.environment name] id fun d => [(name, environmentValue d)] :=
  field (.environment name)

end Obeys

/-! ## Records -/

variable {fs : Fields Value α} {rules : List FieldRule} {es : List (String × Value)}

/-- Those of the entries that are fields. -/
def known (fs : Fields Value α) (es : List (String × Value)) : List (String × Value) :=
  es.filter fun e => e.1 ∈ fs.names

theorem valueAt?_known {name : String} (h : name ∈ fs.names) :
    valueAt? name (fs.known es) = valueAt? name es := by
  induction es with
  | nil => rfl
  | cons e es ih =>
    rw [known] at ih ⊢
    by_cases hn : e.1 ∈ fs.names
    · rw [List.filter_cons_of_pos (by simpa using hn), valueAt?, valueAt?, ih]
    · have hne : e.1 ≠ name := fun he => hn (he ▸ h)
      rw [List.filter_cons_of_neg (by simpa using hn), valueAt?, if_neg hne, ih]

/-- Of entries with different names those that are fields are collected if they fit, and there are
others only if the description is not strict. -/
theorem collect_eq_ok_iff {strict : Bool} (seen : List (String × Value))
    {found : List (String × Value)} (hd : (entryKeys (seen ++ es)).Nodup) :
    fs.collect strict seen (es.map fun e => (.str e.1, e.2)) = .ok found ↔
      (∀ e ∈ es, if e.1 ∈ fs.names then fs.check e.1 e.2 = .ok () else strict = false) ∧
        found = seen ++ fs.known es := by
  induction es generalizing seen with
  | nil => simp [collect, known, eq_comm]
  | cons e es ih =>
    have hnew : e.1 ∉ entryKeys seen := by
      rw [entryKeys_append, entryKeys_cons] at hd
      exact fun hm => (List.nodup_append.mp hd).2.2 _ hm _ List.mem_cons_self rfl
    have hd₁ : (entryKeys (seen ++ [e] ++ es)).Nodup := by simpa using hd
    have hd₂ : (entryKeys (seen ++ es)).Nodup :=
      hd.sublist (((List.sublist_cons_self e es).append_left seen).map _)
    rw [List.forall_mem_cons]
    simp only [known] at ih ⊢
    simp only [List.map_cons, collect, Value.fieldName_eq, ok_bind]
    by_cases hn : e.1 ∈ fs.names
    · simp only [if_pos hn, if_neg hnew]
      rw [List.filter_cons_of_pos (by simpa using hn)]
      cases hc : fs.check e.1 e.2 with
      | error cause => simp
      | ok u => simp [ih _ hd₁]
    · simp only [if_neg hn]
      rw [List.filter_cons_of_neg (by simpa using hn)]
      cases strict with
      | true => simp [Read.fail]
      | false => simp [ih _ hd₂]

/-- A record is read from the entries that are fields. -/
theorem read_eq_ok_iff {strict : Bool} {kind : String} {a : α} (hd : (entryKeys es).Nodup) :
    fs.read kind strict (.ofEntries es) = .ok a ↔
      (∀ e ∈ es, if e.1 ∈ fs.names then fs.check e.1 e.2 = .ok () else strict = false) ∧
        fs.build (fun name => valueAt? name (fs.known es)) = .ok a := by
  simp only [read, Value.within_eq, Value.ofEntries, Value.entries_eq, ok_bind, bind_eq_ok,
    collect_eq_ok_iff [] hd, List.nil_append]
  constructor
  · rintro ⟨_, ⟨hfit, rfl⟩, hb⟩
    exact ⟨hfit, hb⟩
  · rintro ⟨hfit, hb⟩
    exact ⟨_, ⟨hfit, rfl⟩, hb⟩

/-- A record that is read strictly has no entries but its fields, and is built from them. -/
theorem build_of_read_strict {kind : String} {a : α} (hd : (entryKeys es).Nodup)
    (h : fs.read kind true (.ofEntries es) = .ok a) :
    (∀ e ∈ es, e.1 ∈ fs.names) ∧ fs.build (fun name => valueAt? name es) = .ok a := by
  obtain ⟨hfit, hb⟩ := (read_eq_ok_iff hd).mp h
  have hk : ∀ e ∈ es, e.1 ∈ fs.names := fun e he => by
    by_contra hn
    have := hfit e he
    rw [if_neg hn] at this
    cases this
  have hes : fs.known es = es := List.filter_eq_self.mpr fun e he => decide_eq_true (hk e he)
  exact ⟨hk, hes ▸ hb⟩

theorem build_map_eq_ok_iff {σ : Type} {fs : Fields σ α} {find : String → Option σ} {f : α → γ}
    {c : γ} : (fs.map f).build find = .ok c ↔ ∃ a, fs.build find = .ok a ∧ f a = c :=
  map_eq_ok

theorem build_and_eq_ok_iff {σ : Type} {fs : Fields σ α} {gs : Fields σ (α → γ)}
    {find : String → Option σ} {c : γ} : (gs.and fs).build find = .ok c ↔
      ∃ f, gs.build find = .ok f ∧ ∃ a, fs.build find = .ok a ∧ f a = c := by
  simp only [Fields.and, bind_eq_ok, pure_eq_ok_iff]

/-- A field that may be left out is read from what is there and not null. -/
theorem build_optional_eq_ok_iff {name : String} {read : Value → Read α}
    {find : String → Option Value} {o : Option α} :
    (Fields.optional name read).build find = .ok o ↔
      Option.Rel (fun v a => read v = .ok a) ((find name).filter fun v => v ≠ .null) o := by
  simp only [optional, field]
  cases find name with
  | none => cases o <;> simp
  | some v =>
    by_cases hn : v = .null
    · have hr : Source.readOptional read .null = .ok none := rfl
      cases o <;> simp [hn, hr, Option.filter_some]
    · simp only [Option.elim_some, Source.readOptional, Value.isUnset_eq_false hn, ok_bind,
        Bool.false_eq_true, if_false, map_eq_ok, Option.filter_some, ne_eq, hn,
        not_false_eq_true, decide_true, if_true]
      cases o <;> simp

/-- The records that are read are those that conform to the rules, and they are written again as the
rules say. -/
structure Rewrites (fs : Fields Value α) (rules : List FieldRule)
    (written : α → List (String × Value)) : Prop where
  accepts_iff {strict : Bool} {kind : String} {es : List (String × Value)} :
    (entryKeys es).Nodup → (∀ e ∈ es, e.2.Plain) →
      (Accepts (fs.read kind strict) (.ofEntries es) ↔ FieldRule.Conforms rules strict es)
  written_eq {strict : Bool} {kind : String} {es : List (String × Value)} {a : α} :
    (entryKeys es).Nodup → (∀ e ∈ es, e.2.Plain) →
      fs.read kind strict (.ofEntries es) = .ok a → written a = FieldRule.rewritten rules es

namespace Obeys

variable {make : β → α} {written : β → List (String × Option Value)}

theorem collects_iff (h : fs.Obeys rules make written) {strict : Bool} (hp : ∀ e ∈ es, e.2.Plain) :
    (∀ e ∈ es, if e.1 ∈ fs.names then fs.check e.1 e.2 = .ok () else strict = false) ↔
      (∀ e ∈ es, strict = true → e.1 ∈ FieldRule.names rules) ∧
        ∀ e ∈ es, ∀ r ∈ rules, r.name = e.1 → r.takes e.2 := by
  rw [h.names_eq, ← forall₂_and]
  refine forall₂_congr fun e he => ?_
  split
  · rename_i hn
    rw [h.check_iff (hp e he)]
    exact (and_iff_right fun _ => hn).symm
  · rename_i hn
    have hr : ∀ r ∈ rules, r.name = e.1 → r.takes e.2 := fun r hr hre =>
      absurd (hre ▸ List.mem_map_of_mem hr) hn
    rw [and_iff_left hr]
    cases strict <;> simp [hn]

/-- What is there of the fields, among other entries. -/
theorem valueAt?_eq (h : fs.Obeys rules make written) {r : FieldRule} (hr : r ∈ rules) :
    valueAt? r.name (fs.known es) = valueAt? r.name es :=
  valueAt?_known (h.names_eq ▸ List.mem_map_of_mem hr)

theorem fits (h : fs.Obeys rules make written) (hp : ∀ e ∈ es, e.2.Plain)
    (ht : ∀ e ∈ es, ∀ r ∈ rules, r.name = e.1 → r.takes e.2) :
    FieldRule.Fits rules fun name => valueAt? name (fs.known es) := by
  intro r hr v hv
  have hm := mem_of_valueAt? ((h.valueAt?_eq hr).symm.trans hv)
  exact ⟨hp _ hm, ht _ hm r hr rfl⟩

theorem rewrites (h : fs.Obeys rules make written) {entries : α → List (String × Value)}
    (he : ∀ b, entries (make b) = Value.setFields (written b)) : fs.Rewrites rules entries where
  accepts_iff {strict kind es} hd hp := by
    simp only [Accepts, read_eq_ok_iff hd, exists_and_left, h.collects_iff hp]
    constructor
    · rintro ⟨⟨hk, ht⟩, hb⟩
      refine ⟨hk, ht, fun r hr hn => ?_⟩
      have hs := (h.build_iff (h.fits hp ht)).mp hb r hr hn
      rwa [h.valueAt?_eq hr, valueAt?_isSome_iff] at hs
    · rintro ⟨hk, ht, hc⟩
      refine ⟨⟨hk, ht⟩, (h.build_iff (h.fits hp ht)).mpr fun r hr hn => ?_⟩
      rw [h.valueAt?_eq hr, valueAt?_isSome_iff]
      exact hc r hr hn
  written_eq {strict kind es a} hd hp ha := by
    obtain ⟨hc, hb⟩ := (read_eq_ok_iff hd).mp ha
    obtain ⟨b, rfl, hw⟩ := h.parts (h.fits hp ((h.collects_iff hp).mp hc).2) hb
    have hf : FieldRule.fields rules (fun name => valueAt? name (fs.known es)) =
        FieldRule.fields rules fun name => valueAt? name es :=
      List.map_congr_left fun r hr => by simp only [h.valueAt?_eq hr]
    rw [he, hw, hf, FieldRule.rewritten]

end Obeys

/-- Every key of a record is a text. -/
theorem isText_of_collect {strict : Bool} {seen found : List (String × Value)}
    {es : List (Value × Value)} (hk : ∀ e ∈ es, e.1.Plain)
    (h : fs.collect strict seen es = .ok found) : ∀ e ∈ es, e.1.IsText := by
  induction es generalizing seen with
  | nil => exact nofun
  | cons e es ih =>
    rw [List.forall_mem_cons] at hk ⊢
    obtain ⟨name, hn, h⟩ := bind_eq_ok.mp h
    refine ⟨?_, ?_⟩
    · have hf : e.1.readFieldName = .ok name := hn
      unfold Value.readFieldName at hf
      rw [hk.1.untag] at hf
      split at hf
      · exact ⟨_, ‹_›⟩
      · cases hf
    · split at h
      · split at h
        · cases h
        · obtain ⟨-, -, h⟩ := bind_eq_ok.mp h
          exact ih hk.2 h
      · split at h
        · cases h
        · exact ih hk.2 h

/-- What is read as a record is a mapping with texts for keys, or null. -/
theorem exists_entries_of_read {strict : Bool} {kind : String} {v : Value} {a : α} (hv : v.Plain)
    (h : fs.read kind strict v = .ok a) : ∃ es, v.HasEntries es := by
  cases hv with
  | null => exact ⟨[], .inr ⟨rfl, rfl⟩⟩
  | map hd hk hp =>
    simp only [read, Value.within_eq, Value.entries_eq, ok_bind] at h
    obtain ⟨found, hc, -⟩ := bind_eq_ok.mp h
    obtain ⟨es, rfl⟩ := Value.exists_entries_of_isText (isText_of_collect hk hc)
    exact ⟨es, .inl rfl⟩
  | _ => simp [read, Source.entries, Value.readEntries, Value.untag] at h

theorem read_of_hasEntries {strict : Bool} {kind : String} {v : Value} (h : v.HasEntries es) :
    fs.read kind strict v = fs.read kind strict (.ofEntries es) := by
  rcases h with rfl | ⟨rfl, rfl⟩
  · rfl
  · rfl

namespace Rewrites

variable {written : α → List (String × Value)} {strict : Bool} {kind : String} {v : Value}

/-- A plain value is read as a record exactly if it has entries that conform to the rules. -/
theorem accepts_value_iff (h : fs.Rewrites rules written) (hv : v.Plain) :
    Accepts (fs.read kind strict) v ↔
      ∃ es, v.HasEntries es ∧ FieldRule.Conforms rules strict es := by
  constructor
  · rintro ⟨a, ha⟩
    obtain ⟨es, he⟩ := exists_entries_of_read hv ha
    obtain ⟨hd, hp⟩ := hv.of_hasEntries he
    rw [read_of_hasEntries he] at ha
    exact ⟨es, he, (h.accepts_iff hd hp).mp ⟨a, ha⟩⟩
  · rintro ⟨es, he, hc⟩
    obtain ⟨hd, hp⟩ := hv.of_hasEntries he
    have ha : Accepts (fs.read kind strict) (.ofEntries es) := (h.accepts_iff hd hp).mpr hc
    obtain ⟨a, ha⟩ := ha
    exact ⟨a, (read_of_hasEntries he).trans ha⟩

theorem written_of_read (h : fs.Rewrites rules written) (hv : v.Plain) {a : α}
    (he : v.HasEntries es) (ha : fs.read kind strict v = .ok a) :
    written a = FieldRule.rewritten rules es := by
  obtain ⟨hd, hp⟩ := hv.of_hasEntries he
  exact h.written_eq hd hp ((read_of_hasEntries he).symm.trans ha)

end Rewrites

end Fields

end JobConfig

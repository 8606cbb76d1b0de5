import JobConfig.Proofs.Entries
import JobConfig.Proofs.Outcome
import JobConfig.Reading.FromValue

/-!
# Reading what was written

A description of a record's fields inverts the way the record is written (`Fields.Inverts`) when it
has the same fields and each of them reads back what is written for it. Such a description is put
together like the description itself: `Inverts.field` for one field, `Inverts.map` and
`Inverts.and`. The main statement is `Inverts.read_ofEntries`: from a mapping that has the fields in
any order, and nothing else, the record is read back. `readList_strs` and `readDict_environment`
read the containers back that records are made of.

What a reader takes at all (`Accepts`), whether or not it was written, is said for containers by
`accepts_readList_iff` and `accepts_readDict_iff` and for records by `Fields.accepts_read_iff`.
-/

namespace JobConfig

/-! ## Scalars and containers -/

namespace Value

@[simp] theorem place?_eq (v : Value) : Source.place? v = none := rfl

@[simp] theorem str_eq (t : String) : Source.str (Value.str t) = .ok t := rfl

@[simp] theorem fieldName_eq (t : String) : Source.fieldName (Value.str t) = .ok t := rfl

@[simp] theorem items_eq (items : List Value) : Source.items (Value.seq items) = .ok items := rfl

@[simp] theorem entries_eq (expected : String) (es : List (Value × Value)) :
    Source.entries expected (Value.map es) = .ok es := rfl

@[simp] theorem misfit_ne_ok {α : Type} (v : Value) (expected : String) (a : α) :
    v.misfit expected ≠ .ok a := nofun

@[simp] theorem misfit_bind {α β : Type} (v : Value) (expected : String) (f : α → Read β) :
    (v.misfit expected >>= f) = v.misfit expected := rfl

@[simp] theorem within_eq {α : Type} (v : Value) (r : Read α) : Source.within v r = r := by
  simp [Source.within]

theorem isUnset_eq_false {v : Value} (hv : v ≠ .null) : Source.isUnset v = .ok false := by
  show Except.ok (decide (v = .null)) = _
  rw [decide_eq_false hv]

/-- A value that is not null is the value of an optional field. -/
theorem readOptional_eq {α : Type} {read : Value → Read α} {v : Value} {a : α} (hv : v ≠ .null)
    (h : read v = .ok a) : Source.readOptional read v = .ok (some a) := by
  simp [Source.readOptional, isUnset_eq_false hv, h]

/-- A sequence whose items read back is read back. -/
theorem readList_map {α : Type} {read : Value → Read α} {write : α → Value}
    (h : ∀ a, read (write a) = .ok a) (as : List α) :
    Source.readList read (.seq (as.map write)) = .ok as := by
  simp only [Source.readList, within_eq, items_eq, ok_bind]
  induction as with
  | nil => rfl
  | cons a as ih => simp [h, ih]

theorem readList_strs (texts : List String) : Source.readList Source.str (strs texts) = .ok texts :=
  readList_map str_eq texts

/-- Entries whose values read back are put into the dictionary they are read into. -/
theorem readEntries_map {α : Type} {read : Value → Read α} {write : α → Value}
    (es : List (String × α)) (h : ∀ e ∈ es, read (write e.2) = .ok e.2) (d : Dict α) :
    Source.readEntries read d (es.map fun e => (.str e.1, write e.2)) =
      .ok (es.foldl (fun d e => d.insert e.1 e.2) d) := by
  induction es generalizing d with
  | nil => rfl
  | cons e es ih =>
    have he := h e List.mem_cons_self
    simp [Source.readEntries, he, ih fun e' he' => h e' (List.mem_cons_of_mem _ he')]

/-- A dictionary whose values read back is read back. -/
theorem readDict_map {α : Type} {read : Value → Read α} {write : α → Value} (d : Dict α)
    (h : ∀ e ∈ d.entries, read (write e.2) = .ok e.2) :
    Source.readDict read (.ofEntries (d.map write).entries) = .ok d := by
  simp only [Source.readDict, within_eq, ofEntries, entries_eq, ok_bind, Dict.map, List.map_map,
    Function.comp_def]
  rw [readEntries_map d.entries h]
  exact congrArg _ (Dict.ofList_entries d)

end Value

/-! ## What a reader takes -/

variable {α β : Type}

/-- The reader takes the value. -/
def Accepts (read : Value → Read α) (v : Value) : Prop :=
  ∃ a, read v = .ok a

theorem accepts_str_iff {v : Value} (h : v.untag = v) :
    Accepts Source.str v ↔ ∃ text, v = .str text := by
  show (∃ a, v.readStr = .ok a) ↔ _
  unfold Value.readStr
  rw [h]
  cases v <;> simp

theorem accepts_readList_iff {read : Value → Read α} {vs : List Value} :
    Accepts (Source.readList read) (.seq vs) ↔ ∀ v ∈ vs, Accepts read v := by
  simp only [Accepts, Source.readList, Value.within_eq, Value.items_eq, ok_bind]
  exact exists_mapM_iff

theorem accepts_readEntries_iff {read : Value → Read α} {es : List (String × Value)} (d : Dict α) :
    (∃ d', Source.readEntries read d (es.map fun e => (.str e.1, e.2)) = .ok d') ↔
      ∀ e ∈ es, Accepts read e.2 := by
  induction es generalizing d with
  | nil => simp [Source.readEntries]
  | cons e es ih =>
    simp only [List.map_cons, Source.readEntries, Value.str_eq, ok_bind, List.forall_mem_cons]
    cases hr : read e.2 with
    | ok a => simp [ih, Accepts, hr]
    | error cause => simp [Accepts, hr]

theorem accepts_readDict_iff {read : Value → Read α} {es : List (String × Value)} :
    Accepts (Source.readDict read) (.ofEntries es) ↔ ∀ e ∈ es, Accepts read e.2 := by
  simp only [Accepts, Source.readDict, Value.within_eq, Value.ofEntries, Value.entries_eq, ok_bind]
  exact accepts_readEntries_iff ∅

theorem accepts_readOptional_iff {read : Value → Read α} {v : Value} (hv : v ≠ .null) :
    Accepts (Source.readOptional read) v ↔ Accepts read v := by
  simp only [Accepts, Source.readOptional, Value.isUnset_eq_false hv, ok_bind]
  cases hr : read v <;> simp

/-! ## Fields -/

namespace Fields

variable {fs : Fields Value α} {fields : List (String × Option Value)} {a : α}

/-- The description `fs` reads the record `a` back from what is written for its fields. -/
structure Inverts (fs : Fields Value α) (fields : List (String × Option Value)) (a : α) : Prop where
  names_eq : fs.names = entryKeys fields
  /-- What is written for a field fits it, and what is no field is not looked at. -/
  check_eq {name : String} {v : Value} :
    (name ∈ fs.names → (name, some v) ∈ fields) → fs.check name v = .ok ()
  build_eq {find : String → Option Value} :
    (∀ f ∈ fields, find f.1 = f.2) → fs.build find = .ok a

namespace Inverts

theorem field (name : String) {read : Value → Read α} {absent : Read α} {v : Option Value}
    (h : v.elim absent read = .ok a) : (Fields.field name read absent).Inverts [(name, v)] a where
  names_eq := rfl
  check_eq {other w} hw := by
    simp only [Fields.field]
    split
    · rename_i he
      subst he
      simp only [Fields.field, List.mem_singleton, forall_const, Prod.mk.injEq, true_and] at hw
      subst hw
      have hr : read w = .ok a := h
      rw [hr]
      rfl
    · rfl
  build_eq hf := by
    simp only [Fields.field, hf _ List.mem_cons_self, h]

theorem required (name : String) {read : Value → Read α} {v : Value} (h : read v = .ok a) :
    (Fields.required name read).Inverts [(name, some v)] a :=
  field name h

/-- A field that may be left out, when nothing that is written for it is null. -/
theorem optional (name : String) {read : Value → Read α} {write : α → Value} (o : Option α)
    (h : ∀ a ∈ o, write a ≠ .null ∧ read (write a) = .ok a) :
    (Fields.optional name read).Inverts [(name, o.map write)] o := by
  cases o with
  | none => exact field name rfl
  | some a =>
    obtain ⟨hn, hr⟩ := h a rfl
    exact field name (Value.readOptional_eq hn hr)

theorem required_str (name t : String) :
    (Fields.required name Source.str).Inverts [(name, some (.str t))] t :=
  required name rfl

theorem required_strs (name : String) (ts : List String) :
    (Fields.required name (Source.readList Source.str)).Inverts [(name, some (.strs ts))] ts :=
  required name (Value.readList_strs ts)

theorem optional_str (name : String) (o : Option String) :
    (Fields.optional name Source.str).Inverts [(name, o.map Value.str)] o :=
  optional name o fun _ _ => ⟨nofun, rfl⟩

theorem optional_strs (name : String) (o : Option (List String)) :
    (Fields.optional name (Source.readList Source.str)).Inverts [(name, o.map Value.strs)] o :=
  optional name o fun ts _ => ⟨nofun, Value.readList_strs ts⟩

theorem optional_bool (name : String) (o : Option Bool) :
    (Fields.optional name Source.bool).Inverts [(name, o.map Value.bool)] o :=
  optional name o fun _ _ => ⟨nofun, rfl⟩

theorem map (h : fs.Inverts fields a) (f : α → β) : (fs.map f).Inverts fields (f a) where
  names_eq := h.names_eq
  check_eq := h.check_eq
  build_eq hf := by
    simp only [Fields.map, h.build_eq hf]
    rfl

theorem and {fs : Fields Value (α → β)} {gs : Fields Value α}
    {fields more : List (String × Option Value)} {f : α → β} {a : α} (hf : fs.Inverts fields f)
    (hg : gs.Inverts more a) (hd : ∀ name ∈ fs.names, name ∉ gs.names := by decide) :
    (fs.and gs).Inverts (fields ++ more) (f a) where
  names_eq := by
    simp only [Fields.and, hf.names_eq, hg.names_eq, entryKeys_append]
  check_eq {name v} hv := by
    have hfv : fs.check name v = .ok () := hf.check_eq fun hn => by
      rcases List.mem_append.mp (hv (List.mem_append_left _ hn)) with h | h
      · exact h
      · exact absurd (hg.names_eq ▸ mem_entryKeys_of_mem h) (hd name hn)
    have hgv : gs.check name v = .ok () := hg.check_eq fun hn => by
      rcases List.mem_append.mp (hv (List.mem_append_right _ hn)) with h | h
      · exact absurd hn (hd name (hf.names_eq ▸ mem_entryKeys_of_mem h))
      · exact h
    simp [Fields.and, hfv, hgv]
  build_eq hfind := by
    have hff := hf.build_eq fun e he => hfind e (List.mem_append_left _ he)
    have hgf := hg.build_eq fun e he => hfind e (List.mem_append_right _ he)
    simp [Fields.and, hff, hgf]

end Inverts

/-! ## Records -/

variable {es : List (String × Value)}

theorem outcome_eq_ok_iff {r : Read α} : outcome r = .ok () ↔ ∃ a, r = .ok a := by
  cases r <;> simp [outcome, Except.map]

/-- Entries that are fields, fit them and do not repeat them are all collected. -/
theorem collect_eq (strict : Bool) (es : List (String × Value)) (seen : List (String × Value))
    (hd : (entryKeys (seen ++ es)).Nodup)
    (hfit : ∀ e ∈ es, e.1 ∈ fs.names ∧ fs.check e.1 e.2 = .ok ()) :
    fs.collect strict seen (es.map fun e => (.str e.1, e.2)) = .ok (seen ++ es) := by
  induction es generalizing seen with
  | nil => simp [collect]
  | cons e es ih =>
    obtain ⟨hn, hc⟩ := hfit e List.mem_cons_self
    have hnew : e.1 ∉ entryKeys seen := by
      rw [entryKeys_append, entryKeys_cons] at hd
      exact fun hm => (List.nodup_append.mp hd).2.2 _ hm _ List.mem_cons_self rfl
    simp only [List.map_cons, collect, Value.fieldName_eq, ok_bind, if_pos hn, if_neg hnew, hc]
    rw [ih (seen ++ [e]) (by simpa using hd) fun e' he' => hfit e' (List.mem_cons_of_mem _ he')]
    simp

/-- What is collected strictly is all that there is: fields that fit, none of them twice. -/
theorem collect_strict_eq_ok {seen found : List (String × Value)}
    (h : fs.collect true seen (es.map fun e => (.str e.1, e.2)) = .ok found)
    (hd : (entryKeys seen).Nodup) :
    found = seen ++ es ∧ (entryKeys (seen ++ es)).Nodup ∧
      ∀ e ∈ es, e.1 ∈ fs.names ∧ fs.check e.1 e.2 = .ok () := by
  induction es generalizing seen with
  | nil =>
    cases h
    simpa using hd
  | cons e es ih =>
    simp only [List.map_cons, collect, Value.fieldName_eq, ok_bind] at h
    split at h
    · rename_i hn
      split at h
      · cases h
      · rename_i hnew
        obtain ⟨⟨⟩, hc, h⟩ := bind_eq_ok.mp h
        have hd' : (entryKeys (seen ++ [e])).Nodup := by
          rw [entryKeys_append, entryKeys_cons, entryKeys_nil]
          exact (List.perm_append_singleton ..).nodup_iff.mpr (List.nodup_cons.mpr ⟨hnew, hd⟩)
        obtain ⟨he, hnd, hfit⟩ := ih h hd'
        rw [List.append_assoc, List.singleton_append] at he hnd
        exact ⟨he, hnd, List.forall_mem_cons.mpr ⟨⟨hn, hc⟩, hfit⟩⟩
    · cases h

/-- A record is read exactly if the names are fields, fit and do not repeat, and what has to be
there is. -/
theorem accepts_read_iff (kind : String) : Accepts (fs.read kind true) (.ofEntries es) ↔
    (entryKeys es).Nodup ∧ (∀ e ∈ es, e.1 ∈ fs.names ∧ fs.check e.1 e.2 = .ok ()) ∧
      ∃ a, fs.build (fun name => valueAt? name es) = .ok a := by
  simp only [Accepts, read, Value.within_eq, Value.ofEntries, Value.entries_eq, ok_bind]
  constructor
  · rintro ⟨a, ha⟩
    obtain ⟨found, hc, hb⟩ := bind_eq_ok.mp ha
    obtain ⟨rfl, hd, hfit⟩ := collect_strict_eq_ok hc List.nodup_nil
    exact ⟨hd, hfit, a, hb⟩
  · rintro ⟨hd, hfit, a, hb⟩
    rw [collect_eq true es [] hd hfit, ok_bind]
    exact ⟨a, hb⟩

/-- A record is read back from a mapping that has, in any order, the fields that are set. -/
theorem Inverts.read_ofEntries (h : fs.Inverts fields a) (kind : String) (strict : Bool)
    {es : List (String × Value)} (hd : (entryKeys es).Nodup) (hn : ∀ e ∈ es, e.1 ∈ fs.names)
    (hv : ∀ f ∈ fields, valueAt? f.1 es = f.2) : fs.read kind strict (.ofEntries es) = .ok a := by
  -- The names in `es` do not repeat, so an entry is what the field of its name was written as.
  have hfit : ∀ e ∈ es, e.1 ∈ fs.names ∧ fs.check e.1 e.2 = .ok () := fun e he => by
    refine ⟨hn e he, h.check_eq fun hm => ?_⟩
    rw [h.names_eq] at hm
    obtain ⟨f, hf, hfe⟩ := List.mem_map.mp hm
    have hfv := hv f hf
    rw [hfe, valueAt?_of_mem hd he] at hfv
    rwa [hfv, ← hfe]
  simp only [read, Value.within_eq, Value.ofEntries, Value.entries_eq, ok_bind]
  rw [collect_eq strict es [] hd hfit, ok_bind]
  exact h.build_eq hv

/-- A record is read back from the fields that are written of it, in whichever order. -/
theorem Inverts.read_written (h : fs.Inverts fields a) (kind : String) (strict : Bool)
    {written : List (String × Option Value)} (hd : (entryKeys written).Nodup)
    (hn : ∀ name ∈ entryKeys written, name ∈ fs.names) (hw : ∀ f ∈ fields, f ∈ written) :
    fs.read kind strict (.record written) = .ok a := by
  have hs := Value.entryKeys_setFields_sublist written
  refine h.read_ofEntries kind strict (hd.sublist hs) (fun e he => ?_) fun f hf => ?_
  · exact hn e.1 (hs.subset (mem_entryKeys_of_mem he))
  · rw [Value.valueAt?_setFields f.1 hd, valueAt?_of_mem hd (hw f hf)]
    rfl

/-- A record is read back from those of its fields that are set, in whichever order they are. -/
theorem Inverts.read_of_perm (h : fs.Inverts fields a) (kind : String) (strict : Bool)
    {es : List (String × Value)} (hes : es.Perm (Value.setFields fields))
    (hd : fs.names.Nodup := by decide) : fs.read kind strict (.ofEntries es) = .ok a := by
  rw [h.names_eq] at hd
  have hs := Value.entryKeys_setFields_sublist fields
  have hk : (entryKeys (Value.setFields fields)).Nodup := hd.sublist hs
  refine h.read_ofEntries kind strict ((hes.map Prod.fst).nodup_iff.mpr hk) (fun e he => ?_)
    fun f hf => ?_
  · exact h.names_eq ▸ hs.subset (mem_entryKeys_of_mem (hes.mem_iff.mp he))
  · rw [valueAt?_of_perm hk hes, Value.valueAt?_setFields f.1 hd, valueAt?_of_mem hd hf]
    rfl

/-- A record is read back from the mapping that it is written as. -/
theorem Inverts.read_record (h : fs.Inverts fields a) (kind : String) (strict : Bool)
    (hd : fs.names.Nodup := by decide) : fs.read kind strict (.record fields) = .ok a := by
  rw [h.names_eq] at hd
  exact h.read_written kind strict hd (fun _ hn => h.names_eq ▸ hn) fun _ hf => hf

end Fields

end JobConfig

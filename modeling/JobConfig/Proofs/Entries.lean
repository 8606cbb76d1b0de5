import JobConfig.Dict
import JobConfig.Value
import Mathlib.Data.List.Forall2
import Mathlib.Data.List.Induction

/-!
# Entry lists and written records

What an entry list says under a name: in a list without repeated names, each entry is the one that
is found (`valueAt?_of_mem`), and such a list is the entries of the dictionary that it is put into
(`Dict.entries_foldl_insert`). Of a list with repeated names the dictionary keeps each name where it
occurs first and the value that it has last (`Dict.keys_ofList`, `Dict.get?_ofList`). A record is
written as the list of those of its fields that are set: its names are some of the fields' names in
their order (`entryKeys_setFields_sublist`), and looking a field up gives what was written for it
(`valueAt?_setFields`).
-/

namespace JobConfig

variable {α : Type}

/-! ## Names -/

@[simp] theorem entryKeys_nil : entryKeys ([] : List (String × α)) = [] := rfl

@[simp] theorem entryKeys_cons (e : String × α) (es : List (String × α)) :
    entryKeys (e :: es) = e.1 :: entryKeys es := rfl

@[simp] theorem entryKeys_append (es fs : List (String × α)) :
    entryKeys (es ++ fs) = entryKeys es ++ entryKeys fs := by
  simp [entryKeys]

@[simp] theorem entryKeys_map {β : Type} (f : α → β) (es : List (String × α)) :
    entryKeys (es.map fun e => (e.1, f e.2)) = entryKeys es := by
  simp [entryKeys, Function.comp_def]

theorem mem_entryKeys_of_mem {e : String × α} {es : List (String × α)} (h : e ∈ es) :
    e.1 ∈ entryKeys es :=
  List.mem_map_of_mem h

/-- One more name at the end of a list is dropped as a repetition exactly if it is in the list. -/
theorem eraseDups_append_singleton (names : List String) (name : String) :
    (names ++ [name]).eraseDups =
      if name ∈ names then names.eraseDups else names.eraseDups ++ [name] := by
  rw [List.eraseDups_append]
  by_cases h : name ∈ names <;> simp [h, List.removeAll, List.eraseDups_cons]

theorem eraseDups_of_nodup {names : List String} (h : names.Nodup) : names.eraseDups = names := by
  induction names with
  | nil => rfl
  | cons name names ih =>
    obtain ⟨hn, hd⟩ := List.nodup_cons.mp h
    have hf : names.filter (fun other => !other == name) = names :=
      List.filter_bne_eq_self_of_not_mem hn
    rw [List.eraseDups_cons, hf, ih hd]

/-! ## Looking up -/

theorem valueAt?_eq_none_iff {name : String} {es : List (String × α)} :
    valueAt? name es = none ↔ name ∉ entryKeys es := by
  rw [← valueAt?_isSome_iff]
  simp

/-- Without repeated names each entry is the one that is found. -/
theorem valueAt?_of_mem {name : String} {a : α} {es : List (String × α)}
    (hd : (entryKeys es).Nodup) (h : (name, a) ∈ es) : valueAt? name es = some a := by
  induction es with
  | nil => cases h
  | cons e es ih =>
    rw [entryKeys_cons, List.nodup_cons] at hd
    rcases List.mem_cons.mp h with rfl | h
    · simp [valueAt?]
    · have hne : e.1 ≠ name := fun he => hd.1 (he ▸ mem_entryKeys_of_mem h)
      simp [valueAt?, hne, ih hd.2 h]

theorem mem_of_valueAt? {name : String} {a : α} {es : List (String × α)}
    (h : valueAt? name es = some a) : (name, a) ∈ es := by
  induction es with
  | nil => cases h
  | cons e es ih =>
    obtain ⟨k, b⟩ := e
    rw [valueAt?] at h
    split at h
    · rename_i hk
      cases h
      exact hk ▸ List.mem_cons_self
    · exact List.mem_cons_of_mem _ (ih h)

/-- Without repeated names the order of the entries does not matter. -/
theorem valueAt?_of_perm {es fs : List (String × α)} (hd : (entryKeys fs).Nodup) (h : es.Perm fs)
    (name : String) : valueAt? name es = valueAt? name fs := by
  have hd' : (entryKeys es).Nodup := (h.map Prod.fst).nodup_iff.mpr hd
  ext a
  constructor
  · exact fun ha => valueAt?_of_mem hd (h.mem_iff.mp (mem_of_valueAt? ha))
  · exact fun ha => valueAt?_of_mem hd' (h.mem_iff.mpr (mem_of_valueAt? ha))

theorem valueAt?_append (name : String) (es fs : List (String × α)) :
    valueAt? name (es ++ fs) = (valueAt? name es).or (valueAt? name fs) := by
  induction es with
  | nil => rfl
  | cons e es ih =>
    by_cases h : e.1 = name <;> simp [valueAt?, h, ih]

theorem valueAt?_map {β : Type} (f : α → β) (name : String) (es : List (String × α)) :
    valueAt? name (es.map fun e => (e.1, f e.2)) = (valueAt? name es).map f := by
  induction es with
  | nil => rfl
  | cons e es ih =>
    by_cases h : e.1 = name <;> simp [valueAt?, h, ih]

/-! ### Entries side by side -/

section Related

variable {β : Type} {R : α → β → Prop} {es : List (String × α)} {fs : List (String × β)}

theorem entryKeys_eq_of_forall₂ (h : List.Forall₂ (fun e f => f.1 = e.1 ∧ R e.2 f.2) es fs) :
    entryKeys fs = entryKeys es := by
  induction h with
  | nil => rfl
  | cons h _ ih => rw [entryKeys_cons, entryKeys_cons, ih, h.1]

/-- Entries of the same names with related values have related values under each name. -/
theorem valueAt?_of_forall₂ (h : List.Forall₂ (fun e f => f.1 = e.1 ∧ R e.2 f.2) es fs)
    (name : String) : Option.Rel R (valueAt? name es) (valueAt? name fs) := by
  induction h with
  | nil => exact .none
  | @cons e f _ _ h _ ih =>
    rw [valueAt?, valueAt?, h.1]
    split
    · exact .some h.2
    · exact ih

end Related

/-! ### Setting -/

/-- Setting a new name puts it at the end. -/
theorem setEntry_of_notMem {name : String} (a : α) {es : List (String × α)}
    (h : name ∉ entryKeys es) : setEntry name a es = es ++ [(name, a)] := by
  induction es with
  | nil => rfl
  | cons e es ih =>
    simp only [entryKeys_cons, List.mem_cons, not_or] at h
    simp [setEntry, Ne.symm h.1, ih h.2]

theorem mem_setEntry {name : String} {a : α} {e : String × α} {es : List (String × α)}
    (h : e ∈ setEntry name a es) : e.2 = a ∨ e ∈ es := by
  induction es with
  | nil => exact .inl (congrArg Prod.snd (List.mem_singleton.mp h))
  | cons f es ih =>
    rw [setEntry] at h
    split at h <;> rcases List.mem_cons.mp h with rfl | h
    · exact .inl rfl
    · exact .inr (List.mem_cons_of_mem _ h)
    · exact .inr List.mem_cons_self
    · exact (ih h).imp_right (List.mem_cons_of_mem _)

/-! ## Dictionaries -/

namespace Dict

@[ext] theorem ext {d d' : Dict α} (h : d.entries = d'.entries) : d = d' := by
  cases d
  cases d'
  cases h
  rfl

theorem eq_empty_of_isEmpty {d : Dict α} (h : d.isEmpty = true) : d = ∅ :=
  ext (List.isEmpty_iff.mp h)

@[simp] theorem entries_erase (d : Dict α) (name : String) :
    (d.erase name).entries = dropEntry name d.entries := rfl

/-- The entries of a dictionary are what its names have. -/
theorem mem_entries_iff {d : Dict α} {name : String} {a : α} :
    (name, a) ∈ d.entries ↔ d.get? name = some a :=
  ⟨valueAt?_of_mem d.distinct, mem_of_valueAt?⟩

/-- A dictionary is its names in their order and what it has under each. -/
theorem ext_get? {d d' : Dict α} (hk : d.keys = d'.keys)
    (hg : ∀ name, d.get? name = d'.get? name) : d = d' := by
  have hm (d : Dict α) :
      d.entries.map (fun e => (e.1, some e.2)) = d.keys.map fun name => (name, d.get? name) := by
    rw [keys, entryKeys, List.map_map]
    refine List.map_congr_left fun e he => ?_
    exact congrArg (Prod.mk e.1) (mem_entries_iff.mp he).symm
  refine ext (List.map_injective_iff.mpr ?_ ((hm d).trans ?_))
  · rintro ⟨name, a⟩ ⟨name', a'⟩ he
    cases he
    rfl
  · rw [hm d', hk]
    simp only [hg]

theorem get?_erase (d : Dict α) (name other : String) :
    (d.erase name).get? other = if name = other then none else d.get? other := by
  ext a
  rw [← mem_entries_iff, entries_erase, dropEntry, List.mem_filter, mem_entries_iff]
  by_cases h : name = other
  · simp [h]
  · simp [h, Ne.symm h]

/-- A new name goes to the end. -/
theorem entries_insert_of_notMem {d : Dict α} {name : String} (h : name ∉ d.keys) (a : α) :
    (d.insert name a).entries = d.entries ++ [(name, a)] :=
  setEntry_of_notMem a h

/-- New names inserted one after the other follow the old ones. -/
theorem entries_foldl_insert (es : List (String × α)) (d : Dict α)
    (h : (entryKeys (d.entries ++ es)).Nodup) :
    (es.foldl (fun d e => d.insert e.1 e.2) d).entries = d.entries ++ es := by
  induction es generalizing d with
  | nil => simp
  | cons e es ih =>
    have hnew : e.1 ∉ d.keys := by
      rw [entryKeys_append, entryKeys_cons] at h
      exact fun hm => (List.nodup_append.mp h).2.2 _ hm _ List.mem_cons_self rfl
    have hi := entries_insert_of_notMem hnew e.2
    rw [List.foldl_cons, ih _ (by simpa [hi] using h), hi, List.append_assoc, List.singleton_append]

/-- What holds of the values of a dictionary and of those that are inserted holds of all values. -/
theorem forall_foldl_insert {β : Type} {P : α → Prop} {value : String × β → α} {d : Dict α}
    (es : List (String × β)) (hes : ∀ e ∈ es, P (value e)) (hd : ∀ e ∈ d.entries, P e.2) :
    ∀ e ∈ (es.foldl (fun d e => d.insert e.1 (value e)) d).entries, P e.2 := by
  induction es generalizing d with
  | nil => exact hd
  | cons f es ih =>
    rw [List.forall_mem_cons] at hes
    refine ih hes.2 fun e he => ?_
    rcases mem_setEntry he with he | he
    · exact he ▸ hes.1
    · exact hd e he

theorem ofList_append_singleton (es : List (String × α)) (e : String × α) :
    ofList (es ++ [e]) = (ofList es).insert e.1 e.2 := by
  rw [ofList, List.foldl_append]
  rfl

/-- The names of a dictionary are those of its entries in the order in which they first occur. -/
theorem keys_ofList (es : List (String × α)) : (ofList es).keys = (entryKeys es).eraseDups := by
  induction es using List.reverseRecOn with
  | nil => rfl
  | append_singleton es e ih =>
    have hk : entryKeys (es ++ [e]) = entryKeys es ++ [e.1] := by simp
    rw [ofList_append_singleton, keys_insert, ih, hk, eraseDups_append_singleton]
    simp only [List.mem_eraseDups]

/-- Of the entries of a name the last one counts. -/
theorem get?_ofList (es : List (String × α)) (name : String) :
    (ofList es).get? name = valueAt? name es.reverse := by
  induction es using List.reverseRecOn with
  | nil => rfl
  | append_singleton es e ih =>
    rw [ofList_append_singleton, get?_insert, ih, List.reverse_append]
    rfl

theorem isEmpty_insert (d : Dict α) (name : String) (a : α) :
    (d.insert name a).isEmpty = false := by
  obtain ⟨es, hd⟩ := d
  cases es with
  | nil => rfl
  | cons e es => by_cases h : e.1 = name <;> simp [insert, isEmpty, setEntry, h]

theorem isEmpty_ofList (es : List (String × α)) : (ofList es).isEmpty = es.isEmpty := by
  rcases es.eq_nil_or_concat' with rfl | ⟨es, e, rfl⟩
  · rfl
  · simp [ofList_append_singleton, isEmpty_insert]

/-- The entries of a dictionary put together again. -/
@[simp] theorem ofList_entries (d : Dict α) : ofList d.entries = d :=
  ext (entries_foldl_insert d.entries ∅ d.distinct)

end Dict

/-! ## Mappings with names for keys -/

namespace Value

/-- A mapping with `content` under a name: in place if the name is there, else at the end. -/
def withEntry (v : Value) (name : String) (content : Value) : Value :=
  match v with
  | .map es => .map (setKey (.str name) content es)
  | v => v

/-- A mapping without what it has under a name. -/
def withoutEntry (v : Value) (name : String) : Value :=
  match v with
  | .map es => .map (es.filter fun e => !same e.1 (.str name))
  | v => v

theorem withEntry_ofEntries (es : List (String × Value)) (name : String) (content : Value) :
    (ofEntries es).withEntry name content = ofEntries (setEntry name content es) := by
  simp only [ofEntries, withEntry, map.injEq]
  induction es with
  | nil => rfl
  | cons e es ih =>
    by_cases h : e.1 = name <;> simp [setKey, setEntry, same, h, ih]

theorem withoutEntry_ofEntries (es : List (String × Value)) (name : String) :
    (ofEntries es).withoutEntry name = ofEntries (dropEntry name es) := by
  simp [ofEntries, withoutEntry, dropEntry, List.filter_map, Function.comp_def, same]
  rfl

end Value

theorem dropEntry_append (name : String) (es fs : List (String × α)) :
    dropEntry name (es ++ fs) = dropEntry name es ++ dropEntry name fs :=
  List.filter_append ..

theorem dropEntry_of_notMem {name : String} {es : List (String × α)} (h : name ∉ entryKeys es) :
    dropEntry name es = es :=
  List.filter_eq_self.mpr fun e he => by
    have hne : e.1 ≠ name := fun hn => h (hn ▸ mem_entryKeys_of_mem he)
    simp [hne]

/-! ## Records -/

namespace Value

theorem setFields_append (fs gs : List (String × Option Value)) :
    setFields (fs ++ gs) = setFields fs ++ setFields gs :=
  List.filterMap_append

@[simp] theorem setFields_some (name : String) (v : Value) (fs : List (String × Option Value)) :
    setFields ((name, some v) :: fs) = (name, v) :: setFields fs := rfl

@[simp] theorem setFields_none (name : String) (fs : List (String × Option Value)) :
    setFields ((name, none) :: fs) = setFields fs := rfl

/-- The values of the fields that are set. -/
theorem forall_mem_setFields {P : Value → Prop} {fs : List (String × Option Value)} :
    (∀ e ∈ setFields fs, P e.2) ↔ ∀ f ∈ fs, ∀ v ∈ f.2, P v := by
  induction fs with
  | nil => simp [setFields]
  | cons f fs ih =>
    obtain ⟨name, v⟩ := f
    cases v with
    | none =>
      rw [setFields_none, ih, List.forall_mem_cons]
      exact (and_iff_right nofun).symm
    | some v =>
      rw [setFields_some, List.forall_mem_cons, ih, List.forall_mem_cons]
      simp only [Option.mem_some, forall_eq']

theorem entryKeys_setFields_sublist (fs : List (String × Option Value)) :
    (entryKeys (setFields fs)).Sublist (entryKeys fs) := by
  induction fs with
  | nil => exact .slnil
  | cons f fs ih =>
    obtain ⟨name, v⟩ := f
    cases v with
    | none => exact ih.cons name
    | some v => exact ih.cons_cons name

/-- Looking a field up gives what was written for it, or nothing if it is not set. -/
theorem valueAt?_setFields (name : String) {fs : List (String × Option Value)}
    (hd : (entryKeys fs).Nodup) : valueAt? name (setFields fs) = (valueAt? name fs).join := by
  induction fs with
  | nil => rfl
  | cons f fs ih =>
    obtain ⟨n, v⟩ := f
    rw [entryKeys_cons, List.nodup_cons] at hd
    cases v with
    | some v =>
      by_cases h : n = name <;> simp [valueAt?, h, ih hd.2]
    | none =>
      rw [setFields_none, ih hd.2]
      by_cases h : n = name
      · subst h
        simp [valueAt?, valueAt?_eq_none_iff.mpr hd.1]
      · simp [valueAt?, h]

end Value

end JobConfig

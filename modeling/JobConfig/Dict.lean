/-!
# Ordered dictionaries

A `Dict` maps names to values and keeps the order in which the names were first inserted: writing
to a name that is there replaces its value in place, and a new name goes to the end
(`keys_insert`). No name occurs twice (`distinct`).
-/

namespace JobConfig

/-! ## Entry lists -/

/-- The names of an entry list, in order. -/
def entryKeys {α : Type} (entries : List (String × α)) : List String :=
  entries.map Prod.fst

/-- The value of the first entry under a name. -/
def valueAt? {α : Type} (name : String) : List (String × α) → Option α
  | [] => none
  | (k, v) :: rest => if k = name then some v else valueAt? name rest

/-- The entries with `name` set to `value`: in place if the name occurs, else at the end. -/
def setEntry {α : Type} (name : String) (value : α) : List (String × α) → List (String × α)
  | [] => [(name, value)]
  | (k, v) :: rest => if k = name then (k, value) :: rest else (k, v) :: setEntry name value rest

/-- The entries without those under `name`. -/
def dropEntry {α : Type} (name : String) (entries : List (String × α)) : List (String × α) :=
  entries.filter fun e => e.1 ≠ name

theorem entryKeys_setEntry {α : Type} (name : String) (value : α) (es : List (String × α)) :
    entryKeys (setEntry name value es) =
      if name ∈ entryKeys es then entryKeys es else entryKeys es ++ [name] := by
  induction es with
  | nil => simp [setEntry, entryKeys]
  | cons e es ih =>
    obtain ⟨k, v⟩ := e
    simp only [entryKeys, setEntry, List.map_cons, List.mem_cons] at ih ⊢
    by_cases h : k = name
    · simp [h]
    · have h' : name ≠ k := fun e => h e.symm
      by_cases hm : name ∈ es.map Prod.fst <;> simp [h, h', ih, hm]

theorem nodup_setEntry {α : Type} (name : String) (value : α) {es : List (String × α)}
    (h : (entryKeys es).Nodup) : (entryKeys (setEntry name value es)).Nodup := by
  rw [entryKeys_setEntry]
  split
  · exact h
  · rename_i hn
    exact List.nodup_append.mpr ⟨h, by simp, fun a ha b hb => by
      simp only [List.mem_singleton] at hb
      exact fun e => hn (hb ▸ e ▸ ha)⟩

/-! ## Dictionaries -/

/-- Named values in the order of first insertion. -/
structure Dict (α : Type) where
  entries : List (String × α)
  distinct : (entryKeys entries).Nodup
deriving DecidableEq, Repr

namespace Dict

variable {α : Type}

/-- The dictionary without entries. -/
def empty : Dict α := ⟨[], List.nodup_nil⟩

instance : EmptyCollection (Dict α) := ⟨empty⟩

instance : Inhabited (Dict α) := ⟨empty⟩

/-- The names, in order. -/
def keys (d : Dict α) : List String :=
  entryKeys d.entries

def isEmpty (d : Dict α) : Bool :=
  d.entries.isEmpty

def get? (d : Dict α) (name : String) : Option α :=
  valueAt? name d.entries

def contains (d : Dict α) (name : String) : Bool :=
  (d.get? name).isSome

/-- Sets a name: in place if it is there, else at the end. -/
def insert (d : Dict α) (name : String) (value : α) : Dict α :=
  ⟨setEntry name value d.entries, nodup_setEntry name value d.distinct⟩

/-- The dictionary without a name; the others keep their order. -/
def erase (d : Dict α) (name : String) : Dict α :=
  ⟨dropEntry name d.entries,
    List.Nodup.sublist (List.Sublist.map _ List.filter_sublist) d.distinct⟩

/-- The entries inserted one after the other. -/
def ofList (entries : List (String × α)) : Dict α :=
  entries.foldl (fun d e => d.insert e.1 e.2) ∅

/-- Every value replaced, names and order kept. -/
def map {β : Type} (f : α → β) (d : Dict α) : Dict β :=
  ⟨d.entries.map fun e => (e.1, f e.2), by
    have h := d.distinct
    simpa [entryKeys, Function.comp_def] using h⟩

theorem keys_insert (d : Dict α) (name : String) (value : α) :
    (d.insert name value).keys = if name ∈ d.keys then d.keys else d.keys ++ [name] :=
  entryKeys_setEntry name value d.entries

end Dict

/-! ## Looking up -/

variable {α : Type}

theorem valueAt?_isSome_iff {name : String} {es : List (String × α)} :
    (valueAt? name es).isSome = true ↔ name ∈ entryKeys es := by
  induction es with
  | nil => simp [valueAt?, entryKeys]
  | cons e es ih =>
    obtain ⟨k, v⟩ := e
    simp only [valueAt?, entryKeys, List.map_cons, List.mem_cons] at ih ⊢
    by_cases h : k = name
    · simp [h]
    · have h' : name ≠ k := fun e => h e.symm
      simp [h, h', ih]

theorem valueAt?_setEntry (name other : String) (value : α) (es : List (String × α)) :
    valueAt? other (setEntry name value es) =
      if name = other then some value else valueAt? other es := by
  induction es with
  | nil => simp [valueAt?, setEntry]
  | cons e es ih =>
    obtain ⟨k, v⟩ := e
    by_cases h : k = name
    · subst h
      by_cases ho : k = other <;> simp [setEntry, valueAt?, ho]
    · by_cases ho : k = other
      · subst ho
        simp [setEntry, valueAt?, h, Ne.symm h]
      · simp [setEntry, valueAt?, h, ho, ih]

theorem Dict.get?_insert (d : Dict α) (name other : String) (value : α) :
    (d.insert name value).get? other = if name = other then some value else d.get? other :=
  valueAt?_setEntry name other value d.entries

@[simp] theorem Dict.get?_empty (name : String) : (∅ : Dict α).get? name = none := rfl

theorem Dict.contains_iff {d : Dict α} {name : String} :
    d.contains name = true ↔ name ∈ d.keys :=
  valueAt?_isSome_iff

end JobConfig
